import Njs.Lib.HttpRequest

/-!
# The lines and the chunks of a response

The status line and the header lines of a response as a tolerant recipient takes them: more digits
in the version, spaces around the digits of the status, a dot in place of the space before the text,
and lines that end without a carriage return.
-/

namespace Http

open Text
open Decimal (isDigitChar)

/-- The end of a line. -/
inductive Eol : Bytes → Prop
  | lf : Eol [0x0a]
  | crlf : Eol [0x0d, 0x0a]

/-- The rest of a line: a text and the end of the line. -/
structure IsLine (v text eol : Bytes) : Prop where
  all : text.all isLineChar = true
  ends : Eol eol
  eq : v = text ++ eol

theorem not_isLine_nil {text eol : Bytes} : ¬ IsLine [] text eol := by
  rintro ⟨-, heol, hv⟩
  cases heol <;> simp at hv

variable {v : Bytes} {P : Bytes → Bytes → Prop}

theorem isLine_lf {text eol : Bytes} :
    IsLine (0x0a :: v) text eol ↔ v = [] ∧ text = [] ∧ eol = [0x0a] := by
  constructor
  · rintro ⟨htext, heol, hv⟩
    cases text with
    | nil =>
      cases heol with
      | lf => exact ⟨(List.cons.inj hv).2, rfl, rfl⟩
      | crlf => exact absurd (List.cons.inj hv).1 (by decide)
    | cons c text =>
      obtain ⟨rfl, -⟩ := List.cons.inj hv
      exact absurd htext (by simp [isLineChar])
  · rintro ⟨rfl, rfl, rfl⟩
    exact ⟨rfl, .lf, rfl⟩

theorem isLine_cr {text eol : Bytes} :
    IsLine (0x0d :: v) text eol ↔ v = [0x0a] ∧ text = [] ∧ eol = [0x0d, 0x0a] := by
  constructor
  · rintro ⟨htext, heol, hv⟩
    cases text with
    | nil =>
      cases heol with
      | lf => exact absurd (List.cons.inj hv).1 (by decide)
      | crlf => exact ⟨(List.cons.inj hv).2, rfl, rfl⟩
    | cons c text =>
      obtain ⟨rfl, -⟩ := List.cons.inj hv
      exact absurd htext (by simp [isLineChar])
  · rintro ⟨rfl, rfl, rfl⟩
    exact ⟨rfl, .crlf, rfl⟩

theorem isLine_cons {b : UInt8} (hb : isLineChar b = true) {text eol : Bytes} :
    IsLine (b :: v) text eol ↔ ∃ t, text = b :: t ∧ IsLine v t eol := by
  constructor
  · rintro ⟨htext, heol, hv⟩
    cases text with
    | nil =>
      cases heol with
      | lf =>
        obtain ⟨rfl, -⟩ := List.cons.inj hv
        exact absurd hb (by decide)
      | crlf =>
        obtain ⟨rfl, -⟩ := List.cons.inj hv
        exact absurd hb (by decide)
    | cons c text =>
      obtain ⟨rfl, hrest⟩ := List.cons.inj hv
      rw [List.all_cons, Bool.and_eq_true] at htext
      exact ⟨text, rfl, htext.2, heol, hrest⟩
  · rintro ⟨t, rfl, htext, heol, rfl⟩
    exact ⟨by rw [List.all_cons, hb, htext]; rfl, heol, rfl⟩

theorem exists_isLine_lf :
    (∃ text eol, IsLine (0x0a :: v) text eol ∧ P text eol) ↔ v = [] ∧ P [] [0x0a] := by
  simp [isLine_lf]

theorem exists_isLine_cr :
    (∃ text eol, IsLine (0x0d :: v) text eol ∧ P text eol) ↔ v = [0x0a] ∧ P [] [0x0d, 0x0a] := by
  simp [isLine_cr]

theorem exists_isLine_cons {b : UInt8} (hb : isLineChar b = true) :
    (∃ text eol, IsLine (b :: v) text eol ∧ P text eol) ↔
      ∃ t eol, IsLine v t eol ∧ P (b :: t) eol := by
  constructor
  · rintro ⟨text, eol, hline, h⟩
    obtain ⟨t, rfl, hrest⟩ := (isLine_cons hb).mp hline
    exact ⟨t, eol, hrest, h⟩
  · rintro ⟨t, eol, hline, h⟩
    exact ⟨b :: t, eol, (isLine_cons hb).mpr ⟨t, rfl, hline⟩, h⟩

theorem ne_of_isLineChar {b : UInt8} (hb : isLineChar b = true) : b ≠ 0x0d ∧ b ≠ 0x0a := by
  rwa [isLineChar, Bool.and_eq_true, decide_eq_true_iff, decide_eq_true_iff] at hb

theorem isLineChar_cases (b : UInt8) : b = 0x0a ∨ b = 0x0d ∨ isLineChar b = true := by
  by_cases hlf : b = 0x0a
  · exact .inl hlf
  · by_cases hcr : b = 0x0d
    · exact .inr (.inl hcr)
    · exact .inr (.inr (by simp [isLineChar, hlf, hcr]))

def digitValue (c : UInt8) : ℕ := c.toNat - 48

theorem digitValue_lt {b : UInt8} (hb : isDigitChar b = true) : digitValue b < 10 := by
  simp only [isDigitChar, Bool.and_eq_true, decide_eq_true_iff, UInt8.le_iff_toNat_le] at hb
  have h57 : (57 : UInt8).toNat = 57 := rfl
  rw [digitValue]
  omega

/-- A decimal number, whose digits before these have the value `n`. -/
def decimalFrom : ℕ → Bytes → Option ℕ
  | n, [] => some n
  | n, c :: ds => if isDigitChar c then decimalFrom (10 * n + digitValue c) ds else none

theorem decimalFrom_ge {n m : ℕ} {ds : Bytes} (h : decimalFrom n ds = some m) : n ≤ m := by
  induction ds generalizing n with
  | nil => exact (Option.some.inj h).le
  | cons c ds ih =>
    rw [decimalFrom] at h
    split_ifs at h
    have := ih h
    omega

/-- `k` digits behind a number of the value `n`, with spaces before each of them. -/
inductive SpacedDigits : ℕ → ℕ → Bytes → ℕ → Prop
  | nil {n : ℕ} : SpacedDigits 0 n [] n
  | space {k n m : ℕ} {cs : Bytes} (h : SpacedDigits (k + 1) n cs m) :
    SpacedDigits (k + 1) n (0x20 :: cs) m
  | digit {k n m : ℕ} {c : UInt8} {cs : Bytes} (hc : isDigitChar c = true)
      (h : SpacedDigits k (10 * n + digitValue c) cs m) : SpacedDigits (k + 1) n (c :: cs) m

/-- A status line up to its status: the version 1, a minor version of one digit at least and below
1000, three digits, and carriage returns. -/
def StatusHead (minor code : ℕ) (head : Bytes) : Prop :=
  ∃ ds cs k, ds ≠ [] ∧ decimalFrom 0 ds = some minor ∧ minor < 1000 ∧ SpacedDigits 3 0 cs code ∧
    head = lit "HTTP/1." ++ ds ++ [0x20] ++ cs ++ List.replicate k 0x0d

/-- A text in a status line: what stands before it, the text, and the end of the line. -/
structure StatusText where
  before : Bytes
  text : Bytes
  eol : Bytes

inductive StatusLine (minor code : ℕ) : Bytes → Option StatusText → Prop
  | plain {head : Bytes} (hhead : StatusHead minor code head) :
    StatusLine minor code (head ++ [0x0a]) none
  | text {head text eol : Bytes} {sep : UInt8} (hhead : StatusHead minor code head)
      (hsep : sep = 0x20 ∨ sep = 0x2e) (htext : text.all isLineChar = true) (heol : Eol eol) :
    StatusLine minor code (head ++ [sep] ++ text ++ eol) (some ⟨head ++ [sep], text, eol⟩)

/-- The status line with one minor digit, one space, three digits, and a text or none. -/
def StrictStatusLine (line : Bytes) : Prop :=
  ∃ d a b c text eol, isDigitChar d = true ∧ isDigitChar a = true ∧ isDigitChar b = true ∧
    isDigitChar c = true ∧ text.all isLineChar = true ∧ Eol eol ∧
    (line = lit "HTTP/1." ++ [d, 0x20, a, b, c] ++ eol ∨
      line = lit "HTTP/1." ++ [d, 0x20, a, b, c] ++ [0x20] ++ text ++ eol)

/-- Letters and digits. -/
def isAlnum (c : UInt8) : Bool :=
  isDigitChar c || chr 'A' ≤ c && c ≤ chr 'Z' || chr 'a' ≤ c && c ≤ chr 'z'

/-- Letters, digits, dashes and underscores. -/
def isNameChar (c : UInt8) : Bool := isAlnum c || c = 0x2d || c = 0x5f

/-- A name, which begins with a letter or a digit. -/
def HeaderName (name : Bytes) : Prop :=
  ∃ c cs, name = c :: cs ∧ isAlnum c = true ∧ cs.all isNameChar = true

/-- A header line, with its name, the spaces before its value, and the value, which has no spaces
around it. A name alone is a line too. -/
inductive HeaderLine : Bytes → Bytes → ℕ → Bytes → Prop
  | bare {name eol : Bytes} (hname : HeaderName name) (heol : Eol eol) :
    HeaderLine (name ++ eol) name 0 []
  | field {name value eol : Bytes} {l r : ℕ} (hname : HeaderName name)
      (hvalue : value.all isLineChar = true) (hhead : value.head? ≠ some 0x20)
      (hlast : value.getLast? ≠ some 0x20) (hr : value = [] → r = 0) (heol : Eol eol) :
    HeaderLine
      (name ++ [0x3a] ++ List.replicate l 0x20 ++ value ++ List.replicate r 0x20 ++ eol) name
      (1 + l) value

/-- A text without the spaces at its end. -/
def trimRight : Bytes → Bytes
  | [] => []
  | c :: s => if c = 0x20 ∧ trimRight s = [] then [] else c :: trimRight s

theorem exists_eq_trimRight (s : Bytes) :
    ∃ r, s = trimRight s ++ List.replicate r 0x20 ∧ (trimRight s).getLast? ≠ some 0x20 := by
  induction s with
  | nil => exact ⟨0, rfl, by simp [trimRight]⟩
  | cons c s ih =>
    obtain ⟨r, hs, hlast⟩ := ih
    rw [trimRight]
    by_cases hc : c = 0x20 ∧ trimRight s = []
    · rw [if_pos hc]
      rw [hc.2] at hs
      exact ⟨r + 1, by rw [hc.1, hs]; simp [List.replicate_succ], by simp⟩
    rw [if_neg hc]
    refine ⟨r, by rw [List.cons_append, ← hs], ?_⟩
    cases htrim : trimRight s with
    | nil =>
      rw [htrim] at hc
      simpa using hc
    | cons d t =>
      rw [htrim] at hlast
      simpa [List.getLast?_cons_cons] using hlast

theorem trimRight_replicate (r : ℕ) : trimRight (List.replicate r 0x20) = [] := by
  induction r with
  | zero => rfl
  | succ r ih =>
    rw [List.replicate_succ, trimRight, if_pos ⟨rfl, ih⟩]

theorem trimRight_append {s : Bytes} (hlast : s.getLast? ≠ some 0x20) (r : ℕ) :
    trimRight (s ++ List.replicate r 0x20) = s := by
  induction s with
  | nil => exact trimRight_replicate r
  | cons c s ih =>
    rw [List.cons_append, trimRight]
    cases s with
    | nil =>
      have hc : c ≠ 0x20 := by simpa using hlast
      rw [if_neg fun h => hc h.1, List.nil_append, trimRight_replicate]
    | cons d s =>
      have htail : (d :: s).getLast? ≠ some 0x20 := by
        rwa [List.getLast?_cons_cons] at hlast
      rw [ih htail, if_neg fun h => List.cons_ne_nil d s h.2]

end Http

/-!
## Chunked bodies without extensions and trailers

The chunked coding as a relation between a text and the body that it stands for, for sizes that
satisfy a condition.
-/

namespace Http

open Text

/-- A hexadecimal number, whose digits before these have the value `n`. -/
def sizeFrom : ℕ → Bytes → Option ℕ
  | n, [] => some n
  | n, c :: ds =>
    match hexValue c with
    | some d => sizeFrom (16 * n + d) ds
    | none => none

/-- A hexadecimal number of at least one digit. -/
def IsSize (ds : Bytes) (n : ℕ) : Prop := ds ≠ [] ∧ sizeFrom 0 ds = some n

/-- A chunked body: chunks that are not empty, and a last one of size zero. -/
inductive ChunkedBody (Size : ℕ → Prop) : Bytes → Bytes → Prop
  | last {ds : Bytes} (hds : IsSize ds 0) : ChunkedBody Size (ds ++ crlf ++ crlf) []
  | chunk {ds data text body : Bytes} (hds : IsSize ds data.length) (hne : data ≠ [])
      (hsize : Size data.length) (hrest : ChunkedBody Size text body) :
      ChunkedBody Size (ds ++ crlf ++ data ++ crlf ++ text) (data ++ body)

variable {Size : ℕ → Prop}

theorem hexValue_lt : ∀ c d, hexValue c = some d → d < 16 :=
  forall_byte (by decide)

theorem hexValue_eq_none : hexValue 0x0d = none ∧ hexValue 0x0a = none := by
  decide

theorem sizeFrom_ge {n m : ℕ} {ds : Bytes} (h : sizeFrom n ds = some m) : n ≤ m := by
  induction ds generalizing n with
  | nil => exact (Option.some.inj h).le
  | cons c ds ih =>
    rw [sizeFrom] at h
    cases hc : hexValue c with
    | some d =>
      rw [hc] at h
      have := ih h
      omega
    | none => simp [hc] at h

theorem hexValue_zero : hexValue 0x30 = some 0 := by
  decide

theorem sizeFrom_zeros (n k : ℕ) : sizeFrom n (List.replicate k 0x30) = some (16 ^ k * n) := by
  induction k generalizing n with
  | zero => simp [sizeFrom]
  | succ k ih =>
    rw [List.replicate_succ, sizeFrom, hexValue_zero]
    simp only [ih, Nat.add_zero, Option.some.injEq]
    ring

theorem ChunkedBody.zero : ChunkedBody Size ([0x30] ++ crlf ++ crlf) [] :=
  .last ⟨by simp, rfl⟩

end Http
