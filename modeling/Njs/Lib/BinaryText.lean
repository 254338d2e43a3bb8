import Mathlib.Data.List.GetD
import Njs.Lib.Text

/-!
# Bytes written with digits

Three bytes are four digits of six bits, and a byte is two digits of four bits. A digit is written
with the letter of an alphabet.
-/

open Text

/-- The letters of the digits below a base, and the values of the bytes that are letters. -/
structure Numerals (base : ℕ) where
  letter : ℕ → UInt8
  value : UInt8 → Option ℕ
  value_letter : ∀ d < base, value (letter d) = some d
  value_lt : ∀ b d, value b = some d → d < base

namespace Numerals

variable {base : ℕ} (N : Numerals base)

def IsLetter (b : UInt8) : Bool := (N.value b).isSome

/-- The longest part that a text begins with and that consists of letters. -/
def validPrefix (text : Bytes) : Bytes := text.takeWhile N.IsLetter

def leading (text : Bytes) : List ℕ := (N.validPrefix text).filterMap N.value

@[simp] theorem leading_nil : N.leading [] = [] := rfl

theorem leading_cons_some {b : UInt8} {d : ℕ} (h : N.value b = some d) (text : Bytes) :
    N.leading (b :: text) = d :: N.leading text := by
  rw [leading, validPrefix, List.takeWhile_cons_of_pos (by rw [IsLetter, h, Option.isSome_some]),
    List.filterMap_cons_some h]
  rfl

theorem leading_cons_none {b : UInt8} (h : N.value b = none) (text : Bytes) :
    N.leading (b :: text) = [] := by
  rw [leading, validPrefix, List.takeWhile_cons_of_neg (by rw [IsLetter, h]; simp)]
  rfl

theorem length_leading (text : Bytes) : (N.leading text).length = (N.validPrefix text).length := by
  induction text with
  | nil => rfl
  | cons b text ih =>
    obtain h | ⟨d, h⟩ := Option.eq_none_or_eq_some (N.value b)
    · rw [leading_cons_none N h, validPrefix,
        List.takeWhile_cons_of_neg (by rw [IsLetter, h]; simp)]
      rfl
    · rw [leading_cons_some N h, validPrefix,
        List.takeWhile_cons_of_pos (by rw [IsLetter, h, Option.isSome_some]), List.length_cons, ih]
      rfl

theorem leading_letters {digits : List ℕ} (hdigits : ∀ d ∈ digits, d < base) (rest : Bytes) :
    N.leading (digits.map N.letter ++ rest) = digits ++ N.leading rest := by
  induction digits with
  | nil => rfl
  | cons d digits ih =>
    obtain ⟨hd, hdigits⟩ := List.forall_mem_cons.1 hdigits
    rw [List.map_cons, List.cons_append, leading_cons_some N (N.value_letter d hd), ih hdigits]
    rfl

theorem length_leading_le (text : Bytes) : (N.leading text).length ≤ text.length := by
  rw [length_leading]
  exact (List.takeWhile_prefix _).length_le

theorem of_leading_eq_cons {text : Bytes} {d : ℕ} {digits : List ℕ}
    (h : N.leading text = d :: digits) :
    ∃ b rest, text = b :: rest ∧ N.value b = some d ∧ N.leading rest = digits := by
  obtain _ | ⟨b, rest⟩ := text
  · exact absurd h.symm (List.cons_ne_nil _ _)
  obtain hb | ⟨d', hb⟩ := Option.eq_none_or_eq_some (N.value b)
  · rw [leading_cons_none N hb] at h
    exact absurd h.symm (List.cons_ne_nil _ _)
  · rw [leading_cons_some N hb] at h
    obtain ⟨rfl, hrest⟩ := List.cons.inj h
    exact ⟨b, rest, rfl, hb, hrest⟩

/-! ### Alphabets -/

variable {letters : Bytes}

theorem getD_idxOf? (hlength : letters.length = base) (hnodup : letters.Nodup) :
    ∀ d < base, letters.idxOf? (letters.getD d 0) = some d := by
  rintro d hd
  rw [← hlength] at hd
  rw [List.getD_eq_getElem _ _ hd, List.idxOf?_eq_some_iff]
  refine ⟨hd, rfl, fun j hj h => ?_⟩
  exact Nat.ne_of_lt hj (hnodup.getElem_inj_iff.1 h)

theorem idxOf?_lt (hlength : letters.length = base) :
    ∀ b d, letters.idxOf? b = some d → d < base := by
  rintro b d h
  obtain ⟨hd, -, -⟩ := List.idxOf?_eq_some_iff.1 h
  exact hlength ▸ hd

def ofAlphabet (letters : Bytes) (hlength : letters.length = base) (hnodup : letters.Nodup) :
    Numerals base where
  letter d := letters.getD d 0
  value b := letters.idxOf? b
  value_letter := getD_idxOf? hlength hnodup
  value_lt := idxOf?_lt hlength

end Numerals

namespace Base64

def encode : Bytes → List ℕ
  | x :: y :: z :: rest =>
    x.toNat / 4 :: (x.toNat % 4 * 16 + y.toNat / 16) :: (y.toNat % 16 * 4 + z.toNat / 64) ::
      z.toNat % 64 :: encode rest
  | [x, y] => [x.toNat / 4, x.toNat % 4 * 16 + y.toNat / 16, y.toNat % 16 * 4]
  | [x] => [x.toNat / 4, x.toNat % 4 * 16]
  | [] => []

/-- The bytes of digits. What is left of the last digit is dropped. -/
def decode : List ℕ → Bytes
  | a :: b :: c :: d :: rest =>
    .ofNat (a * 4 + b / 16) :: .ofNat (b % 16 * 16 + c / 4) :: .ofNat (c % 4 * 64 + d) ::
      decode rest
  | [a, b, c] => [.ofNat (a * 4 + b / 16), .ofNat (b % 16 * 16 + c / 4)]
  | [a, b] => [.ofNat (a * 4 + b / 16)]
  | _ => []

def read (N : Numerals 64) (text : Bytes) : Bytes := decode (N.leading text)

theorem ofNat_eq {x : UInt8} {n : ℕ} (h : n = x.toNat) : UInt8.ofNat n = x := by
  rw [h, UInt8.ofNat_toNat]

theorem decode_encode (b : Bytes) : decode (encode b) = b := by
  fun_induction encode b with
  | case1 x y z rest ih =>
    have := y.toNat_lt
    have := z.toNat_lt
    rw [decode, ih, ofNat_eq (x := x) (by omega), ofNat_eq (x := y) (by omega),
      ofNat_eq (x := z) (by omega)]
  | case2 x y =>
    have := y.toNat_lt
    rw [decode, ofNat_eq (x := x) (by omega), ofNat_eq (x := y) (by omega)]
  | case3 x => rw [decode, ofNat_eq (x := x) (by omega)]
  | case4 => rfl

theorem encode_lt (b : Bytes) : ∀ d ∈ encode b, d < 64 := by
  fun_induction encode b with
  | case1 x y z rest ih =>
    have := x.toNat_lt
    have := y.toNat_lt
    have := z.toNat_lt
    simp only [List.forall_mem_cons]
    exact ⟨by omega, by omega, by omega, by omega, ih⟩
  | case2 x y =>
    have := x.toNat_lt
    have := y.toNat_lt
    simp only [List.forall_mem_cons]
    exact ⟨by omega, by omega, by omega, List.forall_mem_nil _⟩
  | case3 x =>
    have := x.toNat_lt
    simp only [List.forall_mem_cons]
    exact ⟨by omega, by omega, List.forall_mem_nil _⟩
  | case4 => exact List.forall_mem_nil _

theorem length_encode (b : Bytes) : (encode b).length = (b.length * 4 + 2) / 3 := by
  fun_induction encode b with
  | case1 x y z rest ih =>
    simp only [List.length_cons, ih]
    omega
  | case2 | case3 | case4 => simp

/-- The number of the characters behind the digits that fill the last group of four. -/
def pad (b : Bytes) : ℕ := (3 - b.length % 3) % 3

theorem length_encode_add_pad (b : Bytes) : (encode b).length + pad b = (b.length + 2) / 3 * 4 := by
  rw [length_encode, pad]
  omega

theorem pad_add_three (x y z : UInt8) (rest : Bytes) : pad (x :: y :: z :: rest) = pad rest := by
  simp only [pad, List.length_cons]
  omega

theorem length_decode (digits : List ℕ) : (decode digits).length = digits.length * 3 / 4 := by
  fun_induction decode digits with
  | case1 a b c d rest ih =>
    simp only [List.length_cons, ih]
    omega
  | case2 | case3 => simp
  | case4 digits h4 h3 h2 =>
    obtain _ | ⟨a, _ | ⟨b, _ | ⟨c, _ | ⟨d, rest⟩⟩⟩⟩ := digits
    · rfl
    · simp
    · exact absurd rfl (h2 a b)
    · exact absurd rfl (h3 a b c)
    · exact absurd rfl (h4 a b c d rest)

/-- The letters of base 64. -/
def alphabet : Bytes := lit "ABCDEFGHIJKLMNOPQRSTUVWXYZabcdefghijklmnopqrstuvwxyz0123456789+/"

/-- The letters of base 64 that are safe in a URL. -/
def urlAlphabet : Bytes := lit "ABCDEFGHIJKLMNOPQRSTUVWXYZabcdefghijklmnopqrstuvwxyz0123456789-_"

theorem alphabets : (alphabet.length = 64 ∧ alphabet.Nodup) ∧
    (urlAlphabet.length = 64 ∧ urlAlphabet.Nodup) := by
  rw [alphabet, urlAlphabet, lit_eq_litUndecoded]
  decide

def standard : Numerals 64 := .ofAlphabet alphabet alphabets.1.1 alphabets.1.2

def url : Numerals 64 := .ofAlphabet urlAlphabet alphabets.2.1 alphabets.2.2

theorem standard_value (b : UInt8) : standard.value b = alphabet.idxOf? b := rfl

theorem url_value (b : UInt8) : url.value b = urlAlphabet.idxOf? b := rfl

end Base64

namespace Base16

def value (b : UInt8) : Option ℕ :=
  if chr '0' ≤ b ∧ b ≤ chr '9' then some (b.toNat - 0x30)
  else if chr 'a' ≤ b ∧ b ≤ chr 'f' then some (b.toNat - 0x61 + 10)
  else if chr 'A' ≤ b ∧ b ≤ chr 'F' then some (b.toNat - 0x41 + 10)
  else none

/-- The letters of base 16 that are written. -/
def alphabet : Bytes := lit "0123456789abcdef"

theorem value_letter : ∀ d < 16, value (alphabet.getD d 0) = some d := by
  rw [alphabet, lit_eq_litUndecoded]
  decide

theorem value_lt (b : UInt8) (d : ℕ) (h : value b = some d) : d < 16 := by
  have hle {c₁ c₂ : UInt8} (h : c₁ ≤ c₂) : c₁.toNat ≤ c₂.toNat := UInt8.le_iff_toNat_le.1 h
  have h9 : (chr '9').toNat = 0x39 := rfl
  have hf : (chr 'f').toNat = 0x66 := rfl
  have hF : (chr 'F').toNat = 0x46 := rfl
  rw [value] at h
  split_ifs at h with h₁ h₂ h₃
  · have := hle h₁.2
    have := Option.some.inj h
    omega
  · have := hle h₂.2
    have := Option.some.inj h
    omega
  · have := hle h₃.2
    have := Option.some.inj h
    omega

/-- The hexadecimal digits, whose letters are read in both cases. -/
def hexadecimal : Numerals 16 where
  letter d := alphabet.getD d 0
  value := value
  value_letter := value_letter
  value_lt := value_lt

def encode (b : Bytes) : List ℕ := b.flatMap fun x => [x.toNat / 16, x.toNat % 16]

/-- The bytes of digits. A last digit without another one is dropped. -/
def decode : List ℕ → Bytes
  | a :: b :: rest => .ofNat (a * 16 + b) :: decode rest
  | _ => []

def read (N : Numerals 16) (text : Bytes) : Bytes := decode (N.leading text)

theorem decode_encode (b : Bytes) : decode (encode b) = b := by
  induction b with
  | nil => rfl
  | cons x b ih =>
    rw [encode, List.flatMap_cons, List.cons_append, List.cons_append, decode]
    exact congrArg₂ List.cons (Base64.ofNat_eq (by omega)) ih

theorem length_encode (b : Bytes) : (encode b).length = b.length * 2 := by
  induction b with
  | nil => rfl
  | cons x b ih =>
    rw [encode, List.flatMap_cons, List.length_append, List.length_cons]
    change 2 + (encode b).length = _
    rw [ih, List.length_cons]
    omega

theorem encode_lt (b : Bytes) : ∀ d ∈ encode b, d < 16 := by
  intro d hd
  obtain ⟨x, -, hx⟩ := List.mem_flatMap.1 hd
  have := x.toNat_lt
  simp only [List.mem_cons, List.not_mem_nil, or_false] at hx
  omega

theorem length_decode (digits : List ℕ) : (decode digits).length = digits.length / 2 := by
  fun_induction decode digits with
  | case1 a b rest ih =>
    simp only [List.length_cons, ih]
    omega
  | case2 digits h2 =>
    obtain _ | ⟨a, _ | ⟨b, rest⟩⟩ := digits
    · rfl
    · simp
    · exact absurd rfl (h2 a b rest)

theorem length_read_le (N : Numerals 16) (text : Bytes) :
    (read N text).length ≤ text.length / 2 := by
  rw [read, length_decode]
  exact Nat.div_le_div_right (N.length_leading_le text)

end Base16
