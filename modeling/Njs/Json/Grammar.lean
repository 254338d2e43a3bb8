import Njs.Json.Parser

/-!
# JSON texts and what they denote

The trees of a grammar with the numerals of `njs_atod` in the place of those of JSON. A tree without
such numerals is a JSON text by RFC 8259. A tree keeps all that its text has, so that its text can
be taken apart in one way only.

Two escapes of a surrogate pair denote one character, and the escape of any other surrogate
denotes U+FFFD, a string of the engine having no surrogates.
-/

namespace Njs.Json

open Text
open SharedDict (isHexDigit isEscapeChar escapedChar)

variable {ν : Type}

/-! ### Space and numerals -/

abbrev Space : Type := { w : Bytes // ∀ ch ∈ w, isSpace ch = true }

def Digits (s : Bytes) : Prop := s ≠ [] ∧ ∀ ch ∈ s, isDigit ch = true

/-- `exp` of the grammar of numbers, if there is one. -/
def Exponent (s : Bytes) : Prop :=
  s = [] ∨ ∃ e sign d, s = e :: (sign ++ d) ∧ e ∈ lit "eE" ∧ sign ∈ [[], lit "+", lit "-"] ∧
    Digits d

/-- The numerals of JSON. -/
def JsonNumber (s : Bytes) : Prop :=
  ∃ sign int frac exp, s = sign ++ (int ++ frac ++ exp) ∧ sign ∈ [[], lit "-"] ∧
    (int = lit "0" ∨ Digits int ∧ int.head? ≠ some (chr '0')) ∧
    (frac = [] ∨ ∃ d, frac = chr '.' :: d ∧ Digits d) ∧ Exponent exp

/-- Digits with one dot at most. -/
def Mantissa (s : Bytes) : Prop :=
  ∃ int frac, s = int ++ frac ∧ (∀ ch ∈ int, isDigit ch = true) ∧ (frac = [] ∧ int ≠ [] ∨
      ∃ d, frac = chr '.' :: d ∧ (∀ ch ∈ d, isDigit ch = true) ∧ (int ≠ [] ∨ d ≠ []))

/-- The numerals that the parser takes. -/
def LaxNumber (s : Bytes) : Prop :=
  ∃ sign body, s = sign ++ body ∧ sign ∈ [[], lit "+", lit "-"] ∧
    (sign ≠ [] ∧ body = lit "Infinity" ∨
      ∃ mantissa exp, body = mantissa ++ exp ∧ Mantissa mantissa ∧ Exponent exp)

abbrev Numeral : Type := { s : Bytes // LaxNumber s }

/-! ### Strings -/

abbrev HexDigit : Type := { ch : UInt8 // isHexDigit ch = true }

/-- What stands in a string: a byte of a character, the escape of a character, or the escape of a
code unit. -/
inductive Piece
  | byte (ch : UInt8) (h : chr ' ' ≤ ch ∧ ch ≠ chr '"' ∧ ch ≠ chr '\\')
  | escape (ch : UInt8) (h : isEscapeChar ch = true)
  | unit (a b c d : HexDigit)
  deriving DecidableEq

def Piece.text : Piece → Bytes
  | .byte ch _ => [ch]
  | .escape ch _ => [chr '\\', ch]
  | .unit a b c d => [chr '\\', chr 'u', a.1, b.1, c.1, d.1]

def piecesText (l : List Piece) : Bytes := l.flatMap Piece.text

def quoted (l : List Piece) : Bytes := chr '"' :: (piecesText l ++ [chr '"'])

def hexDigitValue (ch : UInt8) : ℕ :=
  if isDigit ch then ch.toNat - (chr '0').toNat
  else if chr 'a' ≤ ch then ch.toNat - (chr 'a').toNat + 10
  else ch.toNat - (chr 'A').toNat + 10

def unitValue (a b c d : HexDigit) : ℕ :=
  [a, b, c, d].foldl (fun n ch => 16 * n + hexDigitValue ch.1) 0

/-- The first half of a surrogate pair. -/
def IsLeading (n : ℕ) : Prop := 0xd800 ≤ n ∧ n < 0xdc00

/-- The second half of a surrogate pair. -/
def IsTrailing (n : ℕ) : Prop := 0xdc00 ≤ n ∧ n < 0xe000

instance (n : ℕ) : Decidable (IsLeading n) := inferInstanceAs (Decidable (_ ∧ _))

instance (n : ℕ) : Decidable (IsTrailing n) := inferInstanceAs (Decidable (_ ∧ _))

def pairValue (high low : ℕ) : ℕ := (high - 0xd800) * 0x400 + (low - 0xdc00) + 0x10000

def encodeCode (n : ℕ) : Bytes := String.utf8EncodeChar (Char.ofNat n)

def encodeUnit (n : ℕ) : Bytes :=
  if IsLeading n ∨ IsTrailing n then encodeCode 0xfffd else encodeCode n

def denote : List Piece → Bytes
  | [] => []
  | .byte ch _ :: l => ch :: denote l
  | .escape ch _ :: l => (escapedChar ch).toList ++ denote l
  | .unit a b c d :: .unit a' b' c' d' :: l =>
    let n := unitValue a b c d
    let n' := unitValue a' b' c' d'
    if IsLeading n ∧ IsTrailing n' then encodeCode (pairValue n n') ++ denote l
    else encodeUnit n ++ denote (.unit a' b' c' d' :: l)
  | .unit a b c d :: l => encodeUnit (unitValue a b c d) ++ denote l

/-- The escape of U+FFFD. -/
def replacement : Piece :=
  .unit ⟨chr 'f', by decide⟩ ⟨chr 'f', by decide⟩ ⟨chr 'f', by decide⟩ ⟨chr 'd', by decide⟩

/-- The pieces whose string the parser gives: after a leading surrogate, another leading surrogate
is taken as U+FFFD even where it begins a pair. -/
def reread : List Piece → List Piece
  | .unit a b c d :: .unit a' b' c' d' :: l =>
    if IsLeading (unitValue a b c d) then
      if IsLeading (unitValue a' b' c' d') then .unit a b c d :: replacement :: reread l
      else .unit a b c d :: .unit a' b' c' d' :: reread l
    else .unit a b c d :: reread (.unit a' b' c' d' :: l)
  | x :: l => x :: reread l
  | [] => []

/-! ### Trees -/

/-- What a tree is of. -/
inductive Kind
  | value
  | elements
  | members

/-- Trees of values, of the elements of an array and of the members of an object. -/
inductive Syn : Kind → Type
  | null : Syn .value
  | boolean (b : Bool) : Syn .value
  | number (n : Numeral) : Syn .value
  | string (s : List Piece) : Syn .value
  | emptyArray (w : Space) : Syn .value
  | array (l : Syn .elements) : Syn .value
  | emptyObject (w : Space) : Syn .value
  | object (l : Syn .members) : Syn .value
  | lastElement (w : Space) (v : Syn .value) (w' : Space) : Syn .elements
  | element (w : Space) (v : Syn .value) (w' : Space) (l : Syn .elements) : Syn .elements
  | lastMember (w : Space) (name : List Piece) (w₁ w₂ : Space) (v : Syn .value) (w' : Space) :
      Syn .members
  | member (w : Space) (name : List Piece) (w₁ w₂ : Space) (v : Syn .value) (w' : Space)
      (l : Syn .members) : Syn .members

def nameText (w : Space) (name : List Piece) (w₁ w₂ : Space) : Bytes :=
  w.1 ++ quoted name ++ w₁.1 ++ chr ':' :: w₂.1

def Syn.text : {k : Kind} → Syn k → Bytes
  | _, .null => lit "null"
  | _, .boolean true => lit "true"
  | _, .boolean false => lit "false"
  | _, .number n => n.1
  | _, .string s => quoted s
  | _, .emptyArray w => chr '[' :: (w.1 ++ [chr ']'])
  | _, .array l => chr '[' :: (l.text ++ [chr ']'])
  | _, .emptyObject w => chr '\x7b' :: (w.1 ++ [chr '\x7d'])
  | _, .object l => chr '\x7b' :: (l.text ++ [chr '\x7d'])
  | _, .lastElement w v w' => w.1 ++ v.text ++ w'.1
  | _, .element w v w' l => w.1 ++ v.text ++ w'.1 ++ chr ',' :: l.text
  | _, .lastMember w name w₁ w₂ v w' => nameText w name w₁ w₂ ++ v.text ++ w'.1
  | _, .member w name w₁ w₂ v w' l =>
    nameText w name w₁ w₂ ++ v.text ++ w'.1 ++ chr ',' :: l.text

/-- How deep arrays and objects are nested. -/
def Syn.depth : {k : Kind} → Syn k → ℕ
  | _, .null | _, .boolean _ | _, .number _ | _, .string _ => 0
  | _, .emptyArray _ | _, .emptyObject _ => 1
  | _, .array l => l.depth + 1
  | _, .object l => l.depth + 1
  | _, .lastElement _ v _ => v.depth
  | _, .element _ v _ l => max v.depth l.depth
  | _, .lastMember _ _ _ _ v _ => v.depth
  | _, .member _ _ _ _ v _ l => max v.depth l.depth

/-- All numerals are those of JSON. -/
def Syn.IsJson : {k : Kind} → Syn k → Prop
  | _, .null | _, .boolean _ | _, .string _ | _, .emptyArray _ | _, .emptyObject _ => True
  | _, .number n => JsonNumber n.1
  | _, .array l => l.IsJson
  | _, .object l => l.IsJson
  | _, .lastElement _ v _ => v.IsJson
  | _, .element _ v _ l => v.IsJson ∧ l.IsJson
  | _, .lastMember _ _ _ _ v _ => v.IsJson
  | _, .member _ _ _ _ v _ l => v.IsJson ∧ l.IsJson

/-- The pieces of every string read again. -/
def Syn.reread : {k : Kind} → Syn k → Syn k
  | _, .null => .null
  | _, .boolean b => .boolean b
  | _, .number n => .number n
  | _, .string s => .string (Json.reread s)
  | _, .emptyArray w => .emptyArray w
  | _, .array l => .array l.reread
  | _, .emptyObject w => .emptyObject w
  | _, .object l => .object l.reread
  | _, .lastElement w v w' => .lastElement w v.reread w'
  | _, .element w v w' l => .element w v.reread w' l.reread
  | _, .lastMember w name w₁ w₂ v w' => .lastMember w (Json.reread name) w₁ w₂ v.reread w'
  | _, .member w name w₁ w₂ v w' l =>
    .member w (Json.reread name) w₁ w₂ v.reread w' l.reread

/-- What a tree denotes. -/
@[reducible] def Kind.Meaning (ν : Type) : Kind → Type
  | .value => Value ν
  | .elements => List (Value ν)
  | .members => List (Bytes × Value ν)

/-- The names of members in the order of their first members. -/
def memberNames (l : List (Bytes × Value ν)) : List Bytes := (l.map Prod.fst).reverse.dedup.reverse

/-- Of the members of one name the last gives the value and the first the place. -/
def lastWins (l : List (Bytes × Value ν)) : List (Bytes × Value ν) :=
  (memberNames l).filterMap fun name => l.reverse.find? (·.1 = name)

/-- The value of a tree; `atod` gives the values of numerals. -/
def Syn.denote (atod : Bytes → ν) : {k : Kind} → Syn k → k.Meaning ν
  | _, .null => Value.null
  | _, .boolean b => Value.boolean b
  | _, .number n => Value.number (atod n.1)
  | _, .string s => Value.string (Json.denote s)
  | _, .emptyArray _ => Value.array []
  | _, .array l => Value.array (l.denote atod)
  | _, .emptyObject _ => Value.object []
  | _, .object l => Value.object (lastWins (l.denote atod))
  | _, .lastElement _ v _ => [v.denote atod]
  | _, .element _ v _ l => (v.denote atod :: l.denote atod : List (Value ν))
  | _, .lastMember _ name _ _ v _ => [(Json.denote name, v.denote atod)]
  | _, .member _ name _ _ v _ l =>
    ((Json.denote name, v.denote atod) :: l.denote atod : List (Bytes × Value ν))

/-- The tree of a whole text. -/
structure Tree where
  before : Space
  value : Syn .value
  after : Space

namespace Tree

def text (t : Tree) : Bytes := t.before.1 ++ t.value.text ++ t.after.1

/-- How deep arrays and objects are nested. -/
def depth (t : Tree) : ℕ := t.value.depth

/-- The text is a JSON text. -/
def IsJson (t : Tree) : Prop := t.value.IsJson

def denote (atod : Bytes → ν) (t : Tree) : Value ν := t.value.denote atod

def reread (t : Tree) : Tree := { t with value := t.value.reread }

end Tree

end Njs.Json

/-!
## What the parser takes as a number
-/

namespace Njs.Json

open Text

/-- The text goes on with what cannot be part of a numeral. -/
def Stops (p : Bytes) : Prop :=
  ∀ ch ∈ p.head?, isDigit ch = false ∧ ch ≠ chr '.' ∧ ch ∉ lit "eE"

/-! ### Digits -/

theorem digitsLoop_append {d : Bytes} (hd : ∀ ch ∈ d, isDigit ch = true) (moved dot : Bool)
    (p : Bytes) :
    digitsLoop isDigit moved dot (d ++ p) =
      (d ++ (digitsLoop isDigit (moved || !d.isEmpty) dot p).1,
        (digitsLoop isDigit (moved || !d.isEmpty) dot p).2) := by
  induction d generalizing moved with
  | nil => simp
  | cons ch d ih =>
    have hch := hd ch List.mem_cons_self
    have hne : ch ≠ chr '.' := by
      rintro rfl
      exact absurd hch (by decide)
    have ih := ih (fun x hx => hd x (List.mem_cons_of_mem ch hx)) true
    simp [digitsLoop, hch, hne, ih]

theorem digitsLoop_stop {p : Bytes} (hp : ∀ ch ∈ p.head?, isDigit ch = false ∧ ch ≠ chr '.')
    (moved dot : Bool) : digitsLoop isDigit moved dot p = ([], moved, dot, p) := by
  cases p with
  | nil => rfl
  | cons ch p =>
    obtain ⟨hdigit, hne⟩ := hp ch rfl
    simp [digitsLoop, hdigit, hne]

theorem digitsLoop_zeros (moved dot : Bool) (p : Bytes) :
    let (zeros, moved', dot', q) := digitsLoop (· = chr '0') moved dot p
    let (digits, r) := digitsLoop isDigit moved' dot' q
    digitsLoop isDigit moved dot p = (zeros ++ digits, r) := by
  have hzero : isDigit (chr '0') = true := by decide
  induction p generalizing moved dot with
  | nil => simp [digitsLoop]
  | cons ch p ih =>
    by_cases hdot : (ch = chr '.' && (moved || atDigit p)) = true
    · cases dot with
      | true => simp [digitsLoop, hdot]
      | false =>
        have ih := ih true true
        simp only [digitsLoop, hdot, if_true, Bool.false_eq_true, if_false] at ih ⊢
        rw [ih, List.cons_append]
    by_cases hch : ch = chr '0'
    · subst hch
      have ih := ih true dot
      simp only [digitsLoop, hdot, hzero, decide_true, if_true, Bool.false_eq_true,
        if_false] at ih ⊢
      rw [ih, List.cons_append]
    · simp [digitsLoop, hdot, hch]

theorem digitsLoop_cases (moved dot : Bool) (p : Bytes) :
    digitsLoop isDigit moved dot p = ([], moved, dot, p) ∨
    (∃ ch q, p = ch :: q ∧ isDigit ch = true ∧ digitsLoop isDigit moved dot p =
      (ch :: (digitsLoop isDigit true dot q).1, (digitsLoop isDigit true dot q).2)) ∨
    ∃ q, p = chr '.' :: q ∧ dot = false ∧ (moved || atDigit q) = true ∧
      digitsLoop isDigit moved dot p =
        (chr '.' :: (digitsLoop isDigit true true q).1, (digitsLoop isDigit true true q).2) := by
  cases p with
  | nil => exact .inl rfl
  | cons ch q =>
    by_cases hdot : (ch = chr '.' && (moved || atDigit q)) = true
    · obtain ⟨rfl, hat⟩ : ch = chr '.' ∧ (moved || atDigit q) = true := by simpa using hdot
      cases dot with
      | true => exact .inl (by simp [digitsLoop, hat])
      | false => exact .inr (.inr ⟨q, rfl, rfl, hat, by simp [digitsLoop, hat]⟩)
    · by_cases hdigit : isDigit ch = true
      · exact .inr (.inl ⟨ch, q, rfl, hdigit, by simp [digitsLoop, hdot, hdigit]⟩)
      · exact .inl (by simp [digitsLoop, hdot, hdigit])

theorem digitsLoop_dot_spec (p : Bytes) :
    let (text, moved, _, r) := digitsLoop isDigit true true p
    p = text ++ r ∧ moved = true ∧ ∀ ch ∈ text, isDigit ch = true := by
  induction p with
  | nil => simp [digitsLoop]
  | cons ch p ih =>
    obtain h | ⟨x, q, hp, hx, h⟩ | ⟨q, -, hdot, -⟩ := digitsLoop_cases true true (ch :: p)
    · simp [h]
    · obtain ⟨rfl, rfl⟩ := List.cons.inj hp
      obtain ⟨htext, hmoved, hdigits⟩ := ih
      rw [h]
      exact ⟨congrArg (ch :: ·) htext, hmoved, List.forall_mem_cons.mpr ⟨hx, hdigits⟩⟩
    · cases hdot

theorem digitsLoop_moved_spec (p : Bytes) :
    let (text, moved, _, r) := digitsLoop isDigit true false p
    p = text ++ r ∧ moved = true ∧ ∃ int frac, text = int ++ frac ∧
      (∀ ch ∈ int, isDigit ch = true) ∧
      (frac = [] ∨ ∃ d, frac = chr '.' :: d ∧ ∀ ch ∈ d, isDigit ch = true) := by
  induction p with
  | nil => exact ⟨rfl, rfl, [], [], rfl, by simp, .inl rfl⟩
  | cons ch p ih =>
    obtain h | ⟨x, q, hp, hx, h⟩ | ⟨q, hp, -, -, h⟩ := digitsLoop_cases true false (ch :: p)
    · rw [h]
      exact ⟨rfl, rfl, [], [], rfl, by simp, .inl rfl⟩
    · obtain ⟨rfl, rfl⟩ := List.cons.inj hp
      obtain ⟨htext, hmoved, int, frac, heq, hint, hfrac⟩ := ih
      rw [h]
      exact ⟨congrArg (ch :: ·) htext, hmoved, ch :: int, frac, congrArg (ch :: ·) heq,
        List.forall_mem_cons.mpr ⟨hx, hint⟩, hfrac⟩
    · obtain ⟨htext, hmoved, hdigits⟩ := digitsLoop_dot_spec q
      rw [h, hp]
      exact ⟨congrArg (chr '.' :: ·) htext, hmoved, [], _, rfl, by simp,
        .inr ⟨_, rfl, hdigits⟩⟩

theorem digitsLoop_spec (p : Bytes) :
    let (text, moved, _, r) := digitsLoop isDigit false false p
    moved = true → p = text ++ r ∧ Mantissa text := by
  obtain h | ⟨ch, q, rfl, hch, h⟩ | ⟨q, rfl, -, hat, h⟩ := digitsLoop_cases false false p
  · simp [h]
  · obtain ⟨htext, -, int, frac, heq, hint, hfrac⟩ := digitsLoop_moved_spec q
    rw [h]
    refine fun _ => ⟨congrArg (ch :: ·) htext, ch :: int, frac, congrArg (ch :: ·) heq,
      List.forall_mem_cons.mpr ⟨hch, hint⟩, ?_⟩
    obtain hnil | ⟨d, hd, hdigits⟩ := hfrac
    · exact .inl ⟨hnil, List.cons_ne_nil ch int⟩
    · exact .inr ⟨d, hd, hdigits, .inl (List.cons_ne_nil ch int)⟩
  obtain ⟨htext, -, hdigits⟩ := digitsLoop_dot_spec q
  rw [h]
  refine fun _ => ⟨congrArg (chr '.' :: ·) htext, [], _, rfl, by simp,
    .inr ⟨_, rfl, hdigits, .inr ?_⟩⟩
  -- The dot is passed because of the digit after it.
  obtain ⟨d, q, rfl⟩ : ∃ d l, q = d :: l := by
    cases q with
    | nil => cases hat
    | cons d q => exact ⟨d, q, rfl⟩
  have hd : isDigit d = true := hat
  have hne : d ≠ chr '.' := by
    rintro rfl
    exact absurd hd (by decide)
  simp [digitsLoop, hd, hne]

theorem Mantissa.exists_cons {m : Bytes} (h : Mantissa m) :
    ∃ ch q, m = ch :: q ∧ (isDigit ch = true ∨ ch = chr '.') := by
  obtain ⟨int, frac, rfl, hint, hfrac⟩ := h
  cases int with
  | cons ch int => exact ⟨ch, _, rfl, .inl (hint ch List.mem_cons_self)⟩
  | nil =>
    obtain ⟨-, hne⟩ | ⟨d, rfl, -⟩ := hfrac
    · exact absurd rfl hne
    · exact ⟨_, _, rfl, .inr rfl⟩

theorem digitsLoop_frac {d p : Bytes} (hd : ∀ ch ∈ d, isDigit ch = true)
    (hp : ∀ ch ∈ p.head?, isDigit ch = false ∧ ch ≠ chr '.') {moved : Bool}
    (hmoved : moved = true ∨ d ≠ []) :
    digitsLoop isDigit moved false (chr '.' :: (d ++ p)) = (chr '.' :: d, true, true, p) := by
  have hat : (moved || atDigit (d ++ p)) = true := by
    cases d with
    | nil =>
      have hmoved : moved = true := by simpa using hmoved
      simp [hmoved]
    | cons ch d => simp [atDigit, hd ch List.mem_cons_self]
  simp [digitsLoop, hat, digitsLoop_append hd, digitsLoop_stop hp]

theorem digitsLoop_mantissa {m p : Bytes} (h : Mantissa m)
    (hp : ∀ ch ∈ p.head?, isDigit ch = false ∧ ch ≠ chr '.') :
    ∃ dot, digitsLoop isDigit false false (m ++ p) = (m, true, dot, p) := by
  obtain ⟨int, frac, rfl, hdigits, ⟨rfl, hne⟩ | ⟨d, rfl, hd, hne⟩⟩ := h
  · refine ⟨false, ?_⟩
    rw [List.append_nil, digitsLoop_append hdigits, digitsLoop_stop hp]
    simp [hne]
  · refine ⟨true, ?_⟩
    have hmoved : (false || !int.isEmpty) = true ∨ d ≠ [] := by simpa using hne
    rw [List.append_assoc, List.cons_append, digitsLoop_append hdigits,
      digitsLoop_frac hd hp hmoved]

/-! ### Whole numerals -/

theorem takeSign_spec (p : Bytes) :
    p = (takeSign p).1 ++ (takeSign p).2 ∧ (takeSign p).1 ∈ [[], lit "+", lit "-"] := by
  cases p with
  | nil => exact ⟨rfl, by simp [takeSign]⟩
  | cons ch q =>
    rw [takeSign]
    split_ifs with h
    · refine ⟨rfl, ?_⟩
      show [ch] ∈ [[], lit "+", lit "-"]
      obtain rfl | rfl := h <;> decide
    · exact ⟨rfl, by simp⟩

theorem takeSign_append {sign p : Bytes} (hsign : sign ∈ [[], lit "+", lit "-"])
    (hp : ∀ ch ∈ p.head?, ch ≠ chr '+' ∧ ch ≠ chr '-') : takeSign (sign ++ p) = (sign, p) := by
  simp only [List.mem_cons, List.not_mem_nil, or_false] at hsign
  obtain rfl | rfl | rfl := hsign
  · cases p with
    | nil => rfl
    | cons ch p =>
      obtain ⟨hplus, hminus⟩ := hp ch rfl
      simp [takeSign, hplus, hminus]
  · rw [show lit "+" ++ p = chr '+' :: p from rfl, takeSign, if_pos (.inl rfl)]
    rfl
  · rw [show lit "-" ++ p = chr '-' :: p from rfl, takeSign, if_pos (.inr rfl)]
    rfl

theorem takeExponent_spec (p : Bytes) :
    p = (takeExponent p).1 ++ (takeExponent p).2 ∧ Exponent (takeExponent p).1 := by
  cases p with
  | nil => exact ⟨rfl, .inl rfl⟩
  | cons ch q =>
    obtain ⟨hq, hsign⟩ := takeSign_spec q
    rw [takeExponent]
    split_ifs with he
    · cases hat : atDigit (takeSign q).2 with
      | false =>
        simp only [hat, Bool.false_eq_true, if_false]
        exact ⟨rfl, .inl rfl⟩
      | true =>
        simp only [hat, if_true]
        refine ⟨?_, .inr ⟨ch, _, _, rfl, ?_, hsign, ?_, ?_⟩⟩
        · rw [List.cons_append, List.append_assoc, List.takeWhile_append_dropWhile, ← hq]
        · obtain rfl | rfl := he <;> decide
        · intro hnil
          cases hr : (takeSign q).2 with
          | nil => simp [atDigit, hr] at hat
          | cons d r =>
            have hd : isDigit d = true := by simpa [atDigit, hr] using hat
            simp [hr, hd] at hnil
        · exact List.all_eq_true.mp List.all_takeWhile
    · exact ⟨rfl, .inl rfl⟩

theorem takeExponent_append {e p : Bytes} (he : Exponent e) (hp : Stops p) :
    takeExponent (e ++ p) = (e, p) := by
  obtain rfl | ⟨ch, sign, d, rfl, hch, hsign, hne, hd⟩ := he
  · cases p with
    | nil => rfl
    | cons ch p =>
      obtain ⟨-, -, hch⟩ := hp ch rfl
      have hnot : ¬(ch = chr 'e' ∨ ch = chr 'E') := by
        rintro (rfl | rfl) <;> exact hch (by decide)
      simp [takeExponent, hnot]
  have he : ch = chr 'e' ∨ ch = chr 'E' := by simpa [lit] using hch
  obtain ⟨x, l, rfl⟩ := List.exists_cons_of_ne_nil hne
  have hx := hd x List.mem_cons_self
  have htake : takeSign (sign ++ (x :: l ++ p)) = (sign, x :: l ++ p) := by
    refine takeSign_append hsign fun y hy => ?_
    obtain rfl : x = y := Option.some.inj hy
    constructor <;> rintro rfl <;> exact absurd hx (by decide)
  have hat : atDigit (x :: l ++ p) = true := hx
  have hstop : ∀ ch ∈ p.head?, isDigit ch = false := fun ch h => (hp ch h).1
  have hloop : (x :: l ++ p).takeWhile isDigit = x :: l ∧ (x :: l ++ p).dropWhile isDigit = p := by
    rw [List.takeWhile_append_of_pos hd, List.dropWhile_append_of_pos hd]
    cases p with
    | nil => simp
    | cons y p => simp [hstop y rfl]
  rw [List.cons_append, List.append_assoc, takeExponent, if_pos he]
  simp only [htake, hat, if_true, hloop.1, hloop.2]

theorem njsAtod_spec {p text r : Bytes} (h : njsAtod p = some (text, r))
    (hp : ∀ ch ∈ p.head?, ch ≠ chr 'I') : p = text ++ r ∧ LaxNumber text := by
  obtain ⟨hsplit, hsign⟩ := takeSign_spec p
  obtain ⟨sign, q, hq⟩ : ∃ sign q, takeSign p = (sign, q) := ⟨_, _, rfl⟩
  rw [hq] at hsplit hsign
  simp only [njsAtod, hq] at h
  by_cases hinf : lit "Infinity" <+: q
  · obtain ⟨l, rfl⟩ := hinf
    simp only [List.prefix_append, if_true, List.drop_left, Option.some.injEq, Prod.mk.injEq] at h
    obtain ⟨rfl, rfl⟩ := h
    refine ⟨by rw [List.append_assoc]; exact hsplit, sign, _, rfl, hsign, .inl ⟨?_, rfl⟩⟩
    rintro rfl
    rw [hsplit] at hp
    exact hp (chr 'I') rfl rfl
  obtain ⟨zeros, moved, dot, q₁, hzeros⟩ : ∃ zeros moved dot q₁,
      digitsLoop (· = chr '0') false false q = (zeros, moved, dot, q₁) := ⟨_, _, _, _, rfl⟩
  obtain ⟨digits, moved', dot', q₂, hdigits⟩ : ∃ digits moved' dot' q₂,
      digitsLoop isDigit moved dot q₁ = (digits, moved', dot', q₂) := ⟨_, _, _, _, rfl⟩
  have hloop := digitsLoop_zeros false false q
  have hspec := digitsLoop_spec q
  simp only [hzeros, hdigits] at hloop
  rw [hloop] at hspec
  simp only [if_neg hinf, hzeros, hdigits] at h
  obtain ⟨he, hexp⟩ := takeExponent_spec q₂
  split_ifs at h with hmoved
  obtain ⟨htext, hmantissa⟩ := hspec hmoved
  simp only [Option.some.injEq, Prod.mk.injEq] at h
  obtain ⟨rfl, rfl⟩ := h
  refine ⟨?_, sign, _, ?_, hsign, .inr ⟨_, _, rfl, hmantissa, hexp⟩⟩
  · rw [List.append_assoc, ← he, hsplit, htext]
    simp only [List.append_assoc]
  · simp only [List.append_assoc]

theorem njsAtod_append {n p : Bytes} (h : LaxNumber n) (hp : Stops p) :
    njsAtod (n ++ p) = some (n, p) := by
  obtain ⟨sign, body, rfl, hsign, ⟨hne, rfl⟩ | ⟨m, e, rfl, hm, he⟩⟩ := h
  · have htake : takeSign (sign ++ (lit "Infinity" ++ p)) = (sign, lit "Infinity" ++ p) := by
      refine takeSign_append hsign fun ch hch => ?_
      obtain rfl : chr 'I' = ch := Option.some.inj hch
      decide
    rw [List.append_assoc, njsAtod, htake]
    simp only [List.prefix_append, if_true, List.drop_left]
  obtain ⟨x, l, hx, hhead⟩ := hm.exists_cons
  have hfirst : ∀ ch ∈ (m ++ (e ++ p)).head?, ch ≠ chr '+' ∧ ch ≠ chr '-' ∧ ch ≠ chr 'I' := by
    intro ch hch
    rw [hx] at hch
    obtain rfl : x = ch := Option.some.inj hch
    refine ⟨?_, ?_, ?_⟩ <;> rintro rfl <;> revert hhead <;> decide
  have htake : takeSign (sign ++ (m ++ (e ++ p))) = (sign, m ++ (e ++ p)) :=
    takeSign_append hsign fun ch hch => ⟨(hfirst ch hch).1, (hfirst ch hch).2.1⟩
  have hinf : ¬lit "Infinity" <+: m ++ (e ++ p) := by
    rintro ⟨q, hq⟩
    rw [← hq] at hfirst
    exact (hfirst (chr 'I') rfl).2.2 rfl
  have hstop : ∀ ch ∈ (e ++ p).head?, isDigit ch = false ∧ ch ≠ chr '.' := by
    obtain rfl | ⟨y, sign, d, rfl, hy, -⟩ := he
    · exact fun ch hch => ⟨(hp ch hch).1, (hp ch hch).2.1⟩
    · intro ch hch
      obtain rfl : y = ch := Option.some.inj hch
      exact forall_mem_of_all (l := lit "eE") (p := fun z => isDigit z = false ∧
        z ≠ chr '.') rfl y hy
  obtain ⟨dot, hloop⟩ := digitsLoop_mantissa hm hstop
  obtain ⟨zeros, moved, dot₁, q₁, hz⟩ : ∃ zeros moved dot₁ q₁,
      digitsLoop (· = chr '0') false false (m ++ (e ++ p)) = (zeros, moved, dot₁, q₁) :=
    ⟨_, _, _, _, rfl⟩
  obtain ⟨digits, moved', dot₂, q₂, hd⟩ : ∃ digits moved' dot₂ q₂,
      digitsLoop isDigit moved dot₁ q₁ = (digits, moved', dot₂, q₂) := ⟨_, _, _, _, rfl⟩
  have hzeros := digitsLoop_zeros false false (m ++ (e ++ p))
  simp only [hz, hd, hloop, Prod.mk.injEq] at hzeros
  obtain ⟨htext, rfl, -, rfl⟩ := hzeros
  rw [List.append_assoc, List.append_assoc, njsAtod, htake]
  simp only [if_neg hinf, hz, hd, if_true, takeExponent_append he hp]
  rw [List.append_assoc sign, ← htext, List.append_assoc]

theorem JsonNumber.lax {n : Bytes} (h : JsonNumber n) : LaxNumber n := by
  obtain ⟨sign, int, frac, exp, rfl, hsign, hint, hfrac, hexp⟩ := h
  have hsign' : sign ∈ [[], lit "+", lit "-"] := by
    simp only [List.mem_cons, List.not_mem_nil, or_false] at hsign ⊢
    tauto
  have hdigits : Digits int := by
    obtain rfl | hint := hint
    · exact ⟨by decide, Text.forall_mem_of_all rfl⟩
    · exact hint.1
  refine ⟨sign, _, rfl, hsign', .inr ⟨int ++ frac, exp, rfl, ⟨int, frac, rfl, hdigits.2, ?_⟩, hexp⟩⟩
  obtain rfl | ⟨d, rfl, hd⟩ := hfrac
  · exact .inl ⟨rfl, hdigits.1⟩
  · exact .inr ⟨d, rfl, hd.2, .inl hdigits.1⟩

end Njs.Json
