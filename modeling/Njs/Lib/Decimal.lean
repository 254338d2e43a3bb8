import Mathlib.Data.Nat.Digits.Lemmas
import Mathlib.Data.Rat.Floor

/-!
# Decimal numerals

The decimal digits of a natural number in the order in which they are written, with at least one
digit, and decimal numerals with a sign and a fraction: their text in ASCII and the rational
number that they stand for.
-/

namespace Decimal

/-- The decimal digits of a number, the most significant first; zero has one digit. -/
def digits (n : ℕ) : List ℕ :=
  if n = 0 then [0] else (Nat.digits 10 n).reverse

def ofDigits (l : List ℕ) : ℕ := Nat.ofDigits 10 l.reverse

/-- The digits of a number after as many zeros as make `w` digits of them. -/
def padded (w n : ℕ) : List ℕ :=
  List.replicate (w - (digits n).length) 0 ++ digits n

theorem digits_of_lt {n : ℕ} (h : n < 10) : digits n = [n] := by
  rw [digits]
  split
  · next hn => rw [hn]
  · next hn => rw [Nat.digits_of_lt 10 n hn h, List.reverse_singleton]

theorem digits_of_le {n : ℕ} (h : 10 ≤ n) : digits n = digits (n / 10) ++ [n % 10] := by
  have hdiv : n / 10 ≠ 0 := by omega
  rw [digits, digits, if_neg hdiv, if_neg (by omega), Nat.digits_def' (by omega) (by omega),
    List.reverse_cons]

theorem digits_ne_nil (n : ℕ) : digits n ≠ [] := by
  rw [digits]
  split
  · exact List.cons_ne_nil _ _
  · next hn => simpa using Nat.digits_ne_nil_iff_ne_zero.mpr hn

theorem lt_of_mem_digits {n d : ℕ} (h : d ∈ digits n) : d < 10 := by
  rw [digits] at h
  split at h
  · simp at h
    omega
  · exact Nat.digits_lt_base (by omega) (List.mem_reverse.mp h)

@[simp] theorem ofDigits_nil : ofDigits [] = 0 := rfl

theorem ofDigits_append (l m : List ℕ) :
    ofDigits (l ++ m) = ofDigits l * 10 ^ m.length + ofDigits m := by
  rw [ofDigits, ofDigits, ofDigits, List.reverse_append, Nat.ofDigits_append, List.length_reverse]
  ring

theorem ofDigits_lt {l : List ℕ} (h : ∀ d ∈ l, d < 10) : ofDigits l < 10 ^ l.length := by
  have := Nat.ofDigits_lt_base_pow_length (b := 10) (l := l.reverse) (by omega) (by simpa using h)
  rwa [List.length_reverse] at this

@[simp] theorem ofDigits_digits (n : ℕ) : ofDigits (digits n) = n := by
  rw [digits, ofDigits]
  split
  · next hn => simp [hn]
  · rw [List.reverse_reverse, Nat.ofDigits_digits]

theorem length_digits_le_iff {n k : ℕ} (hk : 0 < k) : (digits n).length ≤ k ↔ n < 10 ^ k := by
  rw [digits]
  split
  · next hn =>
    rw [hn, List.length_singleton]
    exact iff_of_true hk (by positivity)
  · rw [List.length_reverse, Nat.digits_length_le_iff (by omega)]

theorem length_digits_pos (n : ℕ) : 0 < (digits n).length :=
  List.length_pos_iff.mpr (digits_ne_nil n)

theorem ofDigits_take {l : List ℕ} (h : ∀ d ∈ l, d < 10) (k : ℕ) :
    ofDigits (l.take k) = ofDigits l / 10 ^ (l.length - k) := by
  have hdrop : ofDigits (l.drop k) < 10 ^ (l.length - k) := by
    rw [← List.length_drop]
    exact ofDigits_lt fun d hd => h d (List.mem_of_mem_drop hd)
  have hl : ofDigits l = ofDigits (l.take k) * 10 ^ (l.length - k) + ofDigits (l.drop k) := by
    rw [← List.length_drop, ← ofDigits_append, List.take_append_drop]
  rw [hl, mul_comm, Nat.mul_add_div (by positivity), Nat.div_eq_of_lt hdrop, Nat.add_zero]

theorem ofDigits_replicate_zero (k : ℕ) : ofDigits (List.replicate k 0) = 0 := by
  rw [ofDigits, List.reverse_replicate, Nat.ofDigits_replicate_zero]

@[simp] theorem ofDigits_padded (w n : ℕ) : ofDigits (padded w n) = n := by
  rw [padded, ofDigits_append, ofDigits_replicate_zero, ofDigits_digits, Nat.zero_mul, Nat.zero_add]

theorem length_padded {w n : ℕ} (hw : 0 < w) (h : n < 10 ^ w) : (padded w n).length = w := by
  have := (length_digits_le_iff hw).mpr h
  rw [padded, List.length_append, List.length_replicate]
  omega

theorem lt_of_mem_padded {w n d : ℕ} (h : d ∈ padded w n) : d < 10 := by
  rw [padded, List.mem_append] at h
  obtain h | h := h
  · rw [List.eq_of_mem_replicate h]
    omega
  · exact lt_of_mem_digits h

/-! ### Numerals -/

def digitChar (d : ℕ) : UInt8 := UInt8.ofNat (48 + d)

/-- A decimal numeral: a sign, digits, and after the point, if there is one, more digits. -/
structure Numeral where
  neg : Bool
  int : List ℕ
  frac : Option (List ℕ)
  int_ne : int ≠ []
  int_lt : ∀ d ∈ int, d < 10
  frac_lt : ∀ l ∈ frac, ∀ d ∈ l, d < 10

namespace Numeral

def fracText : Option (List ℕ) → List UInt8
  | none => []
  | some l => 46 :: l.map digitChar

def text (n : Numeral) : List UInt8 :=
  (if n.neg then [45] else []) ++ (n.int.map digitChar ++ fracText n.frac)

/-- The number without its sign. -/
def magnitude (n : Numeral) : ℚ :=
  ofDigits n.int + ofDigits (n.frac.getD []) / 10 ^ (n.frac.getD []).length

def value (n : Numeral) : ℚ :=
  if n.neg then -n.magnitude else n.magnitude

@[simps] def ofNat (n : ℕ) : Numeral where
  neg := false
  int := digits n
  frac := none
  int_ne := digits_ne_nil n
  int_lt _ := lt_of_mem_digits
  frac_lt := by simp

theorem text_ofNat (n : ℕ) : (ofNat n).text = (digits n).map digitChar := by
  simp [text, fracText]

@[simp] theorem value_ofNat (n : ℕ) : (ofNat n).value = n := by
  simp [value, magnitude]

end Numeral

/-! ### Reading a numeral -/

def isDigitChar (b : UInt8) : Bool := 48 ≤ b && b ≤ 57

/-- The digits at the beginning of a text, and the rest of it. -/
def readDigits (p : List UInt8) : List ℕ × List UInt8 :=
  ((p.takeWhile isDigitChar).map fun b => b.toNat - 48, p.dropWhile isDigitChar)

/-- The value of the unsigned numeral at the beginning of a text, and the rest of the text. -/
def readMagnitude (p : List UInt8) : Option (ℚ × List UInt8) :=
  match readDigits p with
  | ([], _) => none
  | (int, p) =>
    if p.head? = some 46 then
      let (frac, p) := readDigits p.tail
      some (ofDigits int + ofDigits frac / 10 ^ frac.length, p)
    else some (ofDigits int, p)

/-- The value of the numeral at the beginning of a text, and the rest of the text. -/
def readNumeral (p : List UInt8) : Option (ℚ × List UInt8) :=
  if p.head? = some 45 then (readMagnitude p.tail).map fun (x, p) => (-x, p)
  else readMagnitude p

theorem digitChar_spec : ∀ d < 10, isDigitChar (digitChar d) = true ∧
    (digitChar d).toNat - 48 = d ∧ digitChar d ≠ 45 ∧ digitChar d ≠ 46 := by
  decide

theorem readDigits_append {l : List ℕ} (h : ∀ d ∈ l, d < 10) {p : List UInt8}
    (hp : ∀ b ∈ p.head?, isDigitChar b = false) :
    readDigits (l.map digitChar ++ p) = (l, p) := by
  have hall : ∀ b ∈ l.map digitChar, isDigitChar b = true := by
    intro b hb
    obtain ⟨d, hd, rfl⟩ := List.mem_map.mp hb
    exact (digitChar_spec d (h d hd)).1
  have hnot : p.takeWhile isDigitChar = [] ∧ p.dropWhile isDigitChar = p := by
    cases p with
    | nil => exact ⟨rfl, rfl⟩
    | cons b p => simp [hp b rfl]
  have hmap : (l.map digitChar).map (fun b => b.toNat - 48) = l := by
    rw [List.map_map]
    refine (List.map_congr_left fun d hd => ?_).trans (List.map_id l)
    exact (digitChar_spec d (h d hd)).2.1
  rw [readDigits, List.takeWhile_append_of_pos hall, List.dropWhile_append_of_pos hall, hnot.1,
    hnot.2, List.append_nil, hmap]

theorem readMagnitude_append (n : Numeral) {p : List UInt8}
    (hp : ∀ b ∈ p.head?, isDigitChar b = false ∧ b ≠ 46) :
    readMagnitude (n.int.map digitChar ++ Numeral.fracText n.frac ++ p) =
      some (n.magnitude, p) := by
  obtain ⟨d, l, hint⟩ := List.exists_cons_of_ne_nil n.int_ne
  cases hfrac : n.frac with
  | none =>
    have hread := readDigits_append n.int_lt fun b hb => (hp b hb).1
    rw [hint] at hread
    have hdot : p.head? ≠ some 46 := fun h => (hp 46 h).2 rfl
    rw [Numeral.fracText, List.append_nil, readMagnitude, hint, hread]
    simp only [if_neg hdot]
    simp [Numeral.magnitude, hint, hfrac]
  | some m =>
    have hread := readDigits_append n.int_lt (p := 46 :: (m.map digitChar ++ p)) (by simp; decide)
    have hread' := readDigits_append (n.frac_lt m hfrac) fun b hb => (hp b hb).1
    rw [hint] at hread
    rw [Numeral.fracText, List.append_assoc, List.cons_append, readMagnitude, hint, hread]
    simp only [List.head?_cons, if_true, List.tail_cons, hread']
    simp [Numeral.magnitude, hint, hfrac]

theorem readNumeral_text (n : Numeral) {p : List UInt8}
    (hp : ∀ b ∈ p.head?, isDigitChar b = false ∧ b ≠ 46) :
    readNumeral (n.text ++ p) = some (n.value, p) := by
  have hread := readMagnitude_append n hp
  obtain ⟨d, l, hint⟩ := List.exists_cons_of_ne_nil n.int_ne
  rw [Numeral.text, Numeral.value, readNumeral]
  by_cases hneg : n.neg = true
  · rw [if_pos hneg, if_pos hneg]
    simp only [List.cons_append, List.nil_append, List.head?_cons, if_true, List.tail_cons, hread,
      Option.map_some]
  · have hne : digitChar d ≠ 45 :=
      (digitChar_spec d (n.int_lt d (by rw [hint]; exact List.mem_cons_self))).2.2.1
    have hhead : (n.int.map digitChar ++ Numeral.fracText n.frac ++ p).head? ≠ some 45 := by
      simpa [hint] using hne
    rw [if_neg hneg, if_neg hneg, List.nil_append, if_neg hhead, hread]

theorem readMagnitude_lt {p q : List UInt8} {x : ℚ} (h : readMagnitude p = some (x, q)) :
    q.length < p.length := by
  have hdrop : ∀ p : List UInt8, (p.dropWhile isDigitChar).length ≤ p.length := fun p =>
    (List.dropWhile_suffix _).length_le
  rw [readMagnitude] at h
  split at h
  · simp at h
  next int rest hne hread =>
  have hrest : rest = p.dropWhile isDigitChar := (congrArg Prod.snd hread).symm
  have hlt : rest.length < p.length := by
    have hint : int ≠ [] := hne
    have hlen := congrArg List.length (List.takeWhile_append_dropWhile (p := isDigitChar) (l :=
      p))
    have htake : (p.takeWhile isDigitChar).length = int.length := by
      simpa [readDigits] using congrArg (fun r => r.1.length) hread
    have hpos := List.length_pos_iff.mpr hint
    rw [List.length_append] at hlen
    rw [hrest]
    omega
  split at h
  · simp only [readDigits, Option.some.injEq, Prod.mk.injEq] at h
    rw [← h.2]
    refine lt_of_le_of_lt ((hdrop _).trans ?_) hlt
    simp
  · simp only [Option.some.injEq, Prod.mk.injEq] at h
    rwa [← h.2]

theorem readNumeral_lt {p q : List UInt8} {x : ℚ} (h : readNumeral p = some (x, q)) :
    q.length < p.length := by
  rw [readNumeral] at h
  split at h
  · obtain ⟨⟨y, r⟩, hr, heq⟩ := Option.map_eq_some_iff.mp h
    have hrq : r = q := congrArg Prod.snd heq
    rw [← hrq]
    exact (readMagnitude_lt hr).trans_le (by simp)
  · exact readMagnitude_lt h

end Decimal
