import Mathlib.Tactic.Linarith
import Njs.Sorting.Correct

/-!
# Sorted property keys

The elements of a slow array or of an object are found through its property keys: these are sorted,
the numbers first, and cut before the first one that is no number.
-/

namespace Njs.Indices

open Sorting

/-- A double that is a number. -/
inductive Number
  | finite (q : ℚ)
  | negZero
  | infinity
  | negInfinity
  deriving DecidableEq

/-- A property key. A key that `njs_string_to_index` takes for a number is given by the number. -/
inductive Key
  | number (x : Number)
  | text (s : List UInt8)
  deriving DecidableEq

def Key.index (n : ℕ) : Key := .number (.finite n)

/-- `njs_string_to_index`. There is no number for a NaN. -/
def njsStringToIndex : Key → Option Number
  | .number x => some x
  | .text _ => none

/-- The arithmetic of doubles, where it is not exact. -/
structure Doubles where
  round : ℚ → ℚ
  /-- What the cast to a 64-bit integer gives that cannot hold the double. -/
  overflow : ℤ
  round_mono : Monotone round
  round_exact : ∀ (m : ℤ) (e : ℕ), m.natAbs ≤ 2 ^ 53 → e ≤ 900 → round (m * 2 ^ e) = m * 2 ^ e

def exactDoubles : Doubles := ⟨id, -2 ^ 63, monotone_id, fun _ _ _ _ => rfl⟩

variable (D : Doubles)

def Number.value : Number → Option ℚ
  | .finite q => some q
  | .negZero => some 0
  | .infinity | .negInfinity => none

/-- `(int64_t) (num1 - num2)`. -/
def difference (x y : Number) : ℤ :=
  match x.value, y.value with
  | some p, some q =>
    let d := D.round (p - q)
    if -2 ^ 63 ≤ d ∧ d < 2 ^ 63 then d.num.tdiv d.den else D.overflow
  | _, _ => D.overflow

/-- `strncmp` on the common length. It stops at the first NUL. -/
def strncmp : List UInt8 → List UInt8 → ℤ
  | a :: s, b :: t =>
    if a.toNat = b.toNat then if a.toNat = 0 then 0 else strncmp s t
    else (a.toNat : ℤ) - b.toNat
  | _, _ => 0

def njsArrayIndicesHandler (val1 val2 : Key) : ℤ :=
  match val1, val2 with
  | .number num1, .number num2 =>
    let diff := difference D num1 num2
    if diff < 0 then -1 else if diff ≠ 0 then 1 else 0
  | .text _, .number _ => 1
  | .number _, .text _ => -1
  | .text str1, .text str2 =>
    let cmpRes := strncmp str1 str2
    if cmpRes = 0 then
      if str1.length < str2.length then -1
      else if str2.length < str1.length then 1
      else 0
    else cmpRes

/-- `njs_array_keys`, from the own keys in the order in which they are enumerated. -/
def njsArrayKeys (keys : List Key) : List Key :=
  match njsQsort (ε := Empty) (fun a b => .ok (njsArrayIndicesHandler D a b)) keys with
  | .ok keys => keys

def njsArrayIndices (keys : List Key) : List Key :=
  (njsArrayKeys D keys).takeWhile fun key => (njsStringToIndex key).isSome

/-! ### Order of texts -/

def TextLe (s t : List UInt8) : Prop := strncmp s t < 0 ∨ strncmp s t = 0 ∧ s.length ≤ t.length

theorem strncmp_swap (s t : List UInt8) : strncmp t s = -strncmp s t := by
  induction s generalizing t with
  | nil =>
    cases t <;> rfl
  | cons a s ih =>
    cases t with
    | nil => rfl
    | cons b t =>
      rw [strncmp, strncmp]
      by_cases hab : a.toNat = b.toNat
      · rw [if_pos hab, if_pos hab.symm, hab]
        split_ifs
        · rfl
        · exact ih t
      · rw [if_neg hab, if_neg fun h => hab h.symm]
        omega

theorem TextLe.trans {s t u : List UInt8} (hst : TextLe s t) (htu : TextLe t u) : TextLe s u := by
  induction s generalizing t u with
  | nil => exact .inr ⟨by cases u <;> rfl, Nat.zero_le _⟩
  | cons a s ih =>
    rw [TextLe] at hst htu ⊢
    match t, u with
    | [], _ => simp [strncmp] at hst
    | _ :: _, [] => simp [strncmp] at htu
    | b :: t, c :: u =>
      simp only [strncmp, List.length_cons] at hst htu ⊢
      by_cases hab : a.toNat = b.toNat
      · by_cases hbc : b.toNat = c.toNat
        · rw [if_pos hab] at hst
          rw [if_pos hbc] at htu
          rw [if_pos (hab.trans hbc)]
          by_cases hzero : a.toNat = 0
          · rw [if_pos hzero] at hst ⊢
            rw [if_pos (hab ▸ hzero)] at htu
            omega
          · rw [if_neg hzero] at hst ⊢
            rw [if_neg fun h => hzero (hab.trans h)] at htu
            have hrest := @ih t u (by rw [TextLe]; omega) (by rw [TextLe]; omega)
            rw [TextLe] at hrest
            omega
        · rw [if_neg hbc] at htu
          rw [if_neg fun h => hbc (hab.symm.trans h)]
          omega
      · rw [if_neg hab] at hst
        have hac : a.toNat ≠ c.toNat := by
          split_ifs at htu <;> omega
        rw [if_neg hac]
        split_ifs at htu <;> omega

/-! ### Integers -/

def Key.int (n : ℤ) : Key := .number (.finite n)

theorem int_natCast (n : ℕ) : Key.int n = .index n := by
  rw [Key.int, Key.index, Int.cast_natCast]

/-- The keys that are numbers are integers whose differences fit in 64 bits. -/
def Integral (keys : List Key) : Prop :=
  ∀ x, Key.number x ∈ keys → ∃ n : ℤ, n.natAbs ≤ 2 ^ 61 ∧ x = .finite n

def KeyLe : Key → Key → Prop
  | .number (.finite p), .number (.finite q) => p ≤ q
  | .number _, .number _ => True
  | .number _, .text _ => True
  | .text _, .number _ => False
  | .text s, .text t => TextLe s t

theorem round_natAbs (n : ℤ) (hn : n.natAbs ≤ 2 ^ 53) : D.round n = n := by
  have h := D.round_exact n 0 hn (Nat.zero_le _)
  rwa [pow_zero, mul_one] at h

theorem tdiv_pos {d : ℚ} (hd : 1 ≤ d) : 0 < d.num.tdiv d.den := by
  have hle : (d.den : ℤ) ≤ d.num := by
    have h := (Rat.le_iff 1 d).1 hd
    simpa using h
  have hden : (0 : ℤ) < d.den := Int.natCast_pos.2 d.den_pos
  rw [Int.tdiv_eq_ediv_of_nonneg (by omega)]
  exact Int.le_ediv_of_mul_le hden (by omega)

theorem difference_int {m n : ℤ} (hm : m.natAbs ≤ 2 ^ 61) (hn : n.natAbs ≤ 2 ^ 61) :
    (difference D (.finite m) (.finite n) < 0 ↔ m < n) ∧
      (0 < difference D (.finite m) (.finite n) ↔ n < m) := by
  have hcast : (m : ℚ) - n = ((m - n : ℤ) : ℚ) := (Int.cast_sub m n).symm
  have hlow : D.round (-2 ^ 62) = -2 ^ 62 := by
    have h := D.round_exact (-1) 62 (by decide) (by decide)
    rwa [Int.cast_neg, Int.cast_one, neg_one_mul] at h
  have hhigh : D.round (2 ^ 62) = 2 ^ 62 := by
    have h := D.round_exact 1 62 (by decide) (by decide)
    rwa [Int.cast_one, one_mul] at h
  have hrange : -2 ^ 62 ≤ D.round (m - n) ∧ D.round (m - n) ≤ 2 ^ 62 := by
    have hpow : (2 ^ 62 : ℚ) = ((2 ^ 62 : ℤ) : ℚ) := by norm_num
    rw [← hlow, ← hhigh, hcast]
    refine ⟨D.round_mono ?_, D.round_mono ?_⟩
    · rw [hhigh, hpow, ← Int.cast_neg, Int.cast_le]
      omega
    · rw [hpow, Int.cast_le]
      omega
  have hfits : -2 ^ 63 ≤ D.round (m - n) ∧ D.round (m - n) < 2 ^ 63 :=
    ⟨le_trans (by norm_num) hrange.1, lt_of_le_of_lt hrange.2 (by norm_num)⟩
  simp only [difference, Number.value]
  rw [if_pos hfits]
  rcases lt_trichotomy m n with hlt | heq | hgt
  · have hle : D.round (m - n) ≤ -1 := by
      have h := D.round_mono (show ((m - n : ℤ) : ℚ) ≤ ((-1 : ℤ) : ℚ) from
        Int.cast_le.2 (by omega))
      rw [round_natAbs D (-1) (by decide), ← hcast] at h
      simpa using h
    have hpos := tdiv_pos (d := -D.round (m - n)) (by linarith)
    rw [Rat.neg_num, Rat.neg_den, Int.neg_tdiv] at hpos
    omega
  · have hzero : D.round (m - n) = 0 := by
      rw [heq, sub_self]
      exact round_natAbs D 0 (by decide)
    rw [hzero]
    simp [heq]
  · have hle : 1 ≤ D.round (m - n) := by
      have h := D.round_mono (show ((1 : ℤ) : ℚ) ≤ ((m - n : ℤ) : ℚ) from Int.cast_le.2 (by omega))
      rw [round_natAbs D 1 (by decide), ← hcast] at h
      simpa using h
    have hpos := tdiv_pos hle
    omega

theorem handler_text (s t : List UInt8) :
    (njsArrayIndicesHandler D (.text s) (.text t) ≤ 0 ↔ TextLe s t) ∧
      (0 ≤ njsArrayIndicesHandler D (.text s) (.text t) ↔ TextLe t s) := by
  have hswap := strncmp_swap s t
  simp only [njsArrayIndicesHandler, TextLe]
  split_ifs <;> omega

theorem handler_int {m n : ℤ} (hm : m.natAbs ≤ 2 ^ 61) (hn : n.natAbs ≤ 2 ^ 61) :
    (njsArrayIndicesHandler D (.int m) (.int n) ≤ 0 ↔ m ≤ n) ∧
      (0 ≤ njsArrayIndicesHandler D (.int m) (.int n) ↔ n ≤ m) := by
  have h := difference_int D hm hn
  simp only [njsArrayIndicesHandler, Key.int]
  split_ifs <;> omega

variable {keys : List Key}

theorem Integral.cases (h : Integral keys) {a : Key} (ha : a ∈ keys) :
    (∃ n : ℤ, n.natAbs ≤ 2 ^ 61 ∧ a = .int n) ∨ ∃ s, a = .text s := by
  match a with
  | .number x =>
    obtain ⟨n, hn, rfl⟩ := h x ha
    exact .inl ⟨n, hn, rfl⟩
  | .text s => exact .inr ⟨s, rfl⟩

theorem keyLe_int (m n : ℤ) : KeyLe (.int m) (.int n) ↔ m ≤ n := Int.cast_le

theorem compares_njsArrayIndicesHandler (h : Integral keys) :
    Compares (ε := Empty) (fun a b => .ok (njsArrayIndicesHandler D a b)) KeyLe (· ∈ keys) := by
  have hanswer : ∀ a ∈ keys, ∀ b ∈ keys, (njsArrayIndicesHandler D a b ≤ 0 ↔ KeyLe a b) ∧
      (0 ≤ njsArrayIndicesHandler D a b ↔ KeyLe b a) := by
    intro a ha b hb
    rcases h.cases ha with ⟨m, hm, rfl⟩ | ⟨s, rfl⟩
    · rcases h.cases hb with ⟨n, hn, rfl⟩ | ⟨t, rfl⟩
      · rw [keyLe_int, keyLe_int]
        exact handler_int D hm hn
      · exact ⟨iff_of_true (show (-1 : ℤ) ≤ 0 by decide) trivial,
          iff_of_false (show ¬(0 : ℤ) ≤ -1 by decide) id⟩
    · rcases h.cases hb with ⟨n, hn, rfl⟩ | ⟨t, rfl⟩
      · exact ⟨iff_of_false (show ¬(1 : ℤ) ≤ 0 by decide) id,
          iff_of_true (show (0 : ℤ) ≤ 1 by decide) trivial⟩
      · exact handler_text D s t
  constructor
  · rintro a b _ ha hb ⟨⟩
    exact (hanswer a ha b hb).1.1
  · rintro a b _ ha hb ⟨⟩
    exact (hanswer a ha b hb).2.1
  · intro a b c ha hb hc hab hbc
    rcases h.cases ha with ⟨m, -, rfl⟩ | ⟨s, rfl⟩
    · rcases h.cases hc with ⟨k, -, rfl⟩ | ⟨u, rfl⟩
      · rcases h.cases hb with ⟨n, -, rfl⟩ | ⟨t, rfl⟩
        · rw [keyLe_int] at hab hbc ⊢
          omega
        · exact hbc.elim
      · trivial
    · rcases h.cases hb with ⟨n, -, rfl⟩ | ⟨t, rfl⟩
      · exact hab.elim
      · rcases h.cases hc with ⟨k, -, rfl⟩ | ⟨u, rfl⟩
        · exact hbc.elim
        · exact TextLe.trans hab hbc
  · intro a b ha hb
    have hab := hanswer a ha b hb
    rw [← hab.1, ← hab.2]
    omega

theorem takeWhile_eq_filter {α : Type} {p : α → Bool} {l : List α}
    (h : l.Pairwise fun a b => p b → p a) : l.takeWhile p = l.filter p := by
  induction l with
  | nil => rfl
  | cons a l ih =>
    obtain ⟨ha, hl⟩ := List.pairwise_cons.1 h
    by_cases hpa : p a
    · rw [List.takeWhile_cons_of_pos hpa, List.filter_cons_of_pos hpa, ih hl]
    · rw [List.takeWhile_cons_of_neg hpa, List.filter_cons_of_neg hpa, eq_comm,
        List.filter_eq_nil_iff]
      exact fun b hb hpb => hpa (ha b hb hpb)

theorem njsArrayKeys_sorts {le : Key → Key → Prop}
    (h : Compares (ε := Empty) (fun a b => .ok (njsArrayIndicesHandler D a b)) le (· ∈ keys)) :
    (njsArrayKeys D keys).Perm keys ∧ (njsArrayKeys D keys).Pairwise le := by
  have hsort := h.sorts
  rw [Sorts] at hsort
  rw [njsArrayKeys]
  rcases hresult : njsQsort (ε := Empty) (fun a b => .ok (njsArrayIndicesHandler D a b)) keys
    with e | l
  · exact e.elim
  · rw [hresult] at hsort
    exact hsort

def intOf : Key → ℤ
  | .number (.finite q) => q.num
  | _ => 0

theorem intOf_int (n : ℤ) : intOf (.int n) = n := Rat.num_intCast n

theorem int_injective {m n : ℤ} (h : Key.int m = Key.int n) : m = n := by
  rw [← intOf_int m, h, intOf_int]

theorem index_injective {m n : ℕ} (h : Key.index m = Key.index n) : m = n := by
  rw [← int_natCast, ← int_natCast] at h
  exact Int.ofNat_inj.1 (int_injective h)

theorem njsArrayIndices_integral (h : Integral keys) (hnodup : keys.Nodup) :
    ∃ ns : List ℤ, njsArrayIndices D keys = ns.map .int ∧ ns.Pairwise (· < ·) ∧
      ∀ n, n ∈ ns ↔ .int n ∈ keys := by
  obtain ⟨hperm, hsorted⟩ := njsArrayKeys_sorts D (compares_njsArrayIndicesHandler D h)
  have hfirst : (njsArrayKeys D keys).Pairwise fun a b =>
      (njsStringToIndex b).isSome → (njsStringToIndex a).isSome := by
    refine hsorted.imp fun {a b} hab hb => ?_
    match a, b with
    | .number _, _ => rfl
    | .text _, .number _ => exact hab.elim
    | .text _, .text _ => exact hb
  have hfilter := takeWhile_eq_filter hfirst
  have hint : ∀ a ∈ njsArrayIndices D keys, .int (intOf a) = a := by
    intro a ha
    rw [njsArrayIndices, hfilter, List.mem_filter] at ha
    rcases h.cases (hperm.subset ha.1) with ⟨n, -, rfl⟩ | ⟨s, rfl⟩
    · rw [intOf_int]
    · exact absurd ha.2 Bool.false_ne_true
  refine ⟨(njsArrayIndices D keys).map intOf, ?_, ?_, fun n => ?_⟩
  · rw [List.map_map]
    exact ((List.map_congr_left hint).trans (List.map_id _)).symm
  · rw [List.pairwise_map]
    have hboth : (njsArrayIndices D keys).Pairwise fun a b => KeyLe a b ∧ a ≠ b := by
      rw [njsArrayIndices, hfilter]
      exact (hsorted.and (hperm.nodup_iff.2 hnodup)).filter _
    refine hboth.imp_of_mem fun {a b} ha hb hab => ?_
    have hle := hab.1
    rw [← hint a ha, ← hint b hb, keyLe_int] at hle
    refine lt_of_le_of_ne hle fun heq => hab.2 ?_
    rw [← hint a ha, ← hint b hb, heq]
  rw [List.mem_map]
  constructor
  · rintro ⟨a, ha, rfl⟩
    rw [hint a ha]
    rw [njsArrayIndices, hfilter, List.mem_filter] at ha
    exact hperm.subset ha.1
  · intro hn
    refine ⟨.int n, ?_, intOf_int n⟩
    rw [njsArrayIndices, hfilter, List.mem_filter]
    exact ⟨hperm.symm.subset hn, rfl⟩

/-- The keys that are numbers are natural numbers whose differences fit in 64 bits. -/
def Natural (keys : List Key) : Prop :=
  ∀ x, Key.number x ∈ keys → ∃ n : ℕ, n ≤ 2 ^ 61 ∧ x = .finite n

theorem Natural.integral (h : Natural keys) : Integral keys := by
  intro x hx
  obtain ⟨n, hn, rfl⟩ := h x hx
  exact ⟨n, by omega, by rw [Int.cast_natCast]⟩

theorem Natural.nonneg (h : Natural keys) {n : ℤ} (hn : .int n ∈ keys) : 0 ≤ n := by
  obtain ⟨k, -, hk⟩ := h _ hn
  have heq : Key.int n = .int k := by
    rw [int_natCast, Key.index, ← hk]
    rfl
  rw [int_injective heq]
  exact Int.natCast_nonneg k

theorem njsArrayIndices_natural (h : Natural keys) (hnodup : keys.Nodup) :
    ∃ ns : List ℕ, njsArrayIndices D keys = ns.map .index ∧ ns.Pairwise (· < ·) ∧
      ∀ n, n ∈ ns ↔ .index n ∈ keys := by
  obtain ⟨ns, hindices, hsorted, hmem⟩ := njsArrayIndices_integral D h.integral hnodup
  have hnat : ∀ n ∈ ns, (n.toNat : ℤ) = n := fun n hn =>
    Int.toNat_of_nonneg (h.nonneg ((hmem n).1 hn))
  refine ⟨ns.map Int.toNat, ?_, ?_, fun n => ?_⟩
  · rw [hindices, List.map_map]
    refine List.map_congr_left fun n hn => ?_
    rw [Function.comp_apply, ← int_natCast, hnat n hn]
  · rw [List.pairwise_map]
    refine hsorted.imp_of_mem fun {m n} hm hn hmn => ?_
    have := hnat m hm
    have := hnat n hn
    omega
  · rw [← int_natCast, ← hmem, List.mem_map]
    constructor
    · rintro ⟨k, hk, rfl⟩
      rwa [hnat k hk]
    · exact fun hn => ⟨n, hn, Int.toNat_natCast n⟩

end Njs.Indices
