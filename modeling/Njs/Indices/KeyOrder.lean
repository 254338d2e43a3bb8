import Njs.Indices.Keys

/-!
# The order of property keys

Numbers are compared through their difference, which is cast to an integer, and texts through what
is before their first NUL and their lengths.
-/

namespace Njs.Indices

open Sorting

variable (D : Doubles)

def njsArrayIndicesHandlerNums (val1 val2 : Key) : ℤ :=
  match val1, val2 with
  | .number num1, .number num2 =>
    let diff := difference D num1 num2
    if diff < 0 then -1 else if diff ≠ 0 then 1 else 0
  | .text _, .number _ => 1
  | .number _, .text _ => -1
  | .text _, .text _ => 0

def Number.place : Number → WithBot (WithTop ℚ)
  | .finite q => ((q : WithTop ℚ) : WithBot (WithTop ℚ))
  | .negZero => ((0 : WithTop ℚ) : WithBot (WithTop ℚ))
  | .infinity => ((⊤ : WithTop ℚ) : WithBot (WithTop ℚ))
  | .negInfinity => ⊥

/-- A comparison has some keys in a total order, in which the numbers come first and increase. -/
structure Ordered (handler : Key → Key → ℤ) (keys : List Key) : Prop where
  swap : ∀ a ∈ keys, ∀ b ∈ keys, (handler a b < 0 ↔ 0 < handler b a)
  trans : ∀ a ∈ keys, ∀ b ∈ keys, ∀ c ∈ keys, handler a b ≤ 0 → handler b c ≤ 0 → handler a c ≤ 0
  first : ∀ x s, .number x ∈ keys → .text s ∈ keys → handler (.number x) (.text s) < 0
  increasing : ∀ x y, .number x ∈ keys → .number y ∈ keys → x.place < y.place →
    handler (.number x) (.number y) < 0

/-- Some keys are in one order, however they are listed. -/
structure WellOrdered (keys : List Key) : Prop where
  handler : Ordered (njsArrayIndicesHandler D) keys
  nums : Ordered (njsArrayIndicesHandlerNums D) keys
  sameKeys : ∀ keys', keys'.Perm keys → njsArrayKeys D keys' = njsArrayKeys D keys
  sameIndices : ∀ keys', keys'.Perm keys → njsArrayIndices D keys' = njsArrayIndices D keys

/-- The numbers are finite, and the difference of any two of them is at least 1 and fits in 64 bits.
Zero is there with one sign only. Texts that are as long differ before a NUL. -/
structure Separated (keys : List Key) : Prop where
  finite : ∀ x, .number x ∈ keys → x.value ≠ none
  apart : ∀ x y p q, .number x ∈ keys → .number y ∈ keys → x.value = some p → y.value = some q →
    p < q → 1 ≤ D.round (q - p) ∧ D.round (q - p) < 2 ^ 63
  zeros : ¬(.number .negZero ∈ keys ∧ .index 0 ∈ keys)
  texts : ∀ s t, .text s ∈ keys → .text t ∈ keys → strncmp s t = 0 → s.length = t.length → s = t

variable {D} {keys : List Key}

/-! ### Numbers -/

variable {x y : Number} {p : ℚ}

theorem place_of_value (h : x.value = some p) :
    x.place = ((p : WithTop ℚ) : WithBot (WithTop ℚ)) := by
  cases x <;> cases h <;> rfl

theorem place_le_place {q : ℚ} (hx : x.value = some p) (hy : y.value = some q) :
    x.place ≤ y.place ↔ p ≤ q := by
  rw [place_of_value hx, place_of_value hy, WithBot.coe_le_coe, WithTop.coe_le_coe]

theorem tdiv_pos_iff (d : ℚ) : 0 < d.num.tdiv d.den ↔ 1 ≤ d := by
  refine ⟨fun h => ?_, tdiv_pos⟩
  by_contra hlt
  have hnum : d.num < d.den := by
    have hlt' := (Rat.lt_iff d 1).1 (not_le.1 hlt)
    simpa using hlt'
  have hden : (0 : ℤ) < d.den := Int.natCast_pos.2 d.den_pos
  by_cases hneg : 0 ≤ d.num
  · rw [Int.tdiv_eq_ediv_of_nonneg hneg, Int.ediv_eq_zero_of_lt hneg hnum] at h
    exact lt_irrefl _ h
  · have hle := Int.tdiv_nonneg (a := -d.num) (by omega) (Int.le_of_lt hden)
    rw [Int.neg_tdiv] at hle
    omega

theorem difference_pos_iff (hoverflow : D.overflow = -2 ^ 63) {q : ℚ} (hx : x.value = some p)
    (hy : y.value = some q) :
    0 < difference D y x ↔ 1 ≤ D.round (q - p) ∧ D.round (q - p) < 2 ^ 63 := by
  rw [difference, hx, hy]
  dsimp only
  split_ifs with hfits
  · rw [tdiv_pos_iff]
    exact ⟨fun h => ⟨h, hfits.2⟩, fun h => h.1⟩
  · rw [hoverflow]
    refine iff_of_false (by decide) fun h => hfits ⟨le_trans (by norm_num) h.1, h.2⟩

theorem difference_neg (hoverflow : D.overflow = -2 ^ 63)
    (hround : ∀ q, D.round (-q) = -D.round q) {q : ℚ} (hx : x.value = some p)
    (hy : y.value = some q) (h : 1 ≤ D.round (q - p)) : difference D x y < 0 := by
  have hsign : D.round (p - q) = -D.round (q - p) := by rw [← hround, neg_sub]
  rw [difference, hx, hy]
  dsimp only
  rw [hsign]
  split_ifs
  · have hpos := tdiv_pos h
    rw [Rat.neg_num, Rat.neg_den, Int.neg_tdiv]
    omega
  · rw [hoverflow]
    decide

theorem difference_self (hx : x.value = some p) (hy : y.value = some p) : difference D x y = 0 := by
  rw [difference, hx, hy]
  have hzero : D.round 0 = 0 := by
    have h := round_natAbs D 0 (by decide)
    rwa [Int.cast_zero] at h
  dsimp only
  rw [sub_self, hzero]
  norm_num

theorem difference_infinite (hoverflow : D.overflow = -2 ^ 63) (hx : x.value = none) :
    difference D x x = -2 ^ 63 := by
  rw [difference, hx, hoverflow]

theorem difference_congr {x' : Number} (h : x.value = x'.value) (y : Number) :
    difference D x y = difference D x' y ∧ difference D y x = difference D y x' := by
  constructor
  · rw [difference, difference, h]
  · rw [difference, difference, h]

/-! ### Orders of keys -/

/-- The order of keys, with some order of texts. -/
def Below (T : List UInt8 → List UInt8 → Prop) : Key → Key → Prop
  | .number x, .number y => x.place ≤ y.place
  | .number _, .text _ => True
  | .text _, .number _ => False
  | .text s, .text t => T s t

def Says (handler : Key → Key → ℤ) (T : List UInt8 → List UInt8 → Prop) (keys : List Key) : Prop :=
  ∀ a ∈ keys, ∀ b ∈ keys, (handler a b ≤ 0 ↔ Below T a b) ∧ (0 ≤ handler a b ↔ Below T b a)

variable {handler : Key → Key → ℤ} {T : List UInt8 → List UInt8 → Prop}

theorem Below.trans (htrans : ∀ s t u, T s t → T t u → T s u) {a b c : Key} (hab : Below T a b)
    (hbc : Below T b c) : Below T a c := by
  obtain x | s := a <;> obtain z | u := c
  · obtain y | t := b
    · exact le_trans hab hbc
    · exact hbc.elim
  · trivial
  · obtain y | t := b
    · exact hab.elim
    · exact hbc.elim
  · obtain y | t := b
    · exact hab.elim
    · exact htrans s t u hab hbc

theorem Says.ordered (horder : Says handler T keys) (htrans : ∀ s t u, T s t → T t u → T s u) :
    Ordered handler keys where
  swap a ha b hb := by
    rw [← not_le, ← not_le, (horder a ha b hb).2, (horder b hb a ha).1]
  trans a ha b hb c hc := by
    rw [(horder a ha b hb).1, (horder b hb c hc).1, (horder a ha c hc).1]
    exact Below.trans htrans
  first x s hx hs := by
    rw [← not_le, (horder _ hx _ hs).2]
    exact id
  increasing x y hx hy hlt := by
    rw [← not_le, (horder _ hx _ hy).2]
    exact not_le.2 hlt

theorem Ordered.compares (h : Ordered handler keys) :
    Compares (ε := Empty) (fun a b => .ok (handler a b)) (fun a b => handler a b ≤ 0)
      (· ∈ keys) where
  le_of_nonpos := by
    rintro a b _ - - ⟨⟩
    exact id
  ge_of_nonneg := by
    rintro a b _ ha hb ⟨⟩ hge
    rwa [← not_lt, h.swap a ha b hb, not_lt] at hge
  trans ha hb hc := h.trans _ ha _ hb _ hc
  total {a b} ha hb := by
    have hab := h.swap a ha b hb
    omega

/-! ### Separated keys -/

theorem handler_number (x y : Number) :
    (njsArrayIndicesHandler D (.number x) (.number y) ≤ 0 ↔ difference D x y ≤ 0) ∧
      (0 ≤ njsArrayIndicesHandler D (.number x) (.number y) ↔ 0 ≤ difference D x y) := by
  simp only [njsArrayIndicesHandler]
  split_ifs <;> omega

section Separated

variable (hoverflow : D.overflow = -2 ^ 63) (hround : ∀ q, D.round (-q) = -D.round q)

include hoverflow hround

theorem Separated.handler_number (hkeys : Separated D keys) {x y : Number}
    (hx : .number x ∈ keys) (hy : .number y ∈ keys) :
    (njsArrayIndicesHandler D (.number x) (.number y) ≤ 0 ↔ x.place ≤ y.place) ∧
      (0 ≤ njsArrayIndicesHandler D (.number x) (.number y) ↔ y.place ≤ x.place) := by
  obtain ⟨p, hp⟩ := Option.ne_none_iff_exists'.1 (hkeys.finite x hx)
  obtain ⟨q, hq⟩ := Option.ne_none_iff_exists'.1 (hkeys.finite y hy)
  have h := Indices.handler_number (D := D) x y
  rw [h.1, h.2, place_le_place hp hq, place_le_place hq hp]
  obtain hlt | rfl | hgt := lt_trichotomy p q
  · have hapart := hkeys.apart x y p q hx hy hp hq hlt
    have hneg := difference_neg hoverflow hround hp hq hapart.1
    exact ⟨iff_of_true (Int.le_of_lt hneg) hlt.le, iff_of_false (by omega) hlt.not_ge⟩
  · rw [difference_self hp hq]
    exact ⟨iff_of_true (Int.le_refl 0) le_rfl, iff_of_true (Int.le_refl 0) le_rfl⟩
  · have hapart := hkeys.apart y x q p hy hx hq hp hgt
    have hpos := (difference_pos_iff hoverflow hq hp).2 hapart
    exact ⟨iff_of_false (by omega) hgt.not_ge, iff_of_true (by omega) hgt.le⟩

theorem Separated.saysHandler (hkeys : Separated D keys) :
    Says (njsArrayIndicesHandler D) TextLe keys := by
  rintro (x | s) ha (y | t) hb
  · exact hkeys.handler_number hoverflow hround ha hb
  · exact ⟨iff_of_true (show (-1 : ℤ) ≤ 0 by decide) trivial,
      iff_of_false (show ¬(0 : ℤ) ≤ -1 by decide) id⟩
  · exact ⟨iff_of_false (show ¬(1 : ℤ) ≤ 0 by decide) id,
      iff_of_true (show (0 : ℤ) ≤ 1 by decide) trivial⟩
  · exact handler_text D s t

theorem Separated.saysNums (hkeys : Separated D keys) :
    Says (njsArrayIndicesHandlerNums D) (fun _ _ => True) keys := by
  rintro (x | s) ha (y | t) hb
  · exact hkeys.handler_number hoverflow hround ha hb
  · exact ⟨iff_of_true (show (-1 : ℤ) ≤ 0 by decide) trivial,
      iff_of_false (show ¬(0 : ℤ) ≤ -1 by decide) id⟩
  · exact ⟨iff_of_false (show ¬(1 : ℤ) ≤ 0 by decide) id,
      iff_of_true (show (0 : ℤ) ≤ 1 by decide) trivial⟩
  · exact ⟨iff_of_true (Int.le_refl 0) trivial, iff_of_true (Int.le_refl 0) trivial⟩

end Separated

theorem Separated.number_eq (hkeys : Separated D keys) (hx : .number x ∈ keys)
    (hy : .number y ∈ keys) (hplace : x.place = y.place) : x = y := by
  obtain ⟨p, hp⟩ := Option.ne_none_iff_exists'.1 (hkeys.finite x hx)
  obtain ⟨q, hq⟩ := Option.ne_none_iff_exists'.1 (hkeys.finite y hy)
  have hpq : p = q := by
    rw [place_of_value hp, place_of_value hq, WithBot.coe_inj, WithTop.coe_inj] at hplace
    exact hplace
  subst hpq
  obtain p | _ | _ | _ := x <;> obtain q | _ | _ | _ := y <;> cases hp <;> cases hq
  · rfl
  · exact absurd ⟨hy, hx⟩ hkeys.zeros
  · exact absurd ⟨hx, hy⟩ hkeys.zeros
  · rfl

theorem Separated.antisymm (hkeys : Separated D keys) {a b : Key} (ha : a ∈ keys) (hb : b ∈ keys)
    (hab : Below TextLe a b) (hba : Below TextLe b a) : a = b := by
  obtain x | s := a <;> obtain y | t := b
  · rw [hkeys.number_eq ha hb (le_antisymm hab hba)]
  · exact hba.elim
  · exact hab.elim
  · have hswap := strncmp_swap s t
    rw [Below, TextLe] at hab hba
    rw [hkeys.texts s t ha hb (by omega) (by omega)]

theorem Separated.njsArrayKeys_eq (hoverflow : D.overflow = -2 ^ 63)
    (hround : ∀ q, D.round (-q) = -D.round q) (hkeys : Separated D keys) {keys' : List Key}
    (hperm : keys'.Perm keys) : njsArrayKeys D keys' = njsArrayKeys D keys := by
  have horder := hkeys.saysHandler hoverflow hround
  have hsorted := njsArrayKeys_sorts D (horder.ordered fun _ _ _ => TextLe.trans).compares
  have horder' : Says (njsArrayIndicesHandler D) TextLe keys' :=
    fun a ha b hb => horder a (hperm.subset ha) b (hperm.subset hb)
  have hsorted' := njsArrayKeys_sorts D (horder'.ordered fun _ _ _ => TextLe.trans).compares
  refine List.Perm.eq_of_pairwise (fun a b ha hb hab hba => ?_) hsorted'.2 hsorted.2
    (hsorted'.1.trans (hperm.trans hsorted.1.symm))
  have ha := hperm.subset (hsorted'.1.subset ha)
  have hb := hsorted.1.subset hb
  exact hkeys.antisymm ha hb ((horder a ha b hb).1.1 hab) ((horder b hb a ha).1.1 hba)

theorem Separated.wellOrdered (hoverflow : D.overflow = -2 ^ 63)
    (hround : ∀ q, D.round (-q) = -D.round q) (hkeys : Separated D keys) : WellOrdered D keys where
  handler := (hkeys.saysHandler hoverflow hround).ordered fun _ _ _ => TextLe.trans
  nums := (hkeys.saysNums hoverflow hround).ordered fun _ _ _ _ _ => trivial
  sameKeys _ hperm := hkeys.njsArrayKeys_eq hoverflow hround hperm
  sameIndices _ hperm := by
    rw [njsArrayIndices, njsArrayIndices, hkeys.njsArrayKeys_eq hoverflow hround hperm]

/-! ### Keys that are well ordered -/

theorem njsArrayKeys_map {f : Key → Key}
    (hf : ∀ a b, njsArrayIndicesHandler D (f a) (f b) = njsArrayIndicesHandler D a b)
    (keys : List Key) : njsArrayKeys D (keys.map f) = (njsArrayKeys D keys).map f := by
  rw [njsArrayKeys, njsArrayKeys, njsQsort_map]
  simp only [hf]
  rcases njsQsort (ε := Empty) (fun a b => .ok (njsArrayIndicesHandler D a b)) keys with e | l
  · exact e.elim
  · rfl

theorem WellOrdered.eq_of_alike (h : WellOrdered D keys) (hnodup : keys.Nodup) {a b : Key}
    (ha : a ∈ keys) (hb : b ∈ keys)
    (hleft : ∀ c, njsArrayIndicesHandler D a c = njsArrayIndicesHandler D b c)
    (hright : ∀ c, njsArrayIndicesHandler D c a = njsArrayIndicesHandler D c b) : a = b := by
  have hone (c d : Key) : njsArrayIndicesHandler D (Equiv.swap a b c) d =
      njsArrayIndicesHandler D c d := by
    rw [Equiv.swap_apply_def]
    split_ifs with hca hcb
    · rw [hca, hleft]
    · rw [hcb, hleft]
    · rfl
  have hboth (c d : Key) : njsArrayIndicesHandler D (Equiv.swap a b c) (Equiv.swap a b d) =
      njsArrayIndicesHandler D c d := by
    rw [hone, Equiv.swap_apply_def]
    split_ifs with hda hdb
    · rw [hda, hright]
    · rw [hdb, hright]
    · rfl
  have hmem {c : Key} (hc : c ∈ keys) : Equiv.swap a b c ∈ keys := by
    rw [Equiv.swap_apply_def]
    split_ifs
    · exact hb
    · exact ha
    · exact hc
  have hperm : (keys.map (Equiv.swap a b)).Perm keys := by
    refine (List.perm_ext_iff_of_nodup (hnodup.map (Equiv.swap a b).injective) hnodup).2
      fun c => ⟨fun hc => ?_, fun hc => ?_⟩
    · obtain ⟨d, hd, rfl⟩ := List.mem_map.1 hc
      exact hmem hd
    · exact List.mem_map.2 ⟨Equiv.swap a b c, hmem hc, Equiv.swap_apply_self a b c⟩
  have hsame := h.sameKeys _ hperm
  rw [njsArrayKeys_map hboth] at hsame
  have hfix : ∀ c ∈ njsArrayKeys D keys, Equiv.swap a b c = id c :=
    List.map_inj_left.1 (hsame.trans (List.map_id _).symm)
  have hfixed := hfix a ((njsArrayKeys_sorts D h.handler.compares).1.symm.subset ha)
  rw [Equiv.swap_apply_left] at hfixed
  exact hfixed.symm

theorem strncmp_congr {s t : List UInt8} (h : strncmp s t = 0) (hlength : s.length = t.length)
    (u : List UInt8) : strncmp s u = strncmp t u := by
  induction s generalizing t u with
  | nil => rw [List.length_eq_zero_iff.1 hlength.symm]
  | cons a s ih =>
    obtain _ | ⟨b, t⟩ := t
    · cases hlength
    rw [strncmp] at h
    have hab : a.toNat = b.toNat := by
      by_contra hne
      rw [if_neg hne] at h
      omega
    rw [if_pos hab] at h
    obtain _ | ⟨c, u⟩ := u
    · rfl
    rw [strncmp, strncmp, hab]
    rw [hab] at h
    by_cases hzero : b.toNat = 0
    · rw [if_pos hzero, if_pos hzero]
    · rw [if_neg hzero] at h
      rw [if_neg hzero, if_neg hzero, ih h (Nat.succ.inj hlength) u]

theorem strncmp_congr_right {s t : List UInt8} (h : strncmp s t = 0)
    (hlength : s.length = t.length) (u : List UInt8) : strncmp u s = strncmp u t := by
  rw [strncmp_swap s u, strncmp_swap t u, strncmp_congr h hlength]

theorem WellOrdered.separated (hoverflow : D.overflow = -2 ^ 63) (hnodup : keys.Nodup)
    (h : WellOrdered D keys) : Separated D keys where
  finite x hx hnone := by
    have hself := h.handler.swap _ hx _ hx
    have hsign := handler_number (D := D) x x
    rw [difference_infinite hoverflow hnone] at hsign
    omega
  apart x y p q hx hy hp hq hlt := by
    have hless := h.handler.increasing x y hx hy
      (lt_of_not_ge fun hle => not_le.2 hlt ((place_le_place hq hp).1 hle))
    have hgreater := (h.handler.swap _ hx _ hy).1 hless
    have hsign := (handler_number (D := D) y x).1
    exact (difference_pos_iff hoverflow hp hq).1 (by omega)
  zeros := by
    rintro ⟨hneg, hpos⟩
    have hvalue : Number.negZero.value = (Number.finite ((0 : ℕ) : ℚ)).value :=
      congrArg some Nat.cast_zero.symm
    have heq := h.eq_of_alike hnodup hneg hpos (fun c => by
        obtain x | s := c
        · simp only [njsArrayIndicesHandler, Key.index, (difference_congr hvalue x).1]
        · rfl)
      (fun c => by
        obtain x | s := c
        · simp only [njsArrayIndicesHandler, Key.index, (difference_congr hvalue x).2]
        · rfl)
    cases heq
  texts s t hs ht hst hlength := by
    have heq := h.eq_of_alike hnodup hs ht (fun c => by
        obtain x | u := c
        · rfl
        · simp only [njsArrayIndicesHandler, strncmp_congr hst hlength, hlength])
      (fun c => by
        obtain x | u := c
        · rfl
        · simp only [njsArrayIndicesHandler, strncmp_congr_right hst hlength, hlength])
    cases heq
    rfl

/-- Just the keys that are separated are in one order, however they are listed. -/
theorem wellOrdered_iff (hoverflow : D.overflow = -2 ^ 63)
    (hround : ∀ q, D.round (-q) = -D.round q) (hnodup : keys.Nodup) :
    WellOrdered D keys ↔ Separated D keys :=
  ⟨fun h => h.separated hoverflow hnodup, fun h => h.wellOrdered hoverflow hround⟩

theorem wellOrdered_iff_exact : WellOrdered exactDoubles [.text [], .index 7] ↔
    Separated exactDoubles [.text [], .index 7] :=
  wellOrdered_iff rfl (fun _ => rfl) (by simp [Key.index])

/-- A half and zero compare alike. -/
theorem not_wellOrdered_half :
    ¬WellOrdered exactDoubles [.number (.finite (1 / 2)), .number (.finite 0)] := by
  intro h
  have hapart := (h.separated rfl (by simp)).apart (.finite 0) (.finite (1 / 2)) 0 (1 / 2)
    (by simp) (by simp) rfl rfl (by norm_num)
  norm_num [exactDoubles] at hapart

end Njs.Indices
