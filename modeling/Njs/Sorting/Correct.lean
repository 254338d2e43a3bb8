import Mathlib.Algebra.BigOperators.Group.List.Basic
import Mathlib.Algebra.GroupWithZero.Nat
import Njs.Lib.Rearranged
import Njs.Sorting.Qsort

/-!
# `njs_qsort` sorts
-/

namespace Njs.Sorting

open StateExcept Rearrange

variable {α ε : Type} {cmp : α → α → Except ε ℤ} {le : α → α → Prop} {P : α → Prop}

/-! ### Comparisons -/

/-- The answers of a comparison of the elements in `P` say how they are ordered. -/
structure Compares (cmp : α → α → Except ε ℤ) (le : α → α → Prop) (P : α → Prop) : Prop where
  le_of_nonpos : ∀ {a b r}, P a → P b → cmp a b = .ok r → r ≤ 0 → le a b
  ge_of_nonneg : ∀ {a b r}, P a → P b → cmp a b = .ok r → 0 ≤ r → le b a
  trans : ∀ {a b c}, P a → P b → P c → le a b → le b c → le a c
  total : ∀ {a b}, P a → P b → le a b ∨ le b a

theorem Compares.refl (h : Compares cmp le P) {a : α} (ha : P a) : le a a :=
  (h.total ha ha).elim id id

/-- An error of a comparison of elements in `P`. -/
def Fails (cmp : α → α → Except ε ℤ) (P : α → Prop) (e : ε) : Prop :=
  ∃ a b, P a ∧ P b ∧ cmp a b = .error e

variable {β : Type} {m : ℕ → α} {Q : β → (ℕ → α) → Prop}

theorem Compares.post_compare (hcmp : Compares cmp le P) (hP : ∀ i, P (m i)) {i j : ℕ}
    {f : ℤ → Program α ε β}
    (h : ∀ r, (r ≤ 0 → le (m i) (m j)) → (0 ≤ r → le (m j) (m i)) →
      Post (f r) m Q (Fails cmp P)) : Post (compare cmp i j >>= f) m Q (Fails cmp P) := by
  rw [compare, post_bind, post_bind, post_get, post_lift]
  refine ⟨fun r hr => h r ?_ ?_, fun e he => ⟨m i, m j, hP i, hP j, he⟩⟩
  · exact hcmp.le_of_nonpos (hP i) (hP j) hr
  · exact hcmp.ge_of_nonneg (hP i) (hP j) hr

theorem post_swap {E : ε → Prop} {i j : ℕ} {f : PUnit → Program α ε β}
    (h : Post (f ⟨⟩) (m ∘ Equiv.swap i j) Q E) : Post (swap i j >>= f) m Q E :=
  post_bind.2 h

theorem swap_left (i j : ℕ) : (m ∘ Equiv.swap i j) i = m j := congrArg m (Equiv.swap_apply_left i j)

theorem swap_right (i j : ℕ) : (m ∘ Equiv.swap i j) j = m i :=
  congrArg m (Equiv.swap_apply_right i j)

theorem swap_other {i j k : ℕ} (hi : k ≠ i) (hj : k ≠ j) : (m ∘ Equiv.swap i j) k = m k :=
  congrArg m (Equiv.swap_apply_of_ne_of_ne hi hj)

/-- The elements of a range are in order. -/
def SortedOn (le : α → α → Prop) (lo up : ℕ) (m : ℕ → α) : Prop :=
  ∀ i j, lo ≤ i → i < j → j < up → le (m i) (m j)

/-! ### Heaps -/

/-- `c` is a child of `p`. -/
def Child (p c : ℕ) : Prop := c = 2 * p + 1 ∨ c = 2 * p + 2

/-- From position `k` on, no element is greater than its parent. -/
def HeapFrom (le : α → α → Prop) (base n k : ℕ) (m : ℕ → α) : Prop :=
  ∀ p c, k ≤ p → Child p c → c < n → le (m (base + c)) (m (base + p))

/-- The same but for the children of `i`, which are not greater than the parent of `i`. -/
structure HeapExcept (le : α → α → Prop) (base n k i : ℕ) (m : ℕ → α) : Prop where
  heap : ∀ p c, k ≤ p → p ≠ i → Child p c → c < n → le (m (base + c)) (m (base + p))
  above : ∀ p c, k ≤ p → Child p i → Child i c → c < n → le (m (base + c)) (m (base + p))

variable {base n : ℕ}

theorem HeapFrom.root (hcmp : Compares cmp le P) (hP : ∀ i, P (m i)) (h : HeapFrom le base n 0 m)
    (i : ℕ) (hi : i < n) : le (m (base + i)) (m (base + 0)) := by
  induction i using Nat.strongRecOn with
  | ind i ih =>
    by_cases hzero : i = 0
    · subst hzero
      exact hcmp.refl (hP _)
    · have hparent := h ((i - 1) / 2) i (Nat.zero_le _) (by rw [Child]; omega) hi
      exact hcmp.trans (hP _) (hP _) (hP _) hparent (ih ((i - 1) / 2) (by omega) (by omega))

theorem Compares.post_greater (hcmp : Compares cmp le P) (hP : ∀ i, P (m i)) {k c : ℕ}
    {f : ℕ → Program α ε β}
    (h : ∀ g, g = k ∨ g = c ∧ c < n → le (m (base + k)) (m (base + g)) → (c < n →
      le (m (base + c)) (m (base + g))) → Post (f g) m Q (Fails cmp P)) :
    Post (greater cmp base n k c >>= f) m Q (Fails cmp P) := by
  rw [greater]
  by_cases hc : c < n
  · rw [if_pos hc, bind_assoc]
    refine hcmp.post_compare hP fun r hle hge => ?_
    rw [pure_bind]
    split_ifs with hr
    · exact h c (.inr ⟨rfl, hc⟩) (hle (by omega)) fun _ => hcmp.refl (hP _)
    · exact h k (.inl rfl) (hcmp.refl (hP _)) fun _ => hge (by omega)
  · rw [if_neg hc, pure_bind]
    exact h k (.inl rfl) (hcmp.refl (hP _)) fun h => absurd h hc

/-- The element at `i` is moved down. -/
theorem Compares.post_njsSiftDown (hcmp : Compares cmp le P) {k : ℕ} {passes i : ℕ}
    (hpasses : n ≤ i + passes) (hP : ∀ i, P (m i)) (hk : k ≤ i)
    (hheap : HeapExcept le base n k i m) :
    Post (njsSiftDown cmp base n passes i) m
      (fun _ m₁ => Rearranged base (base + n) m m₁ ∧ HeapFrom le base n k m₁) (Fails cmp P) := by
  induction passes generalizing m i with
  | zero =>
    refine ⟨Rearranged.refl _ _ _, fun p c hp hc hcn => hheap.heap p c hp ?_ hc hcn⟩
    rw [Child] at hc
    omega
  | succ passes ih =>
    rw [njsSiftDown]
    refine hcmp.post_greater hP fun g hg hig hleft => ?_
    refine hcmp.post_greater hP fun g' hg' hgg' hright => ?_
    have hig' := hcmp.trans (hP _) (hP _) (hP _) hig hgg'
    have hchild : ∀ c, Child i c → c < n → le (m (base + c)) (m (base + g')) := by
      rintro c (rfl | rfl) hc
      · exact hcmp.trans (hP _) (hP _) (hP _) (hleft hc) hgg'
      · exact hright hc
    by_cases hsame : g' = i
    · rw [if_pos hsame]
      refine ⟨Rearranged.refl _ _ _, fun p c hp hc hcn => ?_⟩
      by_cases hpi : p = i
      · rw [hpi] at hc ⊢
        rw [hsame] at hchild
        exact hchild c hc hcn
      · exact hheap.heap p c hp hpi hc hcn
    have hg'i : Child i g' := by
      rw [Child]
      omega
    rw [if_neg hsame]
    refine post_swap ?_
    have hg'n : g' < n := by omega
    have hi : i < n := by
      rw [Child] at hg'i
      omega
    have hother (c : ℕ) (hci : c ≠ i) (hcg : c ≠ g') :
        (m ∘ Equiv.swap (base + i) (base + g')) (base + c) = m (base + c) :=
      swap_other (by omega) (by omega)
    have hswap : Rearranged base (base + n) m (m ∘ Equiv.swap (base + i) (base + g')) :=
      rearranged_swap (by omega) (by omega)
    refine (ih (by rw [Child] at hg'i; omega) (hswap.forall hP) (by rw [Child] at hg'i; omega)
      ⟨?_, ?_⟩).mono (fun _ m₁ h => ⟨hswap.trans h.1, h.2⟩) fun _ he => he
    · intro p c hp hpg hpc hcn
      by_cases hpi : p = i
      · subst hpi
        rw [swap_left]
        by_cases hcg : c = g'
        · rw [hcg, swap_right]
          exact hig'
        · rw [hother c (by rw [Child] at hpc; omega) hcg]
          exact hchild c hpc hcn
      rw [hother p hpi hpg]
      by_cases hci : c = i
      · rw [hci, swap_left]
        rw [hci] at hpc
        exact hheap.above p g' hp hpc hg'i hg'n
      · rw [hother c hci (by rw [Child] at hpc hg'i; omega)]
        exact hheap.heap p c hp hpi hpc hcn
    · intro p c hp hpg hgc hcn
      have hpi : p = i := by
        rw [Child] at hpg hg'i
        omega
      have hci : c ≠ i := by
        rw [Child] at hgc hg'i
        omega
      rw [hpi, swap_left, hother c hci (by rw [Child] at hgc; omega)]
      exact hheap.heap g' c (by rw [Child] at hg'i; omega) hsame hgc hcn

theorem Compares.post_heapify (hcmp : Compares cmp le P) (k : ℕ) (hP : ∀ i, P (m i))
    (hheap : HeapFrom le base n k m) :
    Post (forM (List.range k).reverse fun i => njsSiftDown cmp base n n i) m
      (fun _ m₁ => Rearranged base (base + n) m m₁ ∧ HeapFrom le base n 0 m₁) (Fails cmp P) := by
  induction k generalizing m with
  | zero => exact ⟨Rearranged.refl _ _ _, hheap⟩
  | succ k ih =>
    rw [List.range_succ, List.reverse_append, List.reverse_singleton, List.singleton_append,
      List.forM_cons]
    have hexcept : HeapExcept le base n k k m := by
      refine ⟨fun p c hp hpk => hheap p c (by omega), fun p c hp hpk => ?_⟩
      rw [Child] at hpk
      omega
    refine (hcmp.post_njsSiftDown (Nat.le_add_left _ _) hP (Nat.le_refl k) hexcept).bind ?_
    rintro _ m₁ ⟨hm, hheap₁⟩
    exact (ih (hm.forall hP) hheap₁).mono (fun _ m₂ h => ⟨hm.trans h.1, h.2⟩) fun _ he => he

theorem Compares.post_popAll (hcmp : Compares cmp le P) (hP : ∀ i, P (m i))
    (hheap : HeapFrom le base n 0 m) :
    Post (popAll cmp base n) m
      (fun _ m₁ => Rearranged base (base + n) m m₁ ∧ SortedOn le base (base + n) m₁)
      (Fails cmp P) := by
  induction n using Nat.strongRecOn generalizing m with
  | ind n ih =>
    match n with
    | 0 => exact ⟨Rearranged.refl _ _ _, fun i j hi hij hj => by omega⟩
    | 1 => exact ⟨Rearranged.refl _ _ _, fun i j hi hij hj => by omega⟩
    | n + 2 =>
      rw [popAll]
      refine post_swap ?_
      have hswap : Rearranged base (base + (n + 2)) m (m ∘ Equiv.swap base (base + (n + 1))) :=
        rearranged_swap (by omega) (by omega)
      have hother (c : ℕ) (hc : c ≠ 0) (hcn : c < n + 1) :
          (m ∘ Equiv.swap base (base + (n + 1))) (base + c) = m (base + c) :=
        swap_other (by omega) (by omega)
      have hexcept : HeapExcept le base (n + 1) 0 0 (m ∘ Equiv.swap base (base + (n + 1))) := by
        constructor
        · intro p c hp hp0 hpc hcn
          rw [hother c (by rw [Child] at hpc; omega) hcn,
            hother p hp0 (by rw [Child] at hpc; omega)]
          exact hheap p c hp hpc (by omega)
        · intro p c hp hp0
          rw [Child] at hp0
          omega
      refine (hcmp.post_njsSiftDown (by omega) (hswap.forall hP) (Nat.le_refl 0) hexcept).bind ?_
      rintro _ m₁ ⟨hm₁, hheap₁⟩
      have hm₁P := hm₁.forall (hswap.forall hP)
      refine (ih (n + 1) (by omega) hm₁P hheap₁).mono ?_ fun _ he => he
      rintro _ m₂ ⟨hm₂, hsorted⟩
      have hm : Rearranged base (base + (n + 1)) (m ∘ Equiv.swap base (base + (n + 1))) m₂ :=
        hm₁.trans hm₂
      refine ⟨hswap.trans (hm.mono (Nat.le_refl _) (by omega)), fun i j hi hij hj => ?_⟩
      have hroot (k : ℕ) (hk : base ≤ k) (hkn : k < base + (n + 2)) : le (m k) (m base) := by
        have hk' : k = base + (k - base) := by omega
        rw [hk']
        exact hheap.root hcmp hP (k - base) (by omega)
      by_cases hlast : j = base + (n + 1)
      · rw [hlast, hm.of_outside (i := base + (n + 1)) (by omega), swap_right]
        refine hm.forall_inside (P := fun a => le a (m base)) (fun k hk hkn => ?_) i hi (by omega)
        by_cases hkb : k = base
        · rw [hkb, swap_left]
          exact hroot _ (by omega) (by omega)
        · rw [swap_other hkb (by omega)]
          exact hroot k hk (by omega)
      · exact hsorted i j hi hij (by omega)

theorem Compares.post_njsHeapsort (hcmp : Compares cmp le P) (hP : ∀ i, P (m i)) :
    Post (njsHeapsort cmp base n) m
      (fun _ m₁ => Rearranged base (base + n) m m₁ ∧ SortedOn le base (base + n) m₁)
      (Fails cmp P) := by
  have hheap : HeapFrom le base n (n / 2 + 1) m := by
    intro p c hp hc hcn
    rw [Child] at hc
    omega
  refine (hcmp.post_heapify (n / 2 + 1) hP hheap).bind ?_
  rintro _ m₁ ⟨hm₁, hheap₁⟩
  refine (hcmp.post_popAll (hm₁.forall hP) hheap₁).mono ?_ fun _ he => he
  exact fun _ m₂ h => ⟨hm₁.trans h.1, h.2⟩

end Njs.Sorting

/-!
## `njs_qsort` sorts
-/

namespace Njs.Sorting

open StateExcept Rearrange

variable {α ε : Type} {cmp : α → α → Except ε ℤ} {le : α → α → Prop} {P : α → Prop} {m : ℕ → α}

/-! ### Partition -/

/-- The elements of a range are at most `v` before `lt`, as great as `v` before `gt`, and at least
`v` from `stop` on. -/
structure Partitioned (le : α → α → Prop) (base up lt gt stop : ℕ) (v : α) (m : ℕ → α) : Prop where
  first : base ≤ lt
  before : ∀ i, base ≤ i → i < lt → le (m i) v
  middle : ∀ i, lt ≤ i → i < gt → le (m i) v ∧ le v (m i)
  after : ∀ i, stop ≤ i → i < up → le v (m i)

variable {base n : ℕ}

theorem Compares.post_partition (hcmp : Compares cmp le P) {up : ℕ} {v : α} (hv : P v)
    (unprocessed lt p : ℕ) (hP : ∀ i, P (m i)) (hlt : lt < p) (hup : p + unprocessed ≤ up)
    (h : Partitioned le base up lt p (p + unprocessed) v m) :
    Post (partition cmp lt p unprocessed) m
      (fun r m₁ => Rearranged base up m m₁ ∧ r.1 < r.2 ∧ r.2 ≤ up ∧
        Partitioned le base up r.1 r.2 r.2 v m₁) (Fails cmp P) := by
  induction unprocessed generalizing m lt p with
  | zero => exact ⟨Rearranged.refl _ _ _, hlt, hup, h⟩
  | succ unprocessed ih =>
    have hfirst := h.first
    have hltv := h.middle lt (Nat.le_refl _) hlt
    rw [partition]
    refine hcmp.post_compare hP fun r hle hge => ?_
    by_cases hr : r ≤ 0
    · rw [if_pos hr]
      have hpv := hcmp.trans (hP _) (hP _) hv (hle hr) hltv.1
      by_cases hneg : r < 0
      · rw [if_pos hneg]
        refine post_swap ?_
        have hswap : Rearranged base up m (m ∘ Equiv.swap lt p) :=
          rearranged_swap (by omega) (by omega)
        refine (ih (lt + 1) (p + 1) (hswap.forall hP) (by omega) (by omega) ⟨by omega, ?_, ?_,
          ?_⟩).mono (fun _ m₁ h => ⟨hswap.trans h.1, h.2⟩) fun _ he => he
        · intro i hi hilt
          by_cases hil : i = lt
          · rw [hil, swap_left]
            exact hpv
          · rw [swap_other hil (by omega)]
            exact h.before i hi (by omega)
        · intro i hi hip
          by_cases hi' : i = p
          · rw [hi', swap_right]
            exact hltv
          · rw [swap_other (by omega) hi']
            exact h.middle i (by omega) (by omega)
        · intro i hi hiup
          rw [swap_other (by omega) (by omega)]
          exact h.after i (by omega) hiup
      · rw [if_neg hneg]
        have hvp := hcmp.trans hv (hP _) (hP _) hltv.2 (hge (by omega))
        refine ih lt (p + 1) hP (by omega) (by omega) ⟨hfirst, h.before, ?_, ?_⟩
        · intro i hi hip
          by_cases hi' : i = p
          · rw [hi']
            exact ⟨hpv, hvp⟩
          · exact h.middle i hi (by omega)
        · exact fun i hi => h.after i (by omega)
    · rw [if_neg hr]
      have hvp := hcmp.trans hv (hP _) (hP _) hltv.2 (hge (by omega))
      refine post_swap ?_
      have hswap : Rearranged base up m (m ∘ Equiv.swap (p + unprocessed) p) :=
        rearranged_swap (by omega) (by omega)
      refine (ih lt p (hswap.forall hP) hlt (by omega) ⟨hfirst, ?_, ?_, ?_⟩).mono
        (fun _ m₁ h => ⟨hswap.trans h.1, h.2⟩) fun _ he => he
      · intro i hi hilt
        rw [swap_other (by omega) (by omega)]
        exact h.before i hi hilt
      · intro i hi hip
        rw [swap_other (by omega) (by omega)]
        exact h.middle i hi hip
      intro i hi hiup
      by_cases hi' : i = p + unprocessed
      · rw [hi', swap_left]
        exact hvp
      · rw [swap_other hi' (by omega)]
        exact h.after i (by omega) hiup

theorem Compares.post_njsPivot (hcmp : Compares cmp le P) (hP : ∀ i, P (m i)) (a b c : ℕ) :
    Post (njsPivot cmp a b c) m (fun r m₁ => m₁ = m ∧ (r = a ∨ r = b ∨ r = c)) (Fails cmp P) := by
  rw [njsPivot]
  refine hcmp.post_compare hP fun r _ _ => ?_
  split_ifs
  · refine hcmp.post_compare hP fun r _ _ => ?_
    split_ifs
    · refine hcmp.post_compare hP fun r _ _ => ?_
      split_ifs
      · exact ⟨rfl, .inr (.inl rfl)⟩
      · exact ⟨rfl, .inl rfl⟩
    · exact ⟨rfl, .inr (.inr rfl)⟩
  refine hcmp.post_compare hP fun r _ _ => ?_
  split_ifs
  · refine hcmp.post_compare hP fun r _ _ => ?_
    split_ifs
    · exact ⟨rfl, .inr (.inr rfl)⟩
    · exact ⟨rfl, .inr (.inl rfl)⟩
  · exact ⟨rfl, .inl rfl⟩

theorem Compares.post_split (hcmp : Compares cmp le P) (hP : ∀ i, P (m i)) (hn : 4 ≤ n) :
    Post (split cmp base n) m
      (fun r m₁ => Rearranged base (base + n) m m₁ ∧ r.1 < r.2 ∧ r.2 ≤ base + n ∧
        ∃ v, P v ∧ Partitioned le base (base + n) r.1 r.2 r.2 v m₁) (Fails cmp P) := by
  rw [split]
  refine (hcmp.post_njsPivot hP _ _ _).bind ?_
  rintro p m₁ ⟨rfl, hp⟩
  refine post_swap ?_
  have hswap : Rearranged base (base + n) m₁ (m₁ ∘ Equiv.swap base p) :=
    rearranged_swap (by omega) (by omega)
  have hv := hswap.forall hP base
  refine (hcmp.post_partition hv (n - 1) base (base + 1) (hswap.forall hP) (by omega) (by omega)
    ⟨Nat.le_refl _, fun i hi hib => by omega, fun i hi hib => ?_, fun i hi hiup => by omega⟩).mono
      (fun _ m₂ h => ⟨hswap.trans h.1, h.2.1, h.2.2.1, _, hv, h.2.2.2⟩) fun _ he => he
  have hib : i = base := by omega
  rw [hib]
  exact ⟨hcmp.refl hv, hcmp.refl hv⟩

/-! ### Insertion sort -/

/-- The answers on an element and one that was before it say how they are ordered. -/
structure Inserts (cmp : α → α → Except ε ℤ) (le : α → α → Prop) (P : α → Prop)
    (before : α → α → Prop) : Prop where
  lt_le : ∀ {a b r}, P a → P b → before b a → cmp a b = .ok r → r < 0 → le a b
  ge_le : ∀ {a b r}, P a → P b → before b a → cmp a b = .ok r → 0 ≤ r → le b a
  trans : ∀ {a b c}, P a → P b → P c → le a b → le b c → le a c

theorem Compares.inserts (hcmp : Compares cmp le P) : Inserts cmp le P fun _ _ => True where
  lt_le ha hb _ hr hneg := hcmp.le_of_nonpos ha hb hr (Int.le_of_lt hneg)
  ge_le ha hb _ hr hpos := hcmp.ge_of_nonneg ha hb hr hpos
  trans := hcmp.trans

variable {before : α → α → Prop}

theorem Inserts.post_compare {β : Type} {Q : β → (ℕ → α) → Prop} (hcmp : Inserts cmp le P before)
    (hP : ∀ i, P (m i)) {i j : ℕ} (hbefore : before (m j) (m i)) {f : ℤ → Program α ε β}
    (h : ∀ r, (r < 0 → le (m i) (m j)) → (0 ≤ r → le (m j) (m i)) →
      Post (f r) m Q (Fails cmp P)) : Post (compare cmp i j >>= f) m Q (Fails cmp P) := by
  rw [compare, post_bind, post_bind, post_get, post_lift]
  refine ⟨fun r hr => h r ?_ ?_, fun e he => ⟨m i, m j, hP i, hP j, he⟩⟩
  · exact hcmp.lt_le (hP i) (hP j) hbefore hr
  · exact hcmp.ge_le (hP i) (hP j) hbefore hr

/-- The element at `base + c` is moved to its place. -/
theorem Inserts.post_insert (hcmp : Inserts cmp le P before) (c : ℕ) (hP : ∀ i, P (m i))
    (hsorted : SortedOn le base (base + c) m)
    (hbefore : ∀ i, base ≤ i → i < base + c → before (m i) (m (base + c))) :
    Post (insert cmp base c) m
      (fun _ m₁ => Rearranged base (base + c + 1) m m₁ ∧ SortedOn le base (base + c + 1) m₁)
      (Fails cmp P) := by
  induction c generalizing m with
  | zero => exact ⟨Rearranged.refl _ _ _, fun i j hi hij hj => by omega⟩
  | succ c ih =>
    rw [insert]
    refine hcmp.post_compare hP (hbefore (base + c) (by omega) (by omega)) fun r hle hge => ?_
    by_cases hr : r < 0
    · have hlast := hle hr
      rw [if_pos hr]
      refine post_swap ?_
      have hswap : Rearranged base (base + (c + 1) + 1) m
          (m ∘ Equiv.swap (base + (c + 1)) (base + c)) :=
        rearranged_swap (by omega) (by omega)
      have hsorted₁ : SortedOn le base (base + c) (m ∘ Equiv.swap (base + (c + 1)) (base + c)) := by
        intro i j hi hij hj
        rw [swap_other (by omega) (by omega), swap_other (by omega) (by omega)]
        exact hsorted i j hi hij (by omega)
      have hbefore₁ : ∀ i, base ≤ i → i < base + c →
          before ((m ∘ Equiv.swap (base + (c + 1)) (base + c)) i)
            ((m ∘ Equiv.swap (base + (c + 1)) (base + c)) (base + c)) := by
        intro i hi hic
        rw [swap_right, swap_other (by omega) (by omega)]
        exact hbefore i hi (by omega)
      refine (ih (hswap.forall hP) hsorted₁ hbefore₁).mono ?_ fun _ he => he
      rintro _ m₁ ⟨hm₁, hsorted₂⟩
      refine ⟨hswap.trans (hm₁.mono (Nat.le_refl _) (by omega)), fun i j hi hij hj => ?_⟩
      by_cases hj' : j = base + (c + 1)
      · rw [hj', hm₁.of_outside (i := base + (c + 1)) (by omega), swap_left]
        refine hm₁.forall_inside (P := fun a => le a (m (base + c))) (fun k hk hkc => ?_) i hi
          (by omega)
        by_cases hk' : k = base + c
        · rw [hk', swap_right]
          exact hlast
        · rw [swap_other (by omega) hk']
          exact hsorted k (base + c) hk (by omega) (by omega)
      · exact hsorted₂ i j hi hij (by omega)
    · rw [if_neg hr]
      have hlast := hge (by omega)
      refine ⟨Rearranged.refl _ _ _, fun i j hi hij hj => ?_⟩
      by_cases hj' : j = base + (c + 1)
      · rw [hj']
        by_cases hi' : i = base + c
        · rw [hi']
          exact hlast
        · have hbefore := hsorted i (base + c) hi (by omega) (by omega)
          exact hcmp.trans (hP _) (hP _) (hP _) hbefore hlast
      · exact hsorted i j hi hij (by omega)

theorem Inserts.post_insertionSort (hcmp : Inserts cmp le P before) (hP : ∀ i, P (m i))
    (hbefore : ∀ i j, base ≤ i → i < j → j < base + n → before (m i) (m j)) :
    Post (insertionSort cmp base n) m
      (fun _ m₁ => Rearranged base (base + n) m m₁ ∧ SortedOn le base (base + n) m₁)
      (Fails cmp P) := by
  have hinsert (k : ℕ) (hk : k + 1 ≤ n) : Post (forM (List.range' 1 k) fun p => insert cmp base p) m
        (fun _ m₁ => Rearranged base (base + k + 1) m m₁ ∧ SortedOn le base (base + k + 1) m₁)
        (Fails cmp P) := by
    induction k with
    | zero => exact ⟨Rearranged.refl _ _ _, fun i j hi hij hj => by omega⟩
    | succ k ih =>
      rw [List.range'_concat, List.forM_append]
      refine (ih (by omega)).bind ?_
      rintro _ m₁ ⟨hm₁, hsorted⟩
      rw [List.forM_cons, Nat.one_mul, Nat.add_comm 1 k]
      refine (hcmp.post_insert (k + 1) (hm₁.forall hP) hsorted fun i hi hik => ?_).bind ?_
      · rw [hm₁.of_outside (i := base + (k + 1)) (by omega)]
        exact hm₁.forall_inside (P := fun a => before a (m (base + (k + 1))))
          (fun j hj hjk => hbefore j _ hj (by omega) (by omega)) i hi hik
      · rintro _ m₂ ⟨hm₂, hsorted₂⟩
        exact ⟨(hm₁.mono (Nat.le_refl _) (by omega)).trans hm₂, hsorted₂⟩
  rw [insertionSort]
  by_cases hn : n = 0
  · subst hn
    exact ⟨Rearranged.refl _ _ _, fun i j hi hij hj => by omega⟩
  · have hlast : base + (n - 1) + 1 = base + n := by omega
    have h := hinsert (n - 1) (by omega)
    rwa [hlast] at h

/-! ### Ranges -/

def passesOf (ranges : List (ℕ × ℕ)) : ℕ := (ranges.map fun r => 2 * r.2 + 1).sum

theorem sortedBetween_done {k : ℕ} {stack : List (ℕ × ℕ)} {m₁ : ℕ → α}
    (hdisjoint : Disjoint n ((base, k) :: stack)) (h : SortedBetween le n ((base, k) :: stack) m)
    (hm : Rearranged base (base + k) m m₁) (hsorted : SortedOn le base (base + k) m₁) :
    SortedBetween le n stack m₁ :=
  h.refine hdisjoint [] hm fun i j hij hi hj _ =>
    hsorted i j hi.1 hij hj.2

theorem post_sortRanges (hcmp : Compares cmp le P) (passes : ℕ) (ranges : List (ℕ × ℕ))
    (hpasses : passesOf ranges ≤ passes) (hP : ∀ i, P (m i)) (hdisjoint : Disjoint n ranges)
    (hbetween : SortedBetween le n ranges m) :
    Post (sortRanges cmp passes ranges) m
      (fun _ m₁ => Rearranged 0 n m m₁ ∧ SortedBetween le n [] m₁) (Fails cmp P) := by
  induction passes generalizing m ranges with
  | zero =>
    match ranges with
    | [] => exact ⟨Rearranged.refl _ _ _, hbetween⟩
    | r :: ranges =>
      rw [passesOf, List.map_cons, List.sum_cons] at hpasses
      omega
  | succ passes ih =>
    match ranges with
    | [] => exact ⟨Rearranged.refl _ _ _, hbetween⟩
    | (base, k) :: stack =>
      rw [passesOf, List.map_cons, List.sum_cons] at hpasses
      have hinside : base + k ≤ n := hdisjoint.inside _ List.mem_cons_self
      have hstack : Disjoint n stack := hdisjoint.refine [] nofun .nil
      have hnext {m₁ : ℕ → α} (hm₁ : Rearranged base (base + k) m m₁) (ranges : List (ℕ × ℕ))
          (hpasses : passesOf ranges ≤ passes) (hdisjoint : Disjoint n ranges)
          (hbetween : SortedBetween le n ranges m₁) :
          Post (sortRanges cmp passes ranges) m₁
            (fun _ m₂ => Rearranged 0 n m m₂ ∧ SortedBetween le n [] m₂) (Fails cmp P) :=
        (ih ranges hpasses (hm₁.forall hP) hdisjoint hbetween).mono
          (fun _ m₂ h => ⟨(hm₁.mono (Nat.zero_le _) hinside).trans h.1, h.2⟩) fun _ he => he
      rw [sortRanges]
      split_ifs with hlong hdeep
      · refine (hcmp.post_njsHeapsort hP).bind ?_
        rintro _ m₁ ⟨hm₁, hsorted⟩
        exact hnext hm₁ stack (by rw [passesOf]; omega) hstack
          (sortedBetween_done hdisjoint hbetween hm₁ hsorted)
      · refine (hcmp.post_split hP (by omega)).bind ?_
        rintro ⟨lt, gt⟩ m₁ ⟨hm₁, hltgt, hgt, v, hv, hparts⟩
        have hfirst := hparts.first
        dsimp only at hltgt hgt hfirst hparts ⊢
        have hranges : ∀ s ∈ [(base, lt - base), (gt, base + k - gt)],
            base ≤ s.1 ∧ s.1 + s.2 ≤ base + k := by
          intro s hs
          rcases List.mem_pair.1 hs with rfl | rfl
          · exact ⟨Nat.le_refl _, by dsimp only; omega⟩
          · exact ⟨by dsimp only; omega, by dsimp only; omega⟩
        have hapart : ∀ i, ¬(Holds (base, lt - base) i ∧ Holds (gt, base + k - gt) i) := by
          intro i
          simp only [Holds]
          omega
        have hsplit : ∀ i j, i < j → Holds (base, k) i → Holds (base, k) j →
            ¬(Holds (base, lt - base) i ∧ Holds (base, lt - base) j) →
            ¬(Holds (gt, base + k - gt) i ∧ Holds (gt, base + k - gt) j) → le (m₁ i) (m₁ j) := by
          intro i j hij hi hj hlower hupper
          simp only [Holds] at hi hj hlower hupper
          have hm₁P := hm₁.forall hP
          have hiv : le (m₁ i) v := by
            by_cases hilt : i < lt
            · exact hparts.before i hi.1 hilt
            · exact (hparts.middle i (by omega) (by omega)).1
          have hvj : le v (m₁ j) := by
            by_cases hjgt : gt ≤ j
            · exact hparts.after j hjgt hj.2
            · exact (hparts.middle j (by omega) (by omega)).2
          exact hcmp.trans (hm₁P i) hv (hm₁P j) hiv hvj
        have hcount : passesOf ((base, lt - base) :: (gt, base + k - gt) :: stack) ≤ passes := by
          simp only [passesOf, List.map_cons, List.sum_cons]
          omega
        split_ifs
        · refine hnext hm₁ _ ?_ (hdisjoint.refine [(gt, base + k - gt), (base, lt - base)] ?_ ?_)
            (hbetween.refine hdisjoint [(gt, base + k - gt), (base, lt - base)] hm₁ ?_)
          · simp only [passesOf, List.map_cons, List.sum_cons] at hcount ⊢
            omega
          · exact fun s hs => hranges s (List.mem_pair.2 (List.mem_pair.1 hs).symm)
          · exact List.pairwise_pair.2 fun i h => hapart i h.symm
          · exact fun i j hij hi hj h => hsplit i j hij hi hj (h _ (List.mem_pair.2 (.inr rfl)))
              (h _ (List.mem_pair.2 (.inl rfl)))
        refine hnext hm₁ _ hcount
          (hdisjoint.refine [(base, lt - base), (gt, base + k - gt)] hranges ?_)
          (hbetween.refine hdisjoint [(base, lt - base), (gt, base + k - gt)] hm₁ ?_)
        · exact List.pairwise_pair.2 hapart
        · exact fun i j hij hi hj h => hsplit i j hij hi hj (h _ (List.mem_pair.2 (.inl rfl)))
            (h _ (List.mem_pair.2 (.inr rfl)))
      · refine (hcmp.inserts.post_insertionSort hP fun _ _ _ _ _ => trivial).bind ?_
        rintro _ m₁ ⟨hm₁, hsorted⟩
        exact hnext hm₁ stack (by rw [passesOf]; omega) hstack
          (sortedBetween_done hdisjoint hbetween hm₁ hsorted)

theorem map_getD_range (l : List α) (a : α) : (List.range l.length).map (l.getD · a) = l := by
  refine List.ext_getElem (by rw [List.length_map, List.length_range]) fun i _ hi => ?_
  rw [List.getElem_map, List.getElem_range, List.getD_eq_getElem _ _ hi]

theorem pairwise_of_sortedBetween (h : SortedBetween le n [] m) :
    ((List.range n).map m).Pairwise le := by
  rw [List.pairwise_map]
  refine List.Pairwise.imp_of_mem ?_ List.pairwise_lt_range
  exact fun _ hj hij => h _ _ hij (List.mem_range.1 hj) nofun

variable {l : List α}

theorem getD_mem {a : α} (ha : a ∈ l) (i : ℕ) : l.getD i a ∈ l := by
  by_cases hi : i < l.length
  · rw [List.getD_eq_getElem _ _ hi]
    exact List.getElem_mem hi
  · rwa [List.getD_eq_default _ _ (Nat.le_of_not_lt hi)]

/-- The result is a sorted permutation, or a comparison of two elements failed. -/
def Sorts (cmp : α → α → Except ε ℤ) (le : α → α → Prop) (l : List α) : Prop :=
  match njsQsort cmp l with
  | .ok l' => l'.Perm l ∧ l'.Pairwise le
  | .error e => Fails cmp (· ∈ l) e

theorem sorts_of_post {a b : α} {le : α → α → Prop}
    (h : Post (sortRanges cmp (2 * (a :: b :: l).length + 1) [(0, (a :: b :: l).length)]) ((a ::
      b :: l).getD · a) (fun _ m₁ => Rearranged 0 (a :: b :: l).length ((a :: b :: l).getD · a) m₁ ∧
        SortedBetween le (a :: b :: l).length [] m₁) (Fails cmp (· ∈ a :: b :: l))) :
    Sorts cmp le (a :: b :: l) := by
  have hqsort : njsQsort cmp (a :: b :: l) = ((sortRanges cmp (2 * (a :: b :: l).length + 1)
      [(0, (a :: b :: l).length)]).run ((a :: b :: l).getD · a)).bind fun r =>
        .ok ((List.range (a :: b :: l).length).map r.2) := rfl
  rw [Sorts, hqsort]
  rcases hrun : (sortRanges cmp (2 * (a :: b :: l).length + 1) [(0, (a :: b :: l).length)]).run
      ((a :: b :: l).getD · a) with e | ⟨_, m₁⟩
  · exact h.of_error hrun
  · obtain ⟨hm₁, hsorted⟩ := h.of_run hrun
    refine ⟨?_, pairwise_of_sortedBetween hsorted⟩
    have hperm := hm₁.perm
    rwa [map_getD_range] at hperm

theorem Compares.sorts (hcmp : Compares cmp le (· ∈ l)) : Sorts cmp le l := by
  match l with
  | [] => exact ⟨.nil, .nil⟩
  | [a] => exact ⟨.refl _, List.pairwise_singleton _ _⟩
  | a :: b :: l =>
    refine sorts_of_post (post_sortRanges hcmp _ _ (Nat.le_refl _)
      (getD_mem List.mem_cons_self) ⟨fun r hr => ?_, List.pairwise_singleton _ _⟩ ?_)
    · have hr := List.mem_singleton.1 hr
      subst hr
      exact Nat.le_of_eq (Nat.zero_add _)
    · intro i j hij hj h
      refine absurd ?_ (h _ List.mem_cons_self)
      simp only [Holds]
      omega

theorem Inserts.sorts (hcmp : Inserts cmp le (· ∈ l) before) (hbefore : l.Pairwise before)
    (hlength : l.length ≤ 6) : Sorts cmp le l := by
  match l with
  | [] => exact ⟨.nil, .nil⟩
  | [a] => exact ⟨.refl _, List.pairwise_singleton _ _⟩
  | a :: b :: l =>
    refine sorts_of_post ?_
    rw [sortRanges, if_neg (by omega)]
    refine (hcmp.post_insertionSort (getD_mem List.mem_cons_self) fun i j _ hij hj => ?_).bind ?_
    · rw [Nat.zero_add] at hj
      rw [List.getD_eq_getElem _ _ hj, List.getD_eq_getElem _ _ (Nat.lt_trans hij hj)]
      exact List.pairwise_iff_getElem.1 hbefore i j _ _ hij
    rintro _ m₁ ⟨hm₁, hsorted⟩
    rw [Nat.zero_add] at hm₁ hsorted
    have hdone (passes : ℕ) : sortRanges cmp passes [] = pure () := by
      cases passes <;> rfl
    rw [hdone]
    exact ⟨hm₁, fun i j hij hj _ => hsorted i j (Nat.zero_le i) hij hj⟩

end Njs.Sorting
