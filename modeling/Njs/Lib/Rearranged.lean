import Mathlib.Data.List.Nodup
import Mathlib.Data.List.Perm.Basic
import Mathlib.Logic.Equiv.Basic

/-!
# Elements in another order

Memory is a function from positions to elements. The elements of a range are put into another order,
and nothing else changes.
-/

namespace Rearrange

variable {α : Type} {lo up : ℕ} {m m₁ m₂ : ℕ → α}

/-- The elements of a range in another order. -/
def Rearranged (lo up : ℕ) (m m₁ : ℕ → α) : Prop :=
  ∃ e : Equiv.Perm ℕ, (∀ i, ¬(lo ≤ i ∧ i < up) → e i = i) ∧ m₁ = m ∘ e

theorem Rearranged.refl (lo up : ℕ) (m : ℕ → α) : Rearranged lo up m m :=
  ⟨Equiv.refl ℕ, fun _ _ => rfl, rfl⟩

theorem Rearranged.trans (h₁ : Rearranged lo up m m₁) (h₂ : Rearranged lo up m₁ m₂) :
    Rearranged lo up m m₂ := by
  obtain ⟨e₁, hfix₁, rfl⟩ := h₁
  obtain ⟨e₂, hfix₂, rfl⟩ := h₂
  refine ⟨e₂.trans e₁, fun i hi => ?_, rfl⟩
  rw [Equiv.trans_apply, hfix₂ i hi, hfix₁ i hi]

theorem Rearranged.mono {lo' up' : ℕ} (h : Rearranged lo up m m₁) (hlo : lo' ≤ lo)
    (hup : up ≤ up') : Rearranged lo' up' m m₁ := by
  obtain ⟨e, hfix, rfl⟩ := h
  exact ⟨e, fun i hi => hfix i (by omega), rfl⟩

theorem rearranged_swap {i j : ℕ} (hi : lo ≤ i ∧ i < up) (hj : lo ≤ j ∧ j < up) :
    Rearranged lo up m (m ∘ Equiv.swap i j) := by
  refine ⟨Equiv.swap i j, fun k hk => Equiv.swap_apply_of_ne_of_ne ?_ ?_, rfl⟩
  · rintro rfl
    exact hk hi
  · rintro rfl
    exact hk hj

theorem Rearranged.of_outside (h : Rearranged lo up m m₁) {i : ℕ} (hi : ¬(lo ≤ i ∧ i < up)) :
    m₁ i = m i := by
  obtain ⟨e, hfix, rfl⟩ := h
  exact congrArg m (hfix i hi)

theorem Rearranged.of_inside (h : Rearranged lo up m m₁) {i : ℕ} (hi : lo ≤ i ∧ i < up) :
    ∃ j, (lo ≤ j ∧ j < up) ∧ m₁ i = m j := by
  obtain ⟨e, hfix, rfl⟩ := h
  refine ⟨e i, ?_, rfl⟩
  by_contra hj
  exact hj ((e.injective (hfix (e i) hj)).symm ▸ hi)

theorem Rearranged.forall_inside {P : α → Prop} (h : Rearranged lo up m m₁)
    (hP : ∀ i, lo ≤ i → i < up → P (m i)) (i : ℕ) (hlo : lo ≤ i) (hup : i < up) : P (m₁ i) := by
  obtain ⟨j, hj, heq⟩ := h.of_inside ⟨hlo, hup⟩
  rw [heq]
  exact hP j hj.1 hj.2

theorem Rearranged.forall {P : α → Prop} (h : Rearranged lo up m m₁) (hP : ∀ i, P (m i)) (i : ℕ) :
    P (m₁ i) := by
  obtain ⟨e, -, rfl⟩ := h
  exact hP (e i)

theorem Rearranged.perm {n : ℕ} (h : Rearranged 0 n m m₁) :
    ((List.range n).map m₁).Perm ((List.range n).map m) := by
  obtain ⟨e, hfix, rfl⟩ := h
  have hlt (j : ℕ) : e j < n ↔ j < n := by
    by_cases hj : j < n
    · refine iff_of_true ?_ hj
      by_contra hej
      exact hej ((e.injective (hfix (e j) fun h => hej h.2)).symm ▸ hj)
    · rw [hfix j fun h => hj h.2]
  rw [← List.map_map]
  refine List.Perm.map m ((List.perm_ext_iff_of_nodup ?_ List.nodup_range).2 fun i => ?_)
  · exact List.nodup_range.map e.injective
  rw [List.mem_map, List.mem_range]
  constructor
  · rintro ⟨j, hj, rfl⟩
    exact (hlt j).2 (List.mem_range.1 hj)
  · intro hi
    refine ⟨e.symm i, List.mem_range.2 ((hlt _).1 ?_), e.apply_symm_apply i⟩
    rwa [e.apply_symm_apply]

/-! ### Ranges that are still to be sorted -/

/-- A range, by its first position and its length, holds a position. -/
def Holds (r : ℕ × ℕ) (i : ℕ) : Prop := r.1 ≤ i ∧ i < r.1 + r.2

/-- Elements are in order, up to those that one of the ranges holds both. -/
def SortedBetween (le : α → α → Prop) (n : ℕ) (ranges : List (ℕ × ℕ)) (m : ℕ → α) : Prop :=
  ∀ i j, i < j → j < n → (∀ r ∈ ranges, ¬(Holds r i ∧ Holds r j)) → le (m i) (m j)

/-- The ranges are inside of the memory, and no position is in two of them. -/
structure Disjoint (n : ℕ) (ranges : List (ℕ × ℕ)) : Prop where
  inside : ∀ r ∈ ranges, r.1 + r.2 ≤ n
  pairwise : ranges.Pairwise fun r s => ∀ i, ¬(Holds r i ∧ Holds s i)

theorem Disjoint.refine {n : ℕ} {r : ℕ × ℕ} {ranges : List (ℕ × ℕ)}
    (h : Disjoint n (r :: ranges)) (split : List (ℕ × ℕ))
    (hsplit : ∀ s ∈ split, r.1 ≤ s.1 ∧ s.1 + s.2 ≤ r.1 + r.2)
    (hpairwise : split.Pairwise fun r s => ∀ i, ¬(Holds r i ∧ Holds s i)) :
    Disjoint n (split ++ ranges) := by
  obtain ⟨hrest, htail⟩ := List.pairwise_cons.1 h.pairwise
  refine ⟨fun s hs => ?_, List.pairwise_append.2 ⟨hpairwise, htail, fun s hs t ht i => ?_⟩⟩
  · rcases List.mem_append.1 hs with hs | hs
    · exact Nat.le_trans (hsplit s hs).2 (h.inside r List.mem_cons_self)
    · exact h.inside s (List.mem_cons_of_mem r hs)
  · rintro ⟨hsi, hti⟩
    refine hrest t ht i ⟨?_, hti⟩
    have := hsplit s hs
    rw [Holds] at hsi ⊢
    omega

theorem SortedBetween.refine {le : α → α → Prop} {n : ℕ} {r : ℕ × ℕ} {ranges : List (ℕ × ℕ)}
    (h : SortedBetween le n (r :: ranges) m) (hdisjoint : Disjoint n (r :: ranges))
    (split : List (ℕ × ℕ))
    (hm : Rearranged r.1 (r.1 + r.2) m m₁)
    (hsplit : ∀ i j, i < j → Holds r i → Holds r j → (∀ s ∈ split, ¬(Holds s i ∧ Holds s j)) →
      le (m₁ i) (m₁ j)) : SortedBetween le n (split ++ ranges) m₁ := by
  intro i j hij hj hranges
  have hinside := hdisjoint.inside r List.mem_cons_self
  have hother : ∀ k, Holds r k → ∀ s ∈ ranges, ¬Holds s k := fun k hk s hs hsk =>
    (List.pairwise_cons.1 hdisjoint.pairwise).1 s hs k ⟨hk, hsk⟩
  by_cases hri : Holds r i
  · by_cases hrj : Holds r j
    · exact hsplit i j hij hri hrj fun s hs => hranges s (List.mem_append_left _ hs)
    obtain ⟨k, hk, heq⟩ := hm.of_inside hri
    have hk : Holds r k := hk
    rw [heq, hm.of_outside hrj]
    rw [Holds] at hri hrj hk
    refine h k j (by omega) hj fun s hs => ?_
    rintro ⟨hsk, hsj⟩
    rcases List.mem_cons.1 hs with rfl | hs
    · exact hrj hsj
    · exact hother k hk s hs hsk
  by_cases hrj : Holds r j
  · obtain ⟨k, hk, heq⟩ := hm.of_inside hrj
    have hk : Holds r k := hk
    rw [heq, hm.of_outside hri]
    rw [Holds] at hri hrj hk
    refine h i k (by omega) (by omega) fun s hs => ?_
    rintro ⟨hsi, hsk⟩
    rcases List.mem_cons.1 hs with rfl | hs
    · exact hri hsi
    · exact hother k hk s hs hsk
  · rw [hm.of_outside hri, hm.of_outside hrj]
    refine h i j hij hj fun s hs => ?_
    rcases List.mem_cons.1 hs with rfl | hs
    · exact fun h => hri h.1
    · exact hranges s (List.mem_append_right _ hs)

end Rearrange
