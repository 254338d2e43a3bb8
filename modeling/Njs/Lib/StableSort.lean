import Mathlib.Data.List.Nodup

/-!
# Sorting with positions

A sort that need not be stable sorts stably if the elements carry their positions and ties are
broken by them.
-/

namespace StableSort

open List List.MergeSort.Internal

variable {α : Type} {le : α → α → Bool}

theorem zipIdxLE_antisymm {a b : α × ℕ} (hab : zipIdxLE le a b) (hba : zipIdxLE le b a) :
    a.2 = b.2 := by
  rw [zipIdxLE] at hab hba
  by_cases hle : le a.1 b.1
  · by_cases hge : le b.1 a.1
    · rw [if_pos hle, if_pos hge, decide_eq_true_eq] at hab
      rw [if_pos hge, if_pos hle, decide_eq_true_eq] at hba
      omega
    · rw [if_neg hge] at hba
      exact absurd hba Bool.false_ne_true
  · rw [if_neg hle] at hab
    exact absurd hab Bool.false_ne_true

theorem zipIdxLE_positions {s : List (α × ℕ)} (hs : s.Pairwise fun a b => a.2 < b.2)
    {a b : (α × ℕ) × ℕ} (ha : a ∈ s.zipIdx) (hb : b ∈ s.zipIdx) :
    zipIdxLE le a.1 b.1 = zipIdxLE le (a.1.1, a.2) (b.1.1, b.2) := by
  obtain ⟨x, i⟩ := a
  obtain ⟨y, j⟩ := b
  obtain ⟨hi, hx⟩ := List.mem_zipIdx' ha
  obtain ⟨hj, hy⟩ := List.mem_zipIdx' hb
  have hpos : x.2 ≤ y.2 ↔ i ≤ j := by
    rw [hx, hy]
    rw [List.pairwise_iff_getElem] at hs
    rcases Nat.lt_trichotomy i j with hij | rfl | hij
    · have := hs i j hi hj hij
      omega
    · simp
    · have := hs j i hj hi hij
      omega
  simp only [zipIdxLE, hpos]

theorem mergeSort_positions {s : List (α × ℕ)} (hs : s.Pairwise fun a b => a.2 < b.2) :
    (s.mergeSort (zipIdxLE le)).map Prod.fst = (s.map Prod.fst).mergeSort le := by
  have hfst := map_mergeSort (f := Prod.fst) (l := s.zipIdx)
    (r := fun a b => zipIdxLE le a.1 b.1) (s := zipIdxLE le) fun _ _ _ _ => rfl
  have hpos := map_mergeSort (f := fun p : (α × ℕ) × ℕ => (p.1.1, p.2)) (l := s.zipIdx)
    (r := fun a b => zipIdxLE le a.1 b.1) (s := zipIdxLE le)
    fun a ha b hb => zipIdxLE_positions hs ha hb
  have hzip : s.zipIdx.map (fun p : (α × ℕ) × ℕ => (p.1.1, p.2)) = (s.map Prod.fst).zipIdx := by
    rw [List.zipIdx_map]
    rfl
  rw [List.zipIdx_map_fst] at hfst
  rw [hzip] at hpos
  rw [← hfst, ← mergeSort_zipIdx (l := s.map Prod.fst), ← hpos, List.map_map, List.map_map]
  rfl

theorem map_fst_eq_mergeSort (htrans : ∀ a b c, le a b → le b c → le a c)
    (htotal : ∀ a b, le a b || le b a) {s s' : List (α × ℕ)}
    (hs : s.Pairwise fun a b => a.2 < b.2) (hperm : s'.Perm s)
    (hsorted : s'.Pairwise fun a b => zipIdxLE le a b) :
    s'.map Prod.fst = (s.map Prod.fst).mergeSort le := by
  have heq : s' = s.mergeSort (zipIdxLE le) := by
    refine List.Perm.eq_of_pairwise ?_ hsorted
      (pairwise_mergeSort (zipIdxLE_trans htrans) (zipIdxLE_total htotal) s)
      (hperm.trans (mergeSort_perm s _).symm)
    intro a b ha hb hab hba
    have hpos := zipIdxLE_antisymm hab hba
    have hnodup : (s.map Prod.snd).Nodup := by
      rw [List.Nodup, List.pairwise_map]
      exact hs.imp fun h => Nat.ne_of_lt h
    exact List.inj_on_of_nodup_map hnodup (hperm.subset ha) (mem_mergeSort.1 hb) hpos
  rw [heq, mergeSort_positions hs]

end StableSort
