import Mathlib.Data.List.Nodup

/-!
# The order of creation

Keys in the order in which they were last created. A key that goes loses its place, and one that
comes back is the latest.
-/

namespace CreationOrder

variable {α : Type*} [DecidableEq α] {live : α → Bool} {k : α} {l : List α}

/-- The order after a change: `live` tells the keys that there are now, and `k` is the only one
that may be new. -/
def record (live : α → Bool) (k : α) (l : List α) : List α :=
  if live k = true ∧ k ∉ l then l.filter live ++ [k] else l.filter live

theorem record_of_notMem (hk : live k = true) (h : k ∉ l) :
    record live k l = l.filter live ++ [k] :=
  if_pos ⟨hk, h⟩

theorem nodup_record (hl : l.Nodup) : (record live k l).Nodup := by
  rw [record]
  split_ifs with hk
  · refine List.nodup_append.mpr ⟨hl.filter _, List.nodup_singleton k, ?_⟩
    rintro a ha b hb rfl
    rw [List.mem_singleton.mp hb] at ha
    exact hk.2 (List.mem_of_mem_filter ha)
  · exact hl.filter _

theorem mem_record (h : ∀ j, live j = true → j ≠ k → j ∈ l) (j : α) :
    j ∈ record live k l ↔ live j = true := by
  rw [record]
  split_ifs with hk
  · rw [List.mem_append, List.mem_filter, List.mem_singleton]
    constructor
    · rintro (hj | rfl)
      · exact hj.2
      · exact hk.1
    · intro hj
      by_cases hjk : j = k
      · exact .inr hjk
      · exact .inl ⟨h j hj hjk, hj⟩
  · rw [List.mem_filter]
    refine ⟨fun hj => hj.2, fun hj => ⟨?_, hj⟩⟩
    by_cases hjk : j = k
    · subst hjk
      exact not_not.mp fun hnot => hk ⟨hj, hnot⟩
    · exact h j hj hjk

theorem filter_record {p : α → Bool} (h : p k = true → live k = true → k ∈ l) :
    (record live k l).filter p = (l.filter live).filter p := by
  rw [record]
  split_ifs with hk
  · have hp : ¬p k = true := fun hp => hk.2 (h hp hk.1)
    rw [List.filter_append, List.filter_cons_of_neg hp, List.filter_nil, List.append_nil]
  · rfl

end CreationOrder
