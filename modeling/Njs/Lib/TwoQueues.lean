import Mathlib.Data.List.Nodup

/-!
# Elements in two intrusive queues

An element of an intrusive queue is in one queue at most: removing it does not name the queue.
Here two queues share elements, such as the slots of a pool that are in use and those that are free.
-/

/-- Two queues, from the head on. -/
structure TwoQueues (α : Type*) where
  first : List α
  second : List α

namespace TwoQueues

variable {α : Type*}

/-- Insert an element at the head of the first queue. -/
def pushFirst (q : α) (s : TwoQueues α) : TwoQueues α := ⟨q :: s.first, s.second⟩

/-- Insert an element at the head of the second queue. -/
def pushSecond (q : α) (s : TwoQueues α) : TwoQueues α := ⟨s.first, q :: s.second⟩

def remove [DecidableEq α] (q : α) (s : TwoQueues α) : TwoQueues α :=
  ⟨s.first.erase q, s.second.erase q⟩

/-- The two queues hold the elements of a set, every one of them once. -/
structure Holds (s : TwoQueues α) (all : α → Prop) : Prop where
  nodup : (s.first ++ s.second).Nodup
  mem_iff : ∀ q, q ∈ s.first ∨ q ∈ s.second ↔ all q

variable {s : TwoQueues α} {all : α → Prop} {p q : α}

@[simp] theorem pushFirst_first : (s.pushFirst q).first = q :: s.first := rfl
@[simp] theorem pushFirst_second : (s.pushFirst q).second = s.second := rfl
@[simp] theorem pushSecond_first : (s.pushSecond q).first = s.first := rfl
@[simp] theorem pushSecond_second : (s.pushSecond q).second = q :: s.second := rfl

namespace Holds

theorem nodup_first (h : s.Holds all) : s.first.Nodup := h.nodup.of_append_left

theorem nodup_second (h : s.Holds all) : s.second.Nodup := h.nodup.of_append_right

theorem notMem_second (h : s.Holds all) (hq : q ∈ s.first) : q ∉ s.second :=
  List.disjoint_of_nodup_append h.nodup hq

theorem congr {all' : α → Prop} (h : s.Holds all) (heq : ∀ q, all q ↔ all' q) : s.Holds all' :=
  ⟨h.nodup, fun q => (h.mem_iff q).trans (heq q)⟩

theorem pushFirst (h : s.Holds all) (hq : ¬ all q) :
    (s.pushFirst q).Holds fun p => p = q ∨ all p := by
  rw [← h.mem_iff] at hq
  refine ⟨?_, fun p => ?_⟩
  · rw [pushFirst_first, pushFirst_second, List.cons_append, List.nodup_cons, List.mem_append]
    exact ⟨hq, h.nodup⟩
  · rw [pushFirst_first, pushFirst_second, List.mem_cons, ← h.mem_iff]
    tauto

theorem pushSecond (h : s.Holds all) (hq : ¬ all q) :
    (s.pushSecond q).Holds fun p => p = q ∨ all p := by
  rw [← h.mem_iff] at hq
  refine ⟨?_, fun p => ?_⟩
  · rw [pushSecond_first, pushSecond_second, List.nodup_append_comm, List.cons_append,
      List.nodup_cons, List.mem_append, List.nodup_append_comm]
    exact ⟨fun h' => hq h'.symm, h.nodup⟩
  · rw [pushSecond_first, pushSecond_second, List.mem_cons, ← h.mem_iff]
    tauto

end Holds

/-! ### Moving an element -/

section Remove

variable [DecidableEq α]

@[simp] theorem remove_first : (s.remove q).first = s.first.erase q := rfl
@[simp] theorem remove_second : (s.remove q).second = s.second.erase q := rfl

namespace Holds

theorem remove (h : s.Holds all) (q : α) : (s.remove q).Holds fun p => all p ∧ p ≠ q := by
  refine ⟨?_, fun p => ?_⟩
  · exact h.nodup.sublist (List.Sublist.append List.erase_sublist List.erase_sublist)
  · rw [remove_first, remove_second, h.nodup_first.mem_erase_iff, h.nodup_second.mem_erase_iff,
      ← h.mem_iff]
    tauto

theorem count (h : s.Holds all) (hq : all q) : (s.first ++ s.second).count q = 1 :=
  List.count_eq_one_of_mem h.nodup (List.mem_append.mpr ((h.mem_iff q).mpr hq))

end Holds

end Remove

end TwoQueues
