import Mathlib.Data.List.Nodup

/-!
# Chains

Links from each place to at most one other, such that every chain of links ends.
-/

/-- Links that end. -/
structure Chains (ι : Type*) where
  next : ι → Option ι
  /-- The places behind one, the nearest first. -/
  behind : ι → List ι
  behind_eq (i : ι) : behind i = (next i).elim [] fun j => j :: behind j

namespace Chains

variable {ι : Type*} (C : Chains ι)

theorem length_behind_lt {n : ℕ} {i j : ι} (hn : (C.behind i).length = n) (hj : j ∈ C.behind i) :
    (C.behind j).length < n := by
  induction n generalizing i with
  | zero =>
    rw [List.length_eq_zero_iff] at hn
    rw [hn] at hj
    cases hj
  | succ n ih =>
    have heq := C.behind_eq i
    cases hnext : C.next i with
    | none =>
      rw [hnext, Option.elim_none] at heq
      rw [heq] at hj
      cases hj
    | some next =>
      rw [hnext, Option.elim_some] at heq
      have hlength : (C.behind next).length = n := by
        rw [heq, List.length_cons] at hn
        omega
      rw [heq] at hj
      rcases List.mem_cons.mp hj with rfl | hj
      · omega
      · have := ih hlength hj
        omega

theorem notMem_behind (i : ι) : i ∉ C.behind i :=
  fun h => Nat.lt_irrefl _ (C.length_behind_lt rfl h)

theorem nodup {n : ℕ} (i : ι) (hn : (C.behind i).length = n) : (C.behind i).Nodup := by
  induction n generalizing i with
  | zero =>
    rw [List.length_eq_zero_iff.mp hn]
    exact List.nodup_nil
  | succ n ih =>
    have heq := C.behind_eq i
    cases hnext : C.next i with
    | none =>
      rw [hnext, Option.elim_none] at heq
      rw [heq]
      exact List.nodup_nil
    | some next =>
      rw [hnext, Option.elim_some] at heq
      rw [heq, List.length_cons] at hn
      rw [heq]
      exact List.nodup_cons.mpr ⟨C.notMem_behind next, ih next (by omega)⟩

section WriteBack

variable {ι α β : Type*} [DecidableEq ι]

/-- New contents for the places of a list. -/
def writeBack (f : ι → α) : List ι → List α → ι → α
  | i :: is, a :: as => Function.update (writeBack f is as) i a
  | _, _ => f

theorem writeBack_of_notMem (f : ι → α) {is : List ι} (as : List α) {j : ι} (hj : j ∉ is) :
    writeBack f is as j = f j := by
  induction is generalizing as with
  | nil => rfl
  | cons i is ih =>
    rw [List.mem_cons, not_or] at hj
    cases as with
    | nil => rfl
    | cons a as => rw [writeBack, Function.update_of_ne hj.1, ih as hj.2]

theorem map_writeBack (f : ι → α) {is : List ι} (his : is.Nodup) {as : List α}
    (hlength : as.length = is.length) : is.map (writeBack f is as) = as := by
  induction is generalizing as with
  | nil => exact (List.length_eq_zero_iff.mp hlength).symm
  | cons i is ih =>
    cases as with
    | nil => cases hlength
    | cons a as =>
      rw [List.nodup_cons] at his
      have hrest : is.map (writeBack f (i :: is) (a :: as)) = is.map (writeBack f is as) :=
        List.map_congr_left fun j hj => by
          have hne : j ≠ i := fun h => his.1 (h ▸ hj)
          rw [writeBack, Function.update_of_ne hne]
      rw [List.map_cons, hrest, ih his.2 (Nat.succ.inj hlength), writeBack, Function.update_self]

theorem forall_writeBack_iff (f : ι → α) {is : List ι} (his : is.Nodup) {as : List α}
    (hlength : as.length = is.length) (look : α → β) :
    (∀ j, look (writeBack f is as j) = look (f j)) ↔ as.map look = (is.map f).map look := by
  have hmap := map_writeBack f his hlength
  constructor
  · intro h
    rw [← hmap, List.map_map, List.map_map]
    exact List.map_congr_left fun j _ => h j
  · intro h j
    by_cases hj : j ∈ is
    · rw [← hmap, List.map_map, List.map_map] at h
      exact List.map_inj_left.mp h j hj
    · rw [writeBack_of_notMem f as hj]

end WriteBack

end Chains
