import Mathlib.Data.List.Nodup
import Mathlib.Data.List.Pairwise

/-!
# Lists of pairs

A list of pairs of a key and a value, in which keys of one normal form are the same and one key may
have several values.
-/

namespace Multimap

variable {K N V : Type*} [DecidableEq N] (norm : K → N)

def values (k : K) (l : List (K × V)) : List V := (l.filter fun p => norm p.1 = norm k).map Prod.snd

/-- The list without the values of a key. -/
def erase (k : K) (l : List (K × V)) : List (K × V) := l.filter fun p => norm p.1 ≠ norm k

/-- The list with one value for a key, in the place of the first. -/
def set (k : K) (v : V) : List (K × V) → List (K × V)
  | [] => [(k, v)]
  | p :: l => if norm p.1 = norm k then (p.1, v) :: erase norm k l else p :: set k v l

def keys : List (K × V) → List K
  | [] => []
  | p :: l => p.1 :: (keys l).filter fun k => norm k ≠ norm p.1

theorem values_append (k : K) (l₁ l₂ : List (K × V)) :
    values norm k (l₁ ++ l₂) = values norm k l₁ ++ values norm k l₂ := by
  rw [values, List.filter_append, List.map_append]
  rfl

theorem values_cons_of_eq {k : K} {p : K × V} (h : norm p.1 = norm k) (l : List (K × V)) :
    values norm k (p :: l) = p.2 :: values norm k l := by
  rw [values, List.filter_cons_of_pos (by simpa using h), List.map_cons]
  rfl

variable {l : List (K × V)}

theorem values_eq_nil {k : K} : values norm k l = [] ↔ ∀ p ∈ l, norm p.1 ≠ norm k := by
  simp [values, List.filter_eq_nil_iff]

theorem erase_of_values_eq_nil {k : K} (h : values norm k l = []) : erase norm k l = l :=
  List.filter_eq_self.mpr fun p hp => decide_eq_true ((values_eq_nil norm).mp h p hp)

theorem set_of_values_eq_nil {k : K} (v : V) (h : values norm k l = []) :
    set norm k v l = l ++ [(k, v)] := by
  rw [values_eq_nil] at h
  induction l with
  | nil => rfl
  | cons p l ih =>
    rw [set, if_neg (h p List.mem_cons_self), ih fun q hq => h q (List.mem_cons_of_mem p hq),
      List.cons_append]

theorem set_middle {k : K} {l₁ l₂ : List (K × V)} {p : K × V} (v : V)
    (h₁ : values norm k l₁ = []) (hp : norm p.1 = norm k) (h₂ : values norm k l₂ = []) :
    set norm k v (l₁ ++ p :: l₂) = l₁ ++ (p.1, v) :: l₂ := by
  rw [values_eq_nil] at h₁
  induction l₁ with
  | nil => rw [List.nil_append, set, if_pos hp, erase_of_values_eq_nil norm h₂, List.nil_append]
  | cons q l₁ ih =>
    rw [List.cons_append, set, if_neg (h₁ q List.mem_cons_self),
      ih fun r hr => h₁ r (List.mem_cons_of_mem q hr), List.cons_append]

/-! ### Keys -/

theorem mem_keys_norm {n : N} : (∃ k ∈ keys norm l, norm k = n) ↔ ∃ p ∈ l, norm p.1 = n := by
  induction l with
  | nil => simp [keys]
  | cons p l ih =>
    by_cases hp : norm p.1 = n
    · exact ⟨fun _ => ⟨p, List.mem_cons_self, hp⟩, fun _ => ⟨p.1, List.mem_cons_self, hp⟩⟩
    constructor
    · rintro ⟨k, hk, hn⟩
      obtain rfl | hk := List.mem_cons.mp hk
      · exact absurd hn hp
      · obtain ⟨q, hq, hqn⟩ := ih.mp ⟨k, (List.mem_filter.mp hk).1, hn⟩
        exact ⟨q, List.mem_cons_of_mem p hq, hqn⟩
    rintro ⟨q, hq, hqn⟩
    obtain rfl | hq := List.mem_cons.mp hq
    · exact absurd hqn hp
    · obtain ⟨k, hk, hkn⟩ := ih.mpr ⟨q, hq, hqn⟩
      refine ⟨k, List.mem_cons_of_mem _ (List.mem_filter.mpr ⟨hk, ?_⟩), hkn⟩
      rw [hkn]
      exact decide_eq_true (Ne.symm hp)

theorem keys_subset (l : List (K × V)) : keys norm l ⊆ l.map Prod.fst := by
  induction l with
  | nil => exact List.nil_subset _
  | cons p l ih =>
    intro k hk
    obtain rfl | hk := List.mem_cons.mp hk
    · exact List.mem_cons_self
    · exact List.mem_cons_of_mem _ (ih (List.mem_filter.mp hk).1)

theorem keys_pairwise (l : List (K × V)) : (keys norm l).Pairwise fun a b => norm a ≠ norm b := by
  induction l with
  | nil => exact List.Pairwise.nil
  | cons p l ih =>
    refine List.pairwise_cons.mpr ⟨fun k hk => ?_, ih.filter _⟩
    exact (of_decide_eq_true (List.mem_filter.mp hk).2).symm

theorem foldl_push (l : List (K × V)) (acc : List K) :
    l.foldl (fun acc p => if ∃ k ∈ acc, norm k = norm p.1 then acc else acc ++ [p.1]) acc =
      acc ++ (keys norm l).filter fun k => ∀ a ∈ acc, norm a ≠ norm k := by
  induction l generalizing acc with
  | nil => simp [keys]
  | cons p l ih =>
    rw [List.foldl_cons, ih, keys]
    split_ifs with h
    · obtain ⟨a, ha, hap⟩ := h
      have hp : ¬∀ a ∈ acc, norm a ≠ norm p.1 := fun hall => hall a ha hap
      rw [List.filter_cons_of_neg (by simpa using hp), List.filter_filter]
      refine congrArg (acc ++ ·) (List.filter_congr fun k _ => ?_)
      by_cases hk : ∀ b ∈ acc, norm b ≠ norm k
      · have hne : norm k ≠ norm p.1 := fun heq => hk a ha (hap.trans heq.symm)
        simp [hne]
      · simp [hk]
    have hp : ∀ a ∈ acc, norm a ≠ norm p.1 := fun a ha hap => h ⟨a, ha, hap⟩
    rw [List.filter_cons_of_pos (by simpa using hp), List.filter_filter, List.append_assoc,
      List.singleton_append]
    refine congrArg (acc ++ p.1 :: ·) (List.filter_congr fun k _ => ?_)
    by_cases hk : ∀ b ∈ acc, norm b ≠ norm k
    · simp [or_imp, forall_and, eq_comm]
    · simp [hk, or_imp, forall_and]

end Multimap
