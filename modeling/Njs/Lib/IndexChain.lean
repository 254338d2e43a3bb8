import Mathlib.Data.List.Nodup

/-!
# Linked lists in an array

A linked list whose links are indices into an array: the link `0` ends the list, and the link
`i + 1` leads to the element `i`, whose own link is `next i`. `Chain next n l` says that the list
from the link `n` on visits the elements `l`.
-/

namespace IndexChain

/-- The list from the link `n` on visits the elements `l`. -/
inductive Chain (next : ℕ → ℕ) : ℕ → List ℕ → Prop
  | nil : Chain next 0 []
  | cons {i : ℕ} {l : List ℕ} : Chain next (next i) l → Chain next (i + 1) (i :: l)

namespace Chain

variable {next next' : ℕ → ℕ} {n i : ℕ} {l : List ℕ}

theorem eq_nil (h : Chain next 0 l) : l = [] := by
  cases h
  rfl

theorem exists_cons (h : Chain next (i + 1) l) : ∃ t, l = i :: t ∧ Chain next (next i) t := by
  cases h with
  | cons h => exact ⟨_, rfl, h⟩

theorem of_cons (h : Chain next n (i :: l)) : n = i + 1 ∧ Chain next (next i) l := by
  cases h with
  | cons h => exact ⟨rfl, h⟩

theorem congr (h : Chain next n l) (hnext : ∀ i ∈ l, next' i = next i) : Chain next' n l := by
  induction h with
  | nil => exact .nil
  | cons h ih =>
    refine .cons ?_
    rw [hnext _ List.mem_cons_self]
    exact ih fun i hi => hnext i (List.mem_cons_of_mem _ hi)

theorem link (h : Chain next n l) (hi : i ∉ l) :
    Chain (Function.update next i n) (i + 1) (i :: l) := by
  refine .cons ?_
  rw [Function.update_self]
  refine h.congr fun j hj => Function.update_of_ne ?_ _ _
  rintro rfl
  exact hi hj

theorem unlink {l₁ l₂ : List ℕ} {p : ℕ} (h : Chain next n (l₁ ++ p :: i :: l₂))
    (hn : (l₁ ++ p :: i :: l₂).Nodup) :
    Chain (Function.update next p (next i)) n (l₁ ++ p :: l₂) := by
  induction l₁ generalizing n with
  | nil =>
    obtain ⟨rfl, hp⟩ := h.of_cons
    obtain ⟨-, hi⟩ := hp.of_cons
    refine .cons ?_
    rw [Function.update_self]
    refine hi.congr fun j hj => Function.update_of_ne ?_ _ _
    rintro rfl
    exact (List.nodup_cons.mp hn).1 (List.mem_cons_of_mem _ hj)
  | cons a l₁ ih =>
    obtain ⟨rfl, hl⟩ := h.of_cons
    obtain ⟨ha, hn⟩ := List.nodup_cons.mp hn
    refine .cons ?_
    have hne : a ≠ p := by
      rintro rfl
      exact ha (by simp)
    rw [Function.update_of_ne hne]
    exact ih hl hn

theorem snoc {l : List ℕ} {p : ℕ} (h : Chain next n (l ++ [p])) (hn : (l ++ [p]).Nodup)
    (hi : i ∉ l ++ [p]) (hend : next i = 0) :
    Chain (Function.update next p (i + 1)) n (l ++ [p, i]) := by
  induction l generalizing n with
  | nil =>
    obtain ⟨rfl, -⟩ := h.of_cons
    have hne : i ≠ p := fun heq => hi (heq ▸ List.mem_cons_self)
    refine .cons ?_
    rw [Function.update_self]
    refine .cons ?_
    rw [Function.update_of_ne hne, hend]
    exact .nil
  | cons a l ih =>
    obtain ⟨rfl, hl⟩ := h.of_cons
    obtain ⟨ha, hn⟩ := List.nodup_cons.mp hn
    have hne : a ≠ p := by
      rintro rfl
      exact ha (by simp)
    refine .cons ?_
    rw [Function.update_of_ne hne]
    exact ih hl hn fun hmem => hi (List.mem_cons_of_mem a hmem)

end Chain

/-! ### Indices in descending order -/

/-- The numbers below a bound, the greatest first. -/
def below : ℕ → List ℕ
  | 0 => []
  | n + 1 => n :: below n

@[simp] theorem mem_below {n i : ℕ} : i ∈ below n ↔ i < n := by
  induction n with
  | zero => simp [below]
  | succ n ih =>
    rw [below, List.mem_cons, ih]
    omega

theorem nodup_below (n : ℕ) : (below n).Nodup := by
  induction n with
  | zero => exact List.nodup_nil
  | succ n ih => exact List.nodup_cons.mpr ⟨by simp, ih⟩

theorem length_below (n : ℕ) : (below n).length = n := by
  induction n with
  | zero => rfl
  | succ n ih => rw [below, List.length_cons, ih]

theorem reverse_below (n : ℕ) : (below n).reverse = List.range n := by
  induction n with
  | zero => rfl
  | succ n ih => rw [below, List.reverse_cons, ih, List.range_succ]

end IndexChain
