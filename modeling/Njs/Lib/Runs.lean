import Mathlib.Init

/-!
# Runs

States that are reached by steps from a list.
-/

namespace Runs

variable {S A : Type*} (step : S → A → S) (P : S → A → Prop)

/-- Every step of a run satisfies a condition on the state before it. -/
def AllSteps : S → List A → Prop
  | _, [] => True
  | s, a :: l => P s a ∧ AllSteps (step s a) l

variable {step P}

theorem foldl_inv {I : S → Prop} (hinv : ∀ s a, I s → I (step s a)) {s : S} (hs : I s)
    (l : List A) : I (l.foldl step s) := by
  induction l generalizing s with
  | nil => exact hs
  | cons a l ih => exact ih (hinv s a hs)

instance AllSteps.decidable [∀ s a, Decidable (P s a)] :
    ∀ (s : S) (l : List A), Decidable (AllSteps step P s l)
  | _, [] => inferInstanceAs (Decidable True)
  | s, a :: l =>
    haveI := AllSteps.decidable (step s a) l
    inferInstanceAs (Decidable (P s a ∧ AllSteps step P (step s a) l))

theorem foldl_of_allSteps {I : S → Prop} (hinv : ∀ s a, I s → P s a → I (step s a)) {s : S}
    (hs : I s) {l : List A} (hl : AllSteps step P s l) : I (l.foldl step s) := by
  induction l generalizing s with
  | nil => exact hs
  | cons a l ih => exact ih (hinv s a hs hl.1) hl.2

theorem foldl_iff {I G : S → Prop} (hinv : ∀ s a, I s → I (step s a))
    (hgood : ∀ s a, I s → (G (step s a) ↔ G s ∧ P s a)) {s : S} (hs : I s) (l : List A) :
    G (l.foldl step s) ↔ G s ∧ AllSteps step P s l := by
  induction l generalizing s with
  | nil => exact (and_iff_left trivial).symm
  | cons a l ih => rw [List.foldl_cons, ih (hinv s a hs), hgood s a hs, AllSteps, and_assoc]

end Runs
