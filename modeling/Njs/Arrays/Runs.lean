import Njs.Arrays.Arguments
import Njs.Lib.Runs

/-!
# Runs of array methods

The methods run one after the other on a fast array, until one of them leaves what is modelled, and
on the array as the language defines it.
-/

namespace Njs.Arrays

open Simulation NjsArray

variable {V X : Type}

/-- A method with its arguments. -/
inductive Op (V X : Type)
  | push (args : List V)
  | pop
  | shift
  | unshift (args : List V)
  | splice (args : SpliceArguments V X)
  | copyWithin (target start stop : Argument V X)

namespace Op

def fast (junk : NjsArray V → ℕ → Option V) (overflow : BitVec 64) : Op V X → Fast V X (Result V)
  | push args => njsArrayPrototypePush junk args
  | pop => njsArrayPrototypePop junk
  | shift => njsArrayPrototypeShift junk
  | unshift args => njsArrayPrototypeUnshift junk args
  | splice args => njsArrayPrototypeSplice junk overflow args
  | copyWithin target start stop => njsArrayPrototypeCopyWithin junk overflow target start stop

/-- What the method is defined to do, up to the elements that are added without a look at whether
the array is extensible. -/
def elements (lax : Elements.Lax) : Op V X → Prog (Elements V) (Error X) (Result V)
  | push args => Elements.push lax args
  | pop => Elements.pop
  | shift => Elements.shift lax
  | unshift args => Elements.unshift lax args
  | splice args => Elements.splice lax args
  | copyWithin target start stop => Elements.copyWithin lax target start stop

/-- The elements that the code adds without this look: `push` and `unshift` add any, the other
methods fill holes. -/
def fills : Op V X → Elements.Lax
  | push _ | unshift _ => ends
  | _ => moves

/-- No integer argument is `2^63`. -/
def Fits : Op V X → Prop
  | splice args => args.Fits
  | copyWithin target start stop => target.Fits ∧ start.Fits ∧ stop.Fits
  | _ => True

variable {junk : NjsArray V → ℕ → Option V} {overflow : BitVec 64} {a : NjsArray V}

theorem simulates (op : Op V X) (hop : op.Fits) (ha : a.InBounds) :
    Simulates Represents Same (op.fast junk overflow) (op.elements op.fills) a a.elements := by
  cases op with
  | push args => exact simulates_push junk ha args
  | pop => exact simulates_pop junk ha
  | shift => exact simulates_shift junk ha
  | unshift args => exact simulates_unshift junk ha args
  | splice args => exact simulates_splice ha hop
  | copyWithin target start stop =>
    exact simulates_prototypeCopyWithin ha hop.1 hop.2.1 hop.2.2

/-- The method, with what the cast of `2^63` gives instead of it. -/
def replaced (overflow : BitVec 64) : Op V X → Op V X
  | splice .none => splice .none
  | splice (.start start) => splice (.start (start.replaced overflow))
  | splice (.delete start delete items) =>
    splice (.delete (start.replaced overflow) (delete.replaced overflow) items)
  | copyWithin target start stop =>
    copyWithin (target.replaced overflow) (start.replaced overflow) (stop.replaced overflow)
  | op => op

theorem replaced_fits (op : Op V X) : (op.replaced overflow).Fits := by
  rcases op with _ | _ | _ | _ | (_ | x | ⟨x, y, _⟩) | ⟨x, y, z⟩
  · trivial
  · trivial
  · trivial
  · trivial
  · trivial
  · exact x.replaced_fits
  · exact ⟨x.replaced_fits, y.replaced_fits⟩
  · exact ⟨x.replaced_fits, y.replaced_fits, z.replaced_fits⟩

theorem fast_replaced (op : Op V X) :
    (op.replaced overflow).fast junk overflow = op.fast junk overflow := by
  rcases op with _ | _ | _ | _ | (_ | x | ⟨x, y, _⟩) | ⟨x, y, z⟩
  · rfl
  · rfl
  · rfl
  · rfl
  · rfl
  · simp only [replaced, fast, njsArrayPrototypeSplice, njsValueToInteger_replaced]
  · simp only [replaced, fast, njsArrayPrototypeSplice, njsValueToInteger_replaced]
  · simp only [replaced, fast, njsArrayPrototypeCopyWithin, njsValueToInteger_replaced]
    rfl

theorem agreesUnless (op : Op V X) (t : Elements V) :
    AgreesUnless (Refuses op.fills) (op.elements Elements.strict) (op.elements op.fills) t := by
  cases op with
  | push args => exact Elements.agreesUnless_push _ args
  | pop => exact agreesUnless_refl _ t
  | shift => exact Elements.agreesUnless_shift _
  | unshift args => exact Elements.agreesUnless_unshift _ args
  | splice args => exact Elements.agreesUnless_splice _ args
  | copyWithin target start stop => exact Elements.agreesUnless_copyWithin _ target start stop

/-- The language does not refuse an element that the code adds without a look, and no integer
argument is `2^63`. -/
structure Meets (op : Op V X) (t : Elements V) : Prop where
  fits : op.Fits
  added : ∀ e t', exec (op.elements Elements.strict) t = (.error e, t') → ¬Refuses op.fills e t'

theorem Meets.simulates {op : Op V X} (h : op.Meets a.elements) (ha : a.InBounds) :
    Simulates Represents Same (op.fast junk overflow) (op.elements Elements.strict) a
      a.elements := by
  refine (op.simulates h.fits ha).of_exec_eq ?_
  rcases op.agreesUnless a.elements with heq | ⟨e, t', herror, hrefuses⟩
  · exact heq
  · exact absurd hrefuses (h.added e t' herror)

end Op

/-! ### Runs -/

section Runs

variable (junk : NjsArray V → ℕ → Option V) (overflow : BitVec 64)

/-- What the methods return or throw, and the array after each of them, until one of them leaves
what is modelled. -/
def njsRun : List (Op V X) → NjsArray V → List (Except (Error X) (Result V) × NjsArray V)
  | [], _ => []
  | op :: ops, a =>
    match exec (op.fast junk overflow) a with
    | (.ok r, a) => (.ok r, a) :: njsRun ops a
    | (.error (.error e), a) => (.error e, a) :: njsRun ops a
    | (.error .leaves, _) | (.error .outside, _) => []

/-- No access is outside of the allocation, and the elements stay in it. -/
def Safe : List (Op V X) → NjsArray V → Prop
  | [], _ => True
  | op :: ops, a =>
    match exec (op.fast junk overflow) a with
    | (.ok _, a) | (.error (.error _), a) => a.InBounds ∧ Safe ops a
    | (.error .leaves, _) => True
    | (.error .outside, _) => False

/-- The array after a method. -/
def elementsStep (t : Elements V) (op : Op V X) : Elements V :=
  (exec (op.elements Elements.strict) t).2

/-- What the methods are defined to return or throw, and the array after each of them. -/
def elementsRun : List (Op V X) → Elements V → List (Except (Error X) (Result V) × Elements V)
  | [], _ => []
  | op :: ops, t => exec (op.elements Elements.strict) t :: elementsRun ops (elementsStep t op)

variable {a : NjsArray V}

theorem safe_run (ops : List (Op V X)) (ha : a.InBounds) : Safe junk overflow ops a := by
  induction ops generalizing a with
  | nil => trivial
  | cons op ops ih =>
    have hop : Simulates Represents Same ((op.replaced overflow).fast junk overflow) _ a
        a.elements := (op.replaced overflow).simulates op.replaced_fits ha
    rw [op.fast_replaced, Simulates] at hop
    rw [Safe]
    rcases hexec : exec (op.fast junk overflow) a with ⟨r, b⟩
    rw [hexec] at hop
    cases r with
    | ok r =>
      obtain ⟨_, t, -, -, hb⟩ := hop
      exact ⟨hb.inBounds, ih hb.inBounds⟩
    | error stop =>
      cases stop with
      | error e =>
        obtain ⟨t, -, hb⟩ := hop
        exact ⟨hb.inBounds, ih hb.inBounds⟩
      | leaves => trivial
      | outside => exact hop.elim

def SameOutcome (x : Except (Error X) (Result V) × NjsArray V)
    (y : Except (Error X) (Result V) × Elements V) : Prop :=
  x.1 = y.1 ∧ Represents x.2 y.2

theorem agrees_run (ops : List (Op V X)) (ha : a.InBounds)
    (hmeets : Runs.AllSteps elementsStep (fun t op => op.Meets t) a.elements ops) :
    List.Forall₂ SameOutcome (njsRun junk overflow ops a)
      ((elementsRun ops a.elements).take (njsRun junk overflow ops a).length) := by
  induction ops generalizing a with
  | nil => exact .nil
  | cons op ops ih =>
    have hop : Simulates Represents Same (op.fast junk overflow) _ a a.elements :=
      hmeets.1.simulates ha
    have hlater := hmeets.2
    rw [Simulates] at hop
    rw [elementsStep] at hlater
    rw [njsRun, elementsRun, elementsStep]
    rcases hexec : exec (op.fast junk overflow) a with ⟨r, b⟩
    rw [hexec] at hop
    cases r with
    | ok r =>
      obtain ⟨_, t, ht, rfl, hb, rfl⟩ := hop
      rw [ht] at hlater ⊢
      exact .cons ⟨rfl, hb, rfl⟩ (ih hb hlater)
    | error stop =>
      cases stop with
      | error e =>
        obtain ⟨t, ht, hb, rfl⟩ := hop
        rw [ht] at hlater ⊢
        exact .cons ⟨rfl, hb, rfl⟩ (ih hb hlater)
      | leaves => exact .nil
      | outside => exact hop.elim

/-- All runs are safe, and those in which every method meets the condition agree. -/
theorem run_arrays (ops : List (Op V X)) (ha : a.InBounds) : Safe junk overflow ops a ∧
      (Runs.AllSteps elementsStep (fun t op => op.Meets t) a.elements ops →
        List.Forall₂ SameOutcome (njsRun junk overflow ops a)
          ((elementsRun ops a.elements).take (njsRun junk overflow ops a).length)) :=
  ⟨safe_run junk overflow ops ha, agrees_run junk overflow ops ha⟩

def one (extensible : Bool) : NjsArray ℕ := ⟨[some 1, none], 0, 1, extensible⟩

theorem one_inBounds (extensible : Bool) : (one extensible).InBounds :=
  ⟨Int.le_refl 0, by cases extensible <;> decide, by cases extensible <;> decide⟩

theorem run_arrays_one : (one true).InBounds ∧ List.Forall₂ (SameOutcome (X := Empty))
      (njsRun (fun _ _ => none) 0 [.push [2], .shift] (one true))
      ((elementsRun [.push [2], .shift] (one true).elements).take
        (njsRun (X := Empty) (fun _ _ => none) 0 [.push [2], .shift] (one true)).length) := by
  refine ⟨one_inBounds true, (run_arrays _ _ _ (one_inBounds true)).2 ⟨⟨trivial, ?_⟩,
    ⟨trivial, ?_⟩, trivial⟩⟩
  · rintro e t' ⟨⟩
  · rintro e t' ⟨⟩

/-- An array that is not extensible gets an element, and the language throws. -/
theorem push_not_extensible : ¬∀ (a : NjsArray ℕ) (ops : List (Op ℕ Empty)), a.InBounds →
      List.Forall₂ SameOutcome (njsRun (fun _ _ => none) 0 ops a)
        ((elementsRun ops a.elements).take (njsRun (fun _ _ => none) 0 ops a).length) := by
  intro h
  have hrun := h (one false) [.push [2]] (one_inBounds false)
  have hoperation : exec (Op.fast (X := Empty) (fun _ _ => none) 0 (.push [2])) (one false) =
      (.ok (.number 2), ⟨[some 1, some 2, none, none, none, none], 0, 2, false⟩) := rfl
  have hlanguage : (exec (Op.elements (X := Empty) Elements.strict (.push [2]))
      (one false).elements).1 = .error (.notExtensible 1) := rfl
  rw [njsRun, hoperation, elementsRun] at hrun
  cases hrun with
  | cons hfirst _ => exact nomatch hfirst.1.trans hlanguage

end Runs

end Njs.Arrays
