import Mathlib.Data.List.Basic

/-!
# Resumable machines

A machine that reads its input symbol by symbol, and that may be stopped at the end of a buffer
and resumed at the beginning of the next one.
-/

namespace Resumable

variable {S A B : Type*}

/-- What a machine says: it needs more input, it is done, or the input is refused. -/
inductive Verdict (S A : Type*)
  | more (s : S)
  | done (a : A)
  | fail

/-- The same verdict with another state. -/
def Verdict.map {S' : Type*} (f : S → S') : Verdict S A → Verdict S' A
  | .more s => .more (f s)
  | .done a => .done a
  | .fail => .fail

@[simp] theorem Verdict.map_more {S' : Type*} (f : S → S') (s : S) :
    (Verdict.more s : Verdict S A).map f = .more (f s) := rfl

@[simp] theorem Verdict.map_done {S' : Type*} (f : S → S') (a : A) :
    (Verdict.done a : Verdict S A).map f = .done a := rfl

@[simp] theorem Verdict.map_fail {S' : Type*} (f : S → S') :
    (Verdict.fail : Verdict S A).map f = .fail := rfl

/-- Reading a buffer, with what is left of it. -/
def feed (step : S → B → Verdict S A) : S → List B → Verdict S A × List B
  | s, [] => (.more s, [])
  | s, b :: u =>
    match step s b with
    | .more s => feed step s u
    | .done a => (.done a, u)
    | .fail => (.fail, u)

/-- Reading one buffer after the other, with a machine that reads a buffer at a time. -/
def drive (read : S → List B → Verdict S A) : S → List (List B) → Verdict S A
  | s, [] => .more s
  | s, u :: us =>
    match read s u with
    | .more s => drive read s us
    | .done a => .done a
    | .fail => .fail

/-- The texts that a machine reads completely, with what it is done with. -/
def Accepts (step : S → B → Verdict S A) : S → List B → A → Prop
  | _, [], _ => False
  | s, b :: u, a =>
    match step s b with
    | .more s => Accepts step s u a
    | .done a' => u = [] ∧ a' = a
    | .fail => False

variable {step : S → B → Verdict S A}

/-! ### Buffers -/

theorem feed_append (s : S) (u t : List B) : feed step s (u ++ t) =
      match feed step s u with
      | (.more s, _) => feed step s t
      | (.done a, r) => (.done a, r ++ t)
      | (.fail, r) => (.fail, r ++ t) := by
  induction u generalizing s with
  | nil => rfl
  | cons b u ih =>
    rw [List.cons_append, feed, feed]
    cases step s b with
    | more s => exact ih s
    | done a => rfl
    | fail => rfl

theorem drive_feed (s : S) (us : List (List B)) :
    drive (fun s u => (feed step s u).1) s us = (feed step s us.flatten).1 := by
  induction us generalizing s with
  | nil => rfl
  | cons u us ih =>
    rw [drive, List.flatten_cons, feed_append]
    rcases feed step s u with ⟨s' | a | _, r⟩
    · exact ih s'
    · rfl
    · rfl

variable {s : S} {u : List B} {a : A}

theorem drive_map {S' : Type*} (f : S → S') {read : S → List B → Verdict S A}
    {read' : S' → List B → Verdict S' A} {I : S → Prop}
    (hinv : ∀ s u s', I s → read s u = .more s' → I s')
    (h : ∀ s u, I s → read' (f s) u = (read s u).map f) (hs : I s) (us : List (List B)) :
    drive read' (f s) us = (drive read s us).map f := by
  induction us generalizing s with
  | nil => rfl
  | cons u us ih =>
    rw [drive, drive, h s u hs]
    cases hread : read s u with
    | more s' => exact ih (hinv s u s' hs hread)
    | done a => rfl
    | fail => rfl

/-! ### Acceptance -/

theorem accepts_more {s' : S} {b : B} (h : step s b = .more s') :
    Accepts step s (b :: u) a ↔ Accepts step s' u a := by
  rw [Accepts, h]

theorem accepts_done {b : B} {a' : A} (h : step s b = .done a') :
    Accepts step s (b :: u) a ↔ u = [] ∧ a' = a := by
  rw [Accepts, h]

theorem not_accepts_fail {b : B} (h : step s b = .fail) : ¬ Accepts step s (b :: u) a := by
  rw [Accepts, h]
  exact id

theorem accepts_literal [DecidableEq B] {s' : S} {c : B}
    (h : ∀ b, step s b = if b = c then .more s' else .fail) {v : List B} :
    Accepts step s v a ↔ ∃ u, v = c :: u ∧ Accepts step s' u a := by
  cases v with
  | nil => simp [Accepts]
  | cons b u =>
    by_cases hb : b = c
    · rw [accepts_more ((h b).trans (if_pos hb))]
      simp [hb]
    · simp [not_accepts_fail ((h b).trans (if_neg hb)), hb]

theorem accepts_last [DecidableEq B] {c : B} {a' : A}
    (h : ∀ b, step s b = if b = c then .done a' else .fail) {v : List B} :
    Accepts step s v a ↔ v = [c] ∧ a' = a := by
  cases v with
  | nil => simp [Accepts]
  | cons b u =>
    by_cases hb : b = c
    · rw [accepts_done ((h b).trans (if_pos hb))]
      simp [hb]
    · simp [not_accepts_fail ((h b).trans (if_neg hb)), hb]

theorem accepts_append {s : ℕ → S} {P : B → Bool}
    (h : ∀ p b, P b = true → step (s p) b = .more (s (p + 1))) (p : ℕ) {u : List B}
    (hu : u.all P = true) {v : List B} {a : A} :
    Accepts step (s p) (u ++ v) a ↔ Accepts step (s (p + u.length)) v a := by
  induction u generalizing p with
  | nil => rfl
  | cons b u ih =>
    rw [List.all_cons, Bool.and_eq_true] at hu
    rw [List.cons_append, accepts_more (h p b hu.1), ih _ hu.2, List.length_cons, Nat.add_assoc,
      Nat.add_comm 1]

theorem accepts_replicate [DecidableEq B] {s : ℕ → S} {c : B}
    (h : ∀ p, step (s p) c = .more (s (p + 1))) (p k : ℕ) {v : List B} {a : A} :
    Accepts step (s p) (List.replicate k c ++ v) a ↔ Accepts step (s (p + k)) v a := by
  have hrun := accepts_append (P := fun b => decide (b = c)) (s := s)
    (fun q b hb => by rw [of_decide_eq_true hb]; exact h q) p (u := List.replicate k c) (by simp)
    (v := v) (a := a)
  rwa [List.length_replicate] at hrun

theorem exists_replicate_append (c : B) (v : List B) :
    ∃ k u, v = List.replicate k c ++ u ∧ u.head? ≠ some c := by
  induction v with
  | nil => exact ⟨0, [], rfl, by simp⟩
  | cons b v ih =>
    by_cases hb : b = c
    · obtain ⟨k, u, rfl, hu⟩ := ih
      exact ⟨k + 1, u, by rw [hb]; rfl, hu⟩
    · exact ⟨0, b :: v, rfl, by simpa using hb⟩

theorem feed_eq_done_iff {r : List B} :
    feed step s u = (.done a, r) ↔ ∃ v, u = v ++ r ∧ Accepts step s v a := by
  induction u generalizing s with
  | nil =>
    constructor
    · intro h
      exact absurd (congrArg Prod.fst h) (by simp [feed])
    · rintro ⟨v, hv, haccepts⟩
      obtain ⟨rfl, -⟩ := List.append_eq_nil_iff.mp hv.symm
      exact haccepts.elim
  | cons b u ih =>
    rw [feed]
    constructor
    · intro h
      cases hstep : step s b with
      | more s' =>
        rw [hstep] at h
        obtain ⟨v, rfl, haccepts⟩ := ih.mp h
        exact ⟨b :: v, rfl, (accepts_more hstep).mpr haccepts⟩
      | done a' =>
        rw [hstep] at h
        obtain ⟨ha, rfl⟩ := Prod.mk.inj h
        exact ⟨[b], rfl, (accepts_done hstep).mpr ⟨rfl, Verdict.done.inj ha⟩⟩
      | fail =>
        rw [hstep] at h
        exact absurd (congrArg Prod.fst h) (by simp)
    · rintro ⟨v, hv, haccepts⟩
      cases v with
      | nil => exact haccepts.elim
      | cons b' v =>
        obtain ⟨rfl, rfl⟩ := List.cons.inj hv
        cases hstep : step s b with
        | more s' => exact ih.mpr ⟨v, rfl, (accepts_more hstep).mp haccepts⟩
        | done a' =>
          obtain ⟨rfl, rfl⟩ := (accepts_done hstep).mp haccepts
          rfl
        | fail => exact absurd haccepts (not_accepts_fail hstep)

theorem feed_done_iff {s : S} {u : List B} {a : A} :
    (feed step s u).1 = .done a ↔ ∃ v r, u = v ++ r ∧ Accepts step s v a := by
  constructor
  · intro h
    obtain ⟨v, hv, haccepts⟩ := feed_eq_done_iff.mp (Prod.ext h rfl)
    exact ⟨v, _, hv, haccepts⟩
  · rintro ⟨v, r, hv, haccepts⟩
    exact congrArg Prod.fst (feed_eq_done_iff.mpr ⟨v, hv, haccepts⟩)

theorem feed_inv {I : S → Prop} (hinv : ∀ s b s', I s → step s b = .more s' → I s') {s' : S}
    (hs : I s) (h : (feed step s u).1 = .more s') : I s' := by
  induction u generalizing s with
  | nil =>
    cases h
    exact hs
  | cons b u ih =>
    rw [feed] at h
    cases hstep : step s b with
    | more t =>
      rw [hstep] at h
      exact ih (hinv s b t hs hstep) h
    | done a =>
      rw [hstep] at h
      cases h
    | fail =>
      rw [hstep] at h
      cases h

theorem feed_fail_iff {I : S → Prop} (hinv : ∀ s b s', I s → step s b = .more s' → I s')
    (hlive : ∀ s, I s → ∃ v a, Accepts step s v a) {s : S} (hs : I s) (u : List B) :
    (feed step s u).1 = .fail ↔ ∀ t v r a, u ++ t = v ++ r → ¬ Accepts step s v a := by
  constructor
  · intro h t v r a hv haccepts
    have hdone := (feed_done_iff (u := u ++ t)).mpr ⟨v, r, hv, haccepts⟩
    rw [feed_append] at hdone
    rcases hfeed : feed step s u with ⟨s' | a' | _, q⟩
    · rw [hfeed] at h
      cases h
    · rw [hfeed] at h
      cases h
    · rw [hfeed] at hdone
      cases hdone
  intro hno
  cases hfeed : (feed step s u).1 with
  | more s' =>
    obtain ⟨v, a, haccepts⟩ := hlive s' (feed_inv hinv hs hfeed)
    have hdone : (feed step s (u ++ v)).1 = .done a := by
      rw [feed_append]
      rcases hpair : feed step s u with ⟨w, q⟩
      obtain rfl : w = .more s' := by rw [← hfeed, hpair]
      exact feed_done_iff.mpr ⟨v, [], (List.append_nil v).symm, haccepts⟩
    obtain ⟨v', r, hv, haccepts'⟩ := feed_done_iff.mp hdone
    exact absurd haccepts' (hno v v' r a hv)
  | done a =>
    obtain ⟨v, r, hv, haccepts⟩ := feed_done_iff.mp hfeed
    exact absurd haccepts (hno [] v r a (by rw [List.append_nil, hv]))
  | fail => rfl

end Resumable
