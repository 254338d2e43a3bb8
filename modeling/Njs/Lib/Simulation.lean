import Mathlib.Data.List.Basic

/-!
# Simulation of programs

Programs with a state that is kept when they end with an error, and what it means that one of them
does what another one does. The first one may also stop outside of what is modelled, and then it
has to leave a state that the other one knows.
-/

namespace Simulation

variable {σ τ ε α β γ δ ι : Type}

/-- Programs with states `σ` and errors `ε`. -/
abbrev Prog (σ ε α : Type) : Type := ExceptT ε (StateM σ) α

/-- The outcome of a program from a state. -/
def exec (x : Prog σ ε α) (s : σ) : Except ε α × σ := x.run.run s

/-- Why a program stops. -/
inductive Stop (ε : Type)
  /-- It uses memory that it may not use. -/
  | outside
  /-- It goes on with what is not modelled. -/
  | leaves
  | error (e : ε)

/-! ### Outcomes -/

@[simp]
theorem exec_pure (a : α) (s : σ) : exec (pure a : Prog σ ε α) s = (.ok a, s) := rfl

@[simp]
theorem exec_throw (e : ε) (s : σ) : exec (throw e : Prog σ ε α) s = (.error e, s) := rfl

@[simp]
theorem exec_get (s : σ) : exec (get : Prog σ ε σ) s = (.ok s, s) := rfl

@[simp]
theorem exec_set (s t : σ) : exec (set t : Prog σ ε PUnit) s = (.ok ⟨⟩, t) := rfl

@[simp]
theorem exec_modify (f : σ → σ) (s : σ) : exec (modify f : Prog σ ε PUnit) s = (.ok ⟨⟩, f s) := rfl

theorem exec_bind (x : Prog σ ε α) (f : α → Prog σ ε β) (s : σ) : exec (x >>= f) s =
      match exec x s with
      | (.ok a, s') => exec (f a) s'
      | (.error e, s') => (.error e, s') := by
  simp only [exec, ExceptT.run_bind, StateT.run_bind]
  rcases x.run.run s with ⟨r | r, s'⟩ <;> rfl

theorem exec_bind_ok {x : Prog σ ε α} {f : α → Prog σ ε β} {s s' : σ} {a : α}
    (h : exec x s = (.ok a, s')) : exec (x >>= f) s = exec (f a) s' := by
  rw [exec_bind, h]

theorem exec_bind_error {x : Prog σ ε α} {f : α → Prog σ ε β} {s s' : σ} {e : ε}
    (h : exec x s = (.error e, s')) : exec (x >>= f) s = (.error e, s') := by
  rw [exec_bind, h]

/-! ### Simulation -/

/-- The outcome of the first program is related to that of the second one: results by `Q`, and the
states after an error by `R`. -/
def Simulates (R : σ → τ → Prop) (Q : α → β → σ → τ → Prop) (x : Prog σ (Stop ε) α)
    (y : Prog τ ε β) (s : σ) (t : τ) : Prop :=
  match exec x s with
  | (.ok a, s') => ∃ b t', exec y t = (.ok b, t') ∧ Q a b s' t'
  | (.error (.error e), s') => ∃ t', exec y t = (.error e, t') ∧ R s' t'
  | (.error .leaves, s') => ∃ t', R s' t'
  | (.error .outside, _) => False

variable {R : σ → τ → Prop} {Q Q' : α → β → σ → τ → Prop} {P : γ → δ → σ → τ → Prop}
  {x : Prog σ (Stop ε) α} {y : Prog τ ε β} {s s' : σ} {t t' : τ}

theorem simulates_pure {a : α} {b : β} (h : Q a b s t) :
    Simulates R Q (pure a : Prog σ (Stop ε) α) (pure b) s t :=
  ⟨b, t, rfl, h⟩

theorem simulates_throw {e : ε} (h : R s t) : Simulates R Q (throw (.error e)) (throw e) s t :=
  ⟨t, rfl, h⟩

theorem simulates_leaves (h : R s t) : Simulates R Q (throw .leaves) y s t := ⟨t, h⟩

theorem simulates_of_exec {a : α} {b : β} (hx : exec x s = (.ok a, s'))
    (hy : exec y t = (.ok b, t')) (h : Q a b s' t') : Simulates R Q x y s t := by
  rw [Simulates, hx]
  exact ⟨b, t', hy, h⟩

theorem simulates_leaves_of_exec (hx : exec x s = (.error .leaves, s')) (h : R s' t') :
    Simulates R Q x y s t := by
  rw [Simulates, hx]
  exact ⟨t', h⟩

theorem Simulates.mono (h : Simulates R Q x y s t) (hQ : ∀ a b s t, Q a b s t → Q' a b s t) :
    Simulates R Q' x y s t := by
  rw [Simulates] at h ⊢
  rcases hx : exec x s with ⟨r, s'⟩
  rw [hx] at h
  match r with
  | .ok a =>
    obtain ⟨b, t', hy, h⟩ := h
    exact ⟨b, t', hy, hQ a b s' t' h⟩
  | .error (.error e) => exact h
  | .error .leaves => exact h

theorem Simulates.of_exec_eq {z : Prog τ ε β} (h : Simulates R Q x y s t)
    (heq : exec z t = exec y t) : Simulates R Q x z s t := by
  rw [Simulates] at h ⊢
  rwa [heq]

theorem Simulates.bind {f : α → Prog σ (Stop ε) γ} {g : β → Prog τ ε δ}
    (h : Simulates R Q x y s t)
    (hf : ∀ a b s t, Q a b s t → Simulates R P (f a) (g b) s t) :
    Simulates R P (x >>= f) (y >>= g) s t := by
  rw [Simulates] at h ⊢
  rw [exec_bind]
  rcases hx : exec x s with ⟨r, s'⟩
  rw [hx] at h
  match r with
  | .ok a =>
    obtain ⟨b, t', hy, hQ⟩ := h
    have hfa := hf a b s' t' hQ
    rw [Simulates] at hfa
    rwa [exec_bind_ok hy]
  | .error (.error e) =>
    obtain ⟨t', hy, hR⟩ := h
    exact ⟨t', exec_bind_error hy, hR⟩
  | .error .leaves => exact h

theorem Simulates.bind_left {f : α → Prog σ (Stop ε) γ} {z : Prog τ ε δ} {a : α}
    (hx : exec x s = (.ok a, s')) (h : Simulates R P (f a) z s' t) :
    Simulates R P (x >>= f) z s t := by
  rw [Simulates] at h ⊢
  rwa [exec_bind_ok hx]

theorem Simulates.get_left {f : σ → Prog σ (Stop ε) γ} {z : Prog τ ε δ}
    (h : Simulates R P (f s) z s t) : Simulates R P (get >>= f) z s t :=
  Simulates.bind_left (exec_get s) h

theorem Simulates.bind_right {g : β → Prog τ ε δ} {z : Prog σ (Stop ε) γ} {b : β}
    (hy : exec y t = (.ok b, t')) (h : Simulates R P z (g b) s t') :
    Simulates R P z (y >>= g) s t := by
  rw [Simulates] at h ⊢
  rwa [exec_bind_ok hy]

theorem Simulates.get_right {g : τ → Prog τ ε δ} {z : Prog σ (Stop ε) γ}
    (h : Simulates R P z (g t) s t) : Simulates R P z (get >>= g) s t :=
  Simulates.bind_right (exec_get t) h

theorem simulates_forM {I : σ → τ → Prop} {f : ι → Prog σ (Stop ε) PUnit}
    {g : ι → Prog τ ε PUnit} (l : List ι)
    (h : ∀ i ∈ l, ∀ s t, I s t → Simulates R (fun _ _ => I) (f i) (g i) s t) (hI : I s t) :
    Simulates R (fun _ _ => I) (forM l f) (forM l g) s t := by
  induction l generalizing s t with
  | nil => exact simulates_pure hI
  | cons i l ih =>
    rw [List.forM_cons, List.forM_cons]
    refine (h i List.mem_cons_self s t hI).bind fun _ _ _ _ hl => ?_
    exact ih (fun k hk => h k (List.mem_cons_of_mem i hk)) hl

theorem simulates_mapM {I : σ → τ → Prop} {f : ι → Prog σ (Stop ε) α} {g : ι → Prog τ ε α}
    (l : List ι)
    (h : ∀ i ∈ l, ∀ s t, I s t → Simulates R (fun a b s t => a = b ∧ I s t) (f i) (g i) s t)
    (hI : I s t) :
    Simulates R (fun a b s t => a = b ∧ I s t) (l.mapM f) (l.mapM g) s t := by
  induction l generalizing s t with
  | nil => exact simulates_pure ⟨rfl, hI⟩
  | cons i l ih =>
    rw [List.mapM_cons, List.mapM_cons]
    refine (h i List.mem_cons_self s t hI).bind ?_
    rintro a _ s t ⟨rfl, hI⟩
    refine (ih (fun k hk => h k (List.mem_cons_of_mem i hk)) hI).bind ?_
    rintro as _ s t ⟨rfl, hI⟩
    exact simulates_pure ⟨rfl, hI⟩

attribute [irreducible] Simulates

/-! ### Equal outcomes -/

section Agrees

variable (bad : ε → σ → Prop)

/-- The outcomes are equal, unless the first program ends with a bad error. -/
def AgreesUnless (x y : Prog σ ε α) (s : σ) : Prop :=
  exec x s = exec y s ∨ ∃ e s', exec x s = (.error e, s') ∧ bad e s'

variable {bad} {x y : Prog σ ε α}

theorem agreesUnless_refl (x : Prog σ ε α) (s : σ) : AgreesUnless bad x x s := .inl rfl

theorem AgreesUnless.bind {f g : α → Prog σ ε β} (h : AgreesUnless bad x y s)
    (hf : ∀ a s, AgreesUnless bad (f a) (g a) s) : AgreesUnless bad (x >>= f) (y >>= g) s := by
  rcases h with heq | ⟨e, s', hx, hbad⟩
  · rw [AgreesUnless, exec_bind, exec_bind, heq]
    rcases exec y s with ⟨r, s'⟩
    match r with
    | .ok a => exact hf a s'
    | .error e => exact .inl rfl
  · exact .inr ⟨e, s', exec_bind_error hx, hbad⟩

theorem agreesUnless_forM {f g : ι → Prog σ ε PUnit} (h : ∀ i s, AgreesUnless bad (f i) (g i) s)
    (l : List ι) : AgreesUnless bad (forM l f) (forM l g) s := by
  induction l generalizing s with
  | nil => exact agreesUnless_refl _ s
  | cons i l ih =>
    rw [List.forM_cons, List.forM_cons]
    exact (h i s).bind fun _ _ => ih

end Agrees

end Simulation
