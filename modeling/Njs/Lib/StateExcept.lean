import Mathlib.Order.Defs.PartialOrder

/-!
# Programs with a state and errors

Conditions on the outcome of programs that read and write a state and may end with an error. The
state is not restored on an error, but it is not looked at either.
-/

namespace StateExcept

variable {σ ε α β : Type}

/-- Programs with states `σ` and errors `ε`. -/
abbrev Prog (σ ε α : Type) : Type := StateT σ (Except ε) α

/-- What holds of the outcome of a program from a state. -/
def Post (x : Prog σ ε α) (s : σ) (Q : α → σ → Prop) (E : ε → Prop) : Prop :=
  match x.run s with
  | .ok (a, t) => Q a t
  | .error e => E e

variable {x : Prog σ ε α} {s : σ} {Q R : α → σ → Prop} {E F : ε → Prop}

@[simp] theorem post_pure {a : α} : Post (pure a : Prog σ ε α) s Q E ↔ Q a s := Iff.rfl

@[simp] theorem post_throw {e : ε} : Post (throw e : Prog σ ε α) s Q E ↔ E e := Iff.rfl

@[simp] theorem post_get {Q : σ → σ → Prop} : Post (get : Prog σ ε σ) s Q E ↔ Q s s := Iff.rfl

theorem post_bind {f : α → Prog σ ε β} {Q : β → σ → Prop} :
    Post (x >>= f) s Q E ↔ Post x s (fun a t => Post (f a) t Q E) E := by
  unfold Post
  rw [StateT.run_bind]
  rcases x.run s with e | ⟨a, t⟩ <;> rfl

theorem post_lift {y : Except ε α} : Post (StateT.lift y : Prog σ ε α) s Q E ↔
      (∀ a, y = .ok a → Q a s) ∧ ∀ e, y = .error e → E e := by
  rcases y with e | a <;> simp [Post, StateT.lift, StateT.run, bind, Except.bind, pure, Except.pure]

theorem Post.mono (h : Post x s Q E) (hq : ∀ a t, Q a t → R a t) (he : ∀ e, E e → F e) :
    Post x s R F := by
  unfold Post at h ⊢
  generalize x.run s = r at h ⊢
  rcases r with e | ⟨a, t⟩
  · exact he e h
  · exact hq a t h

theorem Post.bind {f : α → Prog σ ε β} {Q : β → σ → Prop} (h : Post x s R E)
    (hf : ∀ a t, R a t → Post (f a) t Q E) : Post (x >>= f) s Q E :=
  post_bind.2 (h.mono hf fun _ he => he)

theorem Post.of_run {a : α} {t : σ} (h : Post x s Q E) (hrun : x.run s = .ok (a, t)) : Q a t := by
  unfold Post at h
  rwa [hrun] at h

theorem Post.of_error {e : ε} (h : Post x s Q E) (hrun : x.run s = .error e) : E e := by
  unfold Post at h
  rwa [hrun] at h

/-! ### Two programs -/

section Alike

variable {τ γ δ ι : Type}

/-- Both programs have a result, or both end with one error. The results are related by `V` and the
states by `R`. -/
def Alike (R : σ → τ → Prop) (V : α → β → Prop) (x : Prog σ ε α) (y : Prog τ ε β) (s : σ) (t : τ) :
    Prop :=
  match x.run s, y.run t with
  | .ok (a, s'), .ok (b, t') => V a b ∧ R s' t'
  | .error e, .error d => e = d
  | _, _ => False

variable {R : σ → τ → Prop} {V : α → β → Prop} {W : γ → δ → Prop} {x x' : Prog σ ε α}
  {y y' : Prog τ ε β} {t : τ}

theorem alike_pure {a : α} {b : β} (hV : V a b) (hR : R s t) :
    Alike R V (pure a : Prog σ ε α) (pure b) s t :=
  ⟨hV, hR⟩

theorem Alike.bind {f : α → Prog σ ε γ} {g : β → Prog τ ε δ} (h : Alike R V x y s t)
    (hf : ∀ a b s t, V a b → R s t → Alike R W (f a) (g b) s t) :
    Alike R W (x >>= f) (y >>= g) s t := by
  unfold Alike at h ⊢
  rw [StateT.run_bind, StateT.run_bind]
  generalize x.run s = r at h ⊢
  generalize y.run t = r' at h ⊢
  obtain e | ⟨a, s'⟩ := r <;> obtain d | ⟨b, t'⟩ := r'
  · exact h
  · exact h.elim
  · exact h.elim
  · exact hf a b s' t' h.1 h.2

theorem alike_ite {c d : Prop} [Decidable c] [Decidable d] (hcd : c ↔ d)
    (h : c → d → Alike R V x y s t) (h' : ¬c → ¬d → Alike R V x' y' s t) :
    Alike R V (if c then x else x') (if d then y else y') s t := by
  by_cases hc : c
  · rw [if_pos hc, if_pos (hcd.1 hc)]
    exact h hc (hcd.1 hc)
  · rw [if_neg hc, if_neg fun hd => hc (hcd.2 hd)]
    exact h' hc fun hd => hc (hcd.2 hd)

theorem alike_forM {f : ι → Prog σ ε PUnit} {g : ι → Prog τ ε PUnit} (l : List ι)
    (h : ∀ i ∈ l, ∀ s t, R s t → Alike R (fun _ _ => True) (f i) (g i) s t) (hR : R s t) :
    Alike R (fun _ _ => True) (forM l f) (forM l g) s t := by
  induction l generalizing s t with
  | nil => exact ⟨trivial, hR⟩
  | cons i l ih =>
    rw [List.forM_cons, List.forM_cons]
    exact (h i List.mem_cons_self s t hR).bind fun _ _ s t _ hR =>
      ih (fun k hk => h k (List.mem_cons_of_mem i hk)) hR

theorem Alike.of_run {b : β} {t' : τ} (h : Alike R V x y s t) (hy : y.run t = .ok (b, t')) :
    ∃ a s', x.run s = .ok (a, s') ∧ V a b ∧ R s' t' := by
  unfold Alike at h
  rw [hy] at h
  generalize x.run s = r at h ⊢
  obtain e | ⟨a, s'⟩ := r
  · exact h.elim
  · exact ⟨a, s', rfl, h⟩

theorem Alike.of_error {e : ε} (h : Alike R V x y s t) (hy : y.run t = .error e) :
    x.run s = .error e := by
  unfold Alike at h
  rw [hy] at h
  generalize x.run s = r at h ⊢
  obtain d | ⟨a, s'⟩ := r
  · exact congrArg _ h
  · exact h.elim

/-- If the first program has a result, so has the second one. The results are related by `V` and the
states by `R`. -/
def Leads {ε' : Type} (R : σ → τ → Prop) (V : α → β → Prop) (x : Prog σ ε α) (y : Prog τ ε' β)
    (s : σ) (t : τ) : Prop :=
  ∀ a s', x.run s = .ok (a, s') → ∃ b t', y.run t = .ok (b, t') ∧ V a b ∧ R s' t'

section Leads

variable {ε' : Type} {y y' : Prog τ ε' β}

theorem leads_pure {a : α} {b : β} (hV : V a b) (hR : R s t) :
    Leads R V (pure a : Prog σ ε α) (pure b : Prog τ ε' β) s t := by
  rintro _ _ ⟨⟩
  exact ⟨b, t, rfl, hV, hR⟩

theorem leads_throw {e : ε} : Leads R V (throw e : Prog σ ε α) y s t := by
  rintro _ _ ⟨⟩

theorem Leads.bind {f : α → Prog σ ε γ} {g : β → Prog τ ε' δ} (h : Leads R V x y s t)
    (hf : ∀ a b s t, V a b → R s t → Leads R W (f a) (g b) s t) :
    Leads R W (x >>= f) (y >>= g) s t := by
  intro c s'' hrun
  rw [StateT.run_bind] at hrun
  rcases hx : x.run s with e | ⟨a, s'⟩ <;> rw [hx] at hrun
  · cases hrun
  · obtain ⟨b, t', hy, hV, hR⟩ := h a s' hx
    obtain ⟨d, t'', hg, hW, hR'⟩ := hf a b s' t' hV hR c s'' hrun
    refine ⟨d, t'', ?_, hW, hR'⟩
    rw [StateT.run_bind, hy]
    exact hg

theorem Leads.bind_left {f : α → Prog σ ε γ} {z : Prog τ ε' δ}
    (h : Leads R (fun _ _ => True) x (pure ⟨⟩ : Prog τ ε' PUnit) s t)
    (hf : ∀ a s t, R s t → Leads R W (f a) z s t) : Leads R W (x >>= f) z s t := by
  have hbind := h.bind (g := fun _ => z) (W := W) fun a _ s t _ hR => hf a s t hR
  rwa [pure_bind] at hbind

theorem leads_ite {c d : Prop} [Decidable c] [Decidable d] (hcd : c ↔ d)
    (h : c → d → Leads R V x y s t) (h' : ¬c → ¬d → Leads R V x' y' s t) :
    Leads R V (if c then x else x') (if d then y else y') s t := by
  by_cases hc : c
  · rw [if_pos hc, if_pos (hcd.1 hc)]
    exact h hc (hcd.1 hc)
  · rw [if_neg hc, if_neg fun hd => hc (hcd.2 hd)]
    exact h' hc fun hd => hc (hcd.2 hd)

end Leads

end Alike

end StateExcept
