import Njs.Lib.Simulation

/-!
# Calls that call back

Calls change a state, and on the way they call code that makes calls itself. What each call keeps if
the code that it calls keeps it, every run keeps.
-/

namespace Reentrant

open Simulation (Prog exec)

variable {σ ε α β ι : Type}

/-! ### Programs -/

/-- An invariant of states, and the states that may come later. -/
structure Frame (σ : Type) where
  Inv : σ → Prop
  Later : σ → σ → Prop
  refl : ∀ s, Later s s
  trans : ∀ {s t u}, Later s t → Later t u → Later s u

/-- A program keeps the invariant and ends later, with an error or a result of which `Q` holds. -/
structure Ends (F : Frame σ) (x : Prog σ ε α) (s : σ) (Q : α → σ → Prop) : Prop where
  inv : F.Inv (exec x s).2
  later : F.Later s (exec x s).2
  ok : ∀ a, (exec x s).1 = .ok a → Q a (exec x s).2

variable {F : Frame σ} {x : Prog σ ε α} {s : σ} {Q R : α → σ → Prop}

theorem ends_of_exec {r : Except ε α} {t : σ} (h : exec x s = (r, t)) (hinv : F.Inv t)
    (hlater : F.Later s t) (hok : ∀ a, r = .ok a → Q a t) : Ends F x s Q := by
  constructor <;> rw [h]
  exacts [hinv, hlater, hok]

theorem ends_pure {a : α} (hinv : F.Inv s) (hQ : Q a s) : Ends F (pure a : Prog σ ε α) s Q :=
  ends_of_exec rfl hinv (F.refl s) fun _ h => Except.ok.inj h ▸ hQ

theorem ends_throw {e : ε} (hinv : F.Inv s) : Ends F (throw e : Prog σ ε α) s Q :=
  ends_of_exec rfl hinv (F.refl s) fun _ h => nomatch h

theorem ends_modify {f : σ → σ} {Q : PUnit → σ → Prop} (hinv : F.Inv (f s)) (hlater :
    F.Later s (f s))
    (hQ : Q ⟨⟩ (f s)) : Ends F (modify f : Prog σ ε PUnit) s Q :=
  ends_of_exec rfl hinv hlater fun _ _ => hQ

theorem Ends.mono (h : Ends F x s Q)
    (hQ : ∀ a t, exec x s = (.ok a, t) → F.Inv t → F.Later s t → Q a t → R a t) : Ends F x s R :=
  ⟨h.inv, h.later, fun a ha => hQ a _ (Prod.ext ha rfl) h.inv h.later (h.ok a ha)⟩

theorem Ends.bind {f : α → Prog σ ε β} {Q : β → σ → Prop} (h : Ends F x s R)
    (hf : ∀ a t, exec x s = (.ok a, t) → F.Inv t → F.Later s t → R a t → Ends F (f a) t Q) :
    Ends F (x >>= f) s Q := by
  rcases hx : exec x s with ⟨e | a, t⟩
  · refine ends_of_exec (Simulation.exec_bind_error hx) ?_ ?_ fun _ h => nomatch h
    · simpa only [hx] using h.inv
    · simpa only [hx] using h.later
  · have hinv : F.Inv t := by simpa only [hx] using h.inv
    have hlater : F.Later s t := by simpa only [hx] using h.later
    have hfa := hf a t hx hinv hlater (by simpa only [hx] using h.ok a (by rw [hx]))
    have hexec := Simulation.exec_bind_ok (f := f) hx
    refine ends_of_exec (hexec.trans rfl) hfa.inv (F.trans hlater hfa.later) hfa.ok

theorem ends_get {f : σ → Prog σ ε β} {Q : β → σ → Prop} (hf : Ends F (f s) s Q) :
    Ends F (get >>= f) s Q :=
  ends_of_exec (Simulation.exec_bind_ok (Simulation.exec_get s)) hf.inv hf.later hf.ok

theorem ends_ite {c : Prop} [Decidable c] {y : Prog σ ε α} (hx : c → Ends F x s Q)
    (hy : ¬c → Ends F y s Q) : Ends F (if c then x else y) s Q := by
  split_ifs with h
  exacts [hx h, hy h]

theorem ends_test {c : Prop} [Decidable c] {e : ε} (hinv : F.Inv s)
    (hx : ¬c → Ends F x s Q) : Ends F (if c then throw e else x) s Q :=
  ends_ite (fun _ => ends_throw hinv) hx

theorem ends_forM {I : σ → Prop} {f : ι → Prog σ ε PUnit} (l : List ι)
    (h : ∀ i ∈ l, ∀ s, F.Inv s → I s → Ends F (f i) s fun _ => I) (hinv : F.Inv s) (hI : I s) :
    Ends F (forM l f) s fun _ => I := by
  induction l generalizing s with
  | nil => exact ends_pure hinv hI
  | cons i l ih =>
    rw [List.forM_cons]
    refine (h i List.mem_cons_self s hinv hI).bind fun _ t _ ht _ hIt => ?_
    exact ih (fun k hk => h k (List.mem_cons_of_mem i hk)) ht hIt

/-! ### Runs -/

/-- Code that is called keeps the invariant and ends later. -/
def Good (F : Frame σ) (f : σ → σ) : Prop := ∀ s, F.Inv s → F.Inv (f s) ∧ F.Later s (f s)

/-- What calls do, and the code that they call. -/
structure Calls (σ κ : Type) where
  run : κ → σ → σ
  Inside : κ → (σ → σ) → Prop

variable {κ : Type} {calls : Calls σ κ}

/-- The states that are reached by calls. The code that a call calls makes calls itself. -/
inductive Reaches (calls : Calls σ κ) : σ → σ → Prop
  | refl (s : σ) : Reaches calls s s
  | call {s t : σ} (c : κ) : Reaches calls s t →
      (∀ f, calls.Inside c f → ∀ u, Reaches calls u (f u)) → Reaches calls s (calls.run c t)

theorem Reaches.keeps (hcall : ∀ c, (∀ f, calls.Inside c f → Good F f) → ∀ s, F.Inv s →
      F.Inv (calls.run c s) ∧ F.Later s (calls.run c s))
    {s t : σ} (h : Reaches calls s t) (hs : F.Inv s) : F.Inv t ∧ F.Later s t := by
  induction h with
  | refl s => exact ⟨hs, F.refl s⟩
  | call c _ _ ih hinside =>
    obtain ⟨ht, hlater⟩ := ih hs
    obtain ⟨hrun, hlater'⟩ := hcall c (fun f hf u hu => hinside f hf u hu) _ ht
    exact ⟨hrun, F.trans hlater hlater'⟩

end Reentrant
