import Njs.CallStack.Stack

/-!
# Calls leave the stack as it was

A native function that fails leaves its frame on the stack; the interpreter takes it off with the
frames of the functions that the exception leaves. When C code goes on after such an error, the
frame stays, and its chunk is lost.
-/

namespace Njs.CallStack

open BumpStack

variable {mpAlign : List (ℕ × ℕ) → ℕ → Option ℕ} {max : ℕ} {vm vm' : Vm} {F : Frame}
  {below : List Frame}

/-- Frames that have been left are on a stack. -/
structure Over (vm' vm : Vm) : Prop where
  frames : ∃ left, vm'.frames = left ++ vm.frames ∧ ∀ f ∈ left, Skipped vm.active f
  active : vm'.active = vm.active
  levels : vm'.levels = vm.levels

theorem Over.refl (vm : Vm) : Over vm vm :=
  ⟨⟨[], rfl, fun _ hf => absurd hf List.not_mem_nil⟩, rfl, rfl⟩

theorem Over.trans {vm₁ vm₂ vm₃ : Vm} (h : Over vm₂ vm₁) (h' : Over vm₃ vm₂) : Over vm₃ vm₁ := by
  obtain ⟨⟨left, hframes, hleft⟩, hactive, hlevels⟩ := h
  obtain ⟨⟨left', hframes', hleft'⟩, hactive', hlevels'⟩ := h'
  rw [hactive] at hleft'
  refine ⟨⟨left' ++ left, ?_, List.forall_mem_append.2 ⟨hleft', hleft⟩⟩, hactive'.trans hactive,
    hlevels'.trans hlevels⟩
  rw [hframes', hframes, List.append_assoc]

/-! ### The log -/

/-- An entry is as it should be, and C code does not go on after the error of a native function. -/
def Event.Proper (max : ℕ) (e : Event) : Prop := e.Sound max ∧ ¬e.LeavesNative

def Event.Given (max : ℕ) (e : Event) : Prop := e.Sound max ∨ ¬e.LeavesNative

theorem Laid.started (h : Laid max vm) : (Event.started vm).Proper max := ⟨h.accounted, id⟩

theorem Laid.completed {way : Way} (h : Laid max vm) (hway : way ≠ .swallowed true) :
    (Event.completed way vm vm).Proper max := by
  refine ⟨⟨⟨rfl, rfl, rfl⟩, h.accounted⟩, ?_⟩
  rintro hleaves
  obtain _ | _ | _ | _ := way
  · exact hleaves
  · exact hleaves
  · exact Bool.false_ne_true hleaves
  · exact hway rfl

/-- If one of both is given of all entries of the log, both hold of them, and the run ends so. -/
def Does (max : ℕ) (r : Result) (Q : Outcome → Vm → Prop) : Prop :=
  (∀ e ∈ r.log, e.Given max) → (∀ e ∈ r.log, e.Proper max) ∧ Q r.outcome r.vm

namespace Does

variable {r r' : Result} {o : Outcome} {Q Q' : Outcome → Vm → Prop}

theorem of_nil (h : Q o vm) : Does max ⟨o, vm, []⟩ Q := fun _ =>
  ⟨fun _ he => absurd he List.not_mem_nil, h⟩

theorem keep {vm' : Vm} (h : Does max r Q) (hQ : Q r.outcome r.vm → Q' o vm') :
    Does max ⟨o, vm', r.log⟩ Q' := fun hgiven => (h hgiven).imp_right hQ

theorem mono (h : Does max r Q) (hQ : ∀ o vm, Q o vm → Q' o vm) : Does max r Q' := fun hgiven =>
  (h hgiven).imp_right (hQ _ _)

theorem event {e : Event} (he : e.Given max → e.Proper max) (h : Does max r Q) :
    Does max (r.before [e]) Q := by
  intro hgiven
  obtain ⟨hgiven, hgiven'⟩ := List.forall_mem_cons.1 hgiven
  obtain ⟨hproper, hends⟩ := h hgiven'
  exact ⟨List.forall_mem_cons.2 ⟨he hgiven, hproper⟩, hends⟩

theorem follow (h : Does max r Q) (h' : Q r.outcome r.vm → Does max r' Q') :
    Does max (r'.before r.log) Q' := by
  intro hgiven
  obtain ⟨hgiven, hgiven'⟩ := List.forall_mem_append.1 hgiven
  obtain ⟨hproper, hends⟩ := h hgiven
  obtain ⟨hproper', hends'⟩ := h' hends hgiven'
  exact ⟨List.forall_mem_append.2 ⟨hproper, hproper'⟩, hends'⟩

theorem follow_event {e : Event} (h : Does max r Q)
    (he : Q r.outcome r.vm → e.Given max → e.Proper max)
    (h' : Q r.outcome r.vm → e.Proper max → Does max r' Q') :
    Does max (r'.before (r.log ++ [e])) Q' := by
  have heq : r'.before (r.log ++ [e]) = (r'.before [e]).before r.log := by
    rw [Result.before, Result.before, Result.before, List.append_assoc]
  rw [heq]
  refine h.follow fun hends hgiven => ?_
  have he' := he hends (List.forall_mem_cons.1 hgiven).1
  exact (h' hends he').event (fun _ => he') hgiven

theorem andThen {f : Vm → Result} (h : Does max r Q)
    (hf : ∀ vm, Q .ok vm → Does max (f vm) Q') (hQ : ∀ o vm, o ≠ .ok → Q o vm → Q' o vm) :
    Does max (r.andThen f) Q' := by
  by_cases hok : r.outcome = .ok
  · rw [Result.andThen, if_pos hok]
    exact h.follow fun hends => hf _ (hok ▸ hends)
  · rw [Result.andThen, if_neg hok]
    exact fun hgiven => (h hgiven).imp_right (hQ _ _ hok)

end Does

/-! ### What runs do -/

/-- C code returns and leaves the stack as it was, or returns an error and leaves frames. -/
def NativeEnd (max : ℕ) (vm : Vm) (o : Outcome) (vm' : Vm) : Prop :=
  (o = .ok ∧ vm' = vm) ∨ (o = .error ∧ Good max vm' ∧ Over vm' vm)

def FunctionEnd (max : ℕ) (native : Bool) (vm called : Vm) (o : Outcome) (vm' : Vm) : Prop :=
  (o = .ok ∧ vm' = vm) ∨ (o = .error ∧
    ((native = true ∧ Good max vm' ∧ Over vm' called) ∨ (native = false ∧ vm' = vm)))

def Thrown (max : ℕ) (vm : Vm) (F : Frame) (below : List Frame) (o : Outcome) (vm' : Vm) : Prop :=
  ∃ caught, o = (if caught = true then .caught else .error) ∧ Unwound max vm F below caught vm'

def ExpressionEnd (max : ℕ) (vm : Vm) (F : Frame) (below : List Frame) (o : Outcome) (vm' : Vm) :
    Prop :=
  (o = .ok ∧ vm' = vm) ∨ Thrown max vm F below o vm'

/-- A function returns from within any number of `try` blocks. -/
def StatementEnd (max : ℕ) (vm : Vm) (F : Frame) (below : List Frame) (o : Outcome) (vm' : Vm) :
    Prop :=
  (o = .ok ∧ vm' = vm) ∨ Thrown max vm F below o vm' ∨
    (o = .returned ∧ Laid max vm' ∧ vm'.active = vm.active ∧ vm'.levels = vm.levels ∧
      ∃ t, vm'.frames = { F with tries := t } :: below)

/-- The function that is running is that of the frame `F`; frames of calls that have not begun are
above it. -/
structure Running (vm : Vm) (F : Frame) (below : List Frame) : Prop where
  frames : ∃ above, vm.frames = above ++ F :: below ∧ ∀ f ∈ above, Skipped vm.active f
  active : vm.active = some F.address
  native : F.native = false

section

variable (mpAlign max)

/-- What a run does to the stack. -/
def Behaves : {k : Kind} → Code k → Prop
  | .native, code => ∀ vm, Good max vm → Does max (exec mpAlign code vm) (NativeEnd max vm)
  | .function, f => ∀ vm vm', Good max vm → njsFunctionFrame mpAlign vm f = some vm' →
      Does max (exec mpAlign f vm') (FunctionEnd max f.isNative vm vm')
  | .expression, e => ∀ vm F below, Good max vm → Running vm F below →
      Does max (exec mpAlign e vm) (ExpressionEnd max vm F below)
  | .statement, s => ∀ vm F below, Good max vm → vm.frames = F :: below →
      vm.active = some F.address → F.native = false →
      Does max (exec mpAlign s vm) (StatementEnd max vm F below)

end

theorem Running.thrown (h : Running vm F below) (hgood : Good max vm') (hover : Over vm' vm) :
    Does max (throw vm') (Thrown max vm F below) := by
  obtain ⟨⟨above, hframes, habove⟩, hactive, hnative⟩ := h
  obtain ⟨⟨left, hframes', hleft⟩, hactive', hlevels'⟩ := hover
  have hall : vm'.frames = (left ++ above) ++ F :: below := by
    rw [hframes', hframes, List.append_assoc]
  obtain ⟨hlaid, hlevels, hends⟩ := errorLoop_spec hgood.toLaid hall (hactive'.trans hactive)
    hnative (by rw [hactive']; exact List.forall_mem_append.2 ⟨hleft, habove⟩)
  rw [hactive'] at hends
  exact Does.of_nil ⟨_, rfl, hlaid, hlevels.trans hlevels', hends⟩

theorem Running.orThrow {r : Result} {Q : Outcome → Vm → Prop} (h : Running vm F below)
    (hr : Does max r Q)
    (hQ : ∀ o vm', Q o vm' → (o = .ok ∧ vm' = vm) ∨ (o ≠ .ok ∧ Good max vm' ∧ Over vm' vm)) :
    Does max r.orThrow (ExpressionEnd max vm F below) := by
  by_cases hok : r.outcome = .ok
  · rw [Result.orThrow, if_pos hok]
    intro hgiven
    obtain ⟨hproper, hends⟩ := hr hgiven
    obtain hends | ⟨hne, -⟩ := hQ _ _ hends
    · exact ⟨hproper, Or.inl hends⟩
    · exact absurd hok hne
  · rw [Result.orThrow, if_neg hok]
    refine hr.follow fun hends => ?_
    obtain ⟨hends, -⟩ | ⟨-, hgood, hover⟩ := hQ _ _ hends
    · exact absurd hends hok
    · exact (h.thrown hgood hover).mono fun _ _ => Or.inr

theorem Thrown.ne_ok {o : Outcome} (h : Thrown max vm F below o vm') : o ≠ .ok := by
  obtain ⟨caught, rfl, -⟩ := h
  obtain _ | _ := caught <;> exact Outcome.noConfusion

/-! ### C code and functions -/

theorem leave_eq (h : Laid max vm) (h' : Laid max vm') (hframes : vm'.frames = F :: vm.frames)
    (hactive : (if F.native then vm'.active else F.previousActive) = vm.active)
    (hlevels : vm'.levels = vm.levels) : leave F vm' = vm := by
  obtain ⟨hlaid, hrest, hprevious, hlevels'⟩ := h'.leave hframes
  exact hlaid.ext h hrest (hprevious.trans hactive) (hlevels'.trans hlevels)

theorem FunctionEnd.over {native : Bool} {called : Vm} {o : Outcome}
    (h : FunctionEnd max native vm called o vm') (hgood : Good max vm) (hover : Over called vm) :
    (o = .ok ∧ vm' = vm) ∨ (o ≠ .ok ∧ Good max vm' ∧ Over vm' vm) := by
  obtain h | ⟨rfl, ⟨-, hgood', hover'⟩ | ⟨-, rfl⟩⟩ := h
  · exact Or.inl h
  · exact Or.inr ⟨Outcome.noConfusion, hgood', hover.trans hover'⟩
  · exact Or.inr ⟨Outcome.noConfusion, hgood, Over.refl _⟩

theorem NativeEnd.over {o : Outcome} (h : NativeEnd max vm o vm') :
    (o = .ok ∧ vm' = vm) ∨ (o ≠ .ok ∧ Good max vm' ∧ Over vm' vm) :=
  h.imp_right fun ⟨herror, hends⟩ => ⟨herror ▸ Outcome.noConfusion, hends⟩

section

variable (hfresh : Fresh mpAlign)

include hfresh

variable {f : Code .function}

theorem over_njsFunctionFrame (h : Good max vm)
    (hframe : njsFunctionFrame mpAlign vm f = some vm') : Over vm' vm := by
  obtain ⟨-, hactive, hlevels, P, hframes, hskip, -⟩ := njsFunctionFrame_spec hfresh h hframe
  exact ⟨⟨[P], hframes, List.forall_mem_singleton.2 hskip⟩, hactive, hlevels⟩

theorem behaves_call {next : Code .native} (hf : Behaves mpAlign max f)
    (hnext : Behaves mpAlign max next) : Behaves mpAlign max (.call f next) := by
  intro vm hgood
  rw [exec_call]
  rcases hframe : njsFunctionFrame mpAlign vm f with _ | vm'
  · exact Does.of_nil (Or.inr ⟨rfl, hgood, Over.refl vm⟩)
  have hover := over_njsFunctionFrame hfresh hgood hframe
  have hgood' := (njsFunctionFrame_spec hfresh hgood hframe).1
  rw [Option.elim_some]
  refine ((hf vm vm' hgood hframe).event fun _ => hgood'.started).andThen ?_ ?_
  · intro vm'' hends
    obtain ⟨-, rfl⟩ | ⟨hne, -⟩ := hends.over hgood hover
    · exact (hnext _ hgood).event fun _ => hgood.completed Way.noConfusion
    · exact absurd rfl hne
  intro o vm'' hne hends
  obtain ⟨hok, -⟩ | ⟨herror, hleft⟩ := hends
  · exact absurd hok hne
  · obtain ⟨hok, -⟩ | ⟨-, hgood'', hover'⟩ :=
      FunctionEnd.over (Or.inr ⟨herror, hleft⟩) hgood hover
    · exact absurd hok hne
    · exact Or.inr ⟨herror, hgood'', hover'⟩

theorem behaves_attempt {next otherwise : Code .native} (hf : Behaves mpAlign max f)
    (hnext : Behaves mpAlign max next) (hotherwise : Behaves mpAlign max otherwise) :
    Behaves mpAlign max (.attempt f next otherwise) := by
  intro vm hgood
  rw [exec_attempt]
  rcases hframe : njsFunctionFrame mpAlign vm f with _ | vm'
  · exact (hotherwise vm hgood).event fun _ =>
      hgood.completed fun heq => Bool.false_ne_true (Way.swallowed.inj heq)
  obtain ⟨hgood', -, -, P, hframes, hskip, -⟩ := njsFunctionFrame_spec hfresh hgood hframe
  have hstarted : Does max ((exec mpAlign f vm').before [.started vm'])
      (FunctionEnd max f.isNative vm vm') :=
    (hf vm vm' hgood hframe).event fun _ => hgood'.started
  rw [Option.elim_some]
  dsimp only
  by_cases hok : ((exec mpAlign f vm').before [.started vm']).outcome = .ok
  · rw [if_pos hok]
    refine hstarted.follow_event (fun hends _ => ?_) fun hends _ => ?_
    · obtain ⟨-, heq⟩ | ⟨herror, -⟩ := hends
      · rw [heq]
        exact hgood.completed Way.noConfusion
      · exact Outcome.noConfusion (hok.symm.trans herror)
    · obtain ⟨-, heq⟩ | ⟨herror, -⟩ := hends
      · rw [heq]
        exact hnext vm hgood
      · exact Outcome.noConfusion (hok.symm.trans herror)
  rw [if_neg hok]
  -- A frame that has been left has another address than the top frame before.
  have hleft {vm'' : Vm} (hgood'' : Good max vm'') (hover : Over vm'' vm')
      (htop : vm''.topFrame = vm.topFrame) : False := by
    obtain ⟨⟨left, hframes', -⟩, -, -⟩ := hover
    obtain ⟨F, hF, -⟩ := hgood.active
    rw [hframes] at hframes'
    rcases hvm : vm.frames with _ | ⟨top, frames⟩
    · rw [hvm] at hF
      exact List.not_mem_nil hF
    rw [hvm] at hframes'
    rcases hvm' : vm''.frames with _ | ⟨top', frames'⟩
    · rw [hvm'] at hframes'
      exact List.append_ne_nil_of_right_ne_nil _ (List.cons_ne_nil _ _) hframes'.symm
    have hne := address_ne_of_cons hgood''.toLaid hvm' top (by
      rw [hvm'] at hframes'
      obtain _ | ⟨f, left⟩ := left
      · rw [(List.cons.inj hframes').2]
        exact List.mem_cons_self
      · rw [(List.cons.inj hframes').2]
        exact List.mem_append_right _ (List.mem_cons_of_mem _ List.mem_cons_self))
    rw [Vm.topFrame, Vm.topFrame, hvm, hvm'] at htop
    exact hne (Option.some.inj htop)
  refine hstarted.follow_event (fun hends hgiven => ?_) fun hends hproper => ?_
  · obtain ⟨hok', -⟩ | ⟨-, ⟨hnative, hgood'', hover⟩ | ⟨hnative, heq⟩⟩ := hends
    · exact absurd hok' hok
    · rw [hnative] at hgiven ⊢
      obtain ⟨⟨htop, -, -⟩, -⟩ | hno := hgiven
      · exact absurd htop fun htop => hleft hgood'' hover htop
      · exact absurd rfl hno
    · rw [hnative, heq]
      exact hgood.completed fun heq => Bool.false_ne_true (Way.swallowed.inj heq)
  · obtain ⟨hok', -⟩ | ⟨-, ⟨-, hgood'', hover⟩ | ⟨-, heq⟩⟩ := hends
    · exact absurd hok' hok
    · exact absurd hproper.1.1.1 fun htop => hleft hgood'' hover htop
    · rw [heq]
      exact hotherwise vm hgood

/-- `njs_function_native_call`. -/
theorem behaves_nativeFunction {nargs : ℕ} {code : Code .native}
    (hcode : Behaves mpAlign max code) : Behaves mpAlign max (.nativeFunction nargs code) := by
  intro vm vm' hgood hframe
  obtain ⟨hgood', hactive, hlevels, P, hframes, hskip, hnative, -⟩ :=
    njsFunctionFrame_spec hfresh hgood hframe
  have hleave : leave P vm' = vm := by
    refine leave_eq hgood.toLaid hgood'.toLaid hframes ?_ hlevels
    rw [hnative]
    exact hactive
  rw [exec_nativeFunction, njsFunctionNativeCall, hframes]
  refine (hcode vm' hgood').keep fun hends => ?_
  obtain ⟨hok, heq⟩ | ⟨herror, hgood'', hover⟩ := hends
  · refine Or.inl ⟨hok, ?_⟩
    rw [if_pos hok, heq, hleave]
  · rw [if_neg fun hok => Outcome.noConfusion (herror.symm.trans hok)]
    exact Or.inr ⟨herror, Or.inl ⟨rfl, hgood'', hover⟩⟩

/-- `njs_function_lambda_call`. -/
theorem behaves_lambdaFunction {lambda : Lambda} {nargs : ℕ} {body : Code .statement}
    (hbody : Behaves mpAlign max body) :
    Behaves mpAlign max (.lambdaFunction lambda nargs body) := by
  intro vm vm' hgood hframe
  obtain ⟨hgood', hactive, hlevels, P, hframes, hskip, hnative, hlambda⟩ :=
    njsFunctionFrame_spec hfresh hgood hframe
  obtain ⟨htries, hprevious⟩ := hlambda rfl
  have hbelow : vm.frames ≠ [] := by
    obtain ⟨F, hF, -⟩ := hgood.active
    exact List.ne_nil_of_mem hF
  rw [exec_lambdaFunction, njsFunctionLambdaCall, hframes]
  dsimp only
  have hlaid : Laid max { vm' with
      levels := (P.locals, P.closures)
      active := some P.address } := hgood'.toLaid.of_cells rfl rfl rfl
  -- The frame is taken off by the return.
  have hreturn {vm'' : Vm} (hlaid'' : Laid max vm'') (t : ℕ)
      (hframes'' : vm''.frames = { P with tries := t } :: vm.frames) :
      ({ njsVmcodeReturn vm'' with levels := vm'.levels } : Vm) = vm := by
    have hcode : njsVmcodeReturn vm'' = leave { P with tries := t } vm'' := by
      rw [njsVmcodeReturn, hframes'']
    obtain ⟨hlaid₃, hrest, hactive₃, -⟩ := hlaid''.leave hframes''
    rw [hcode]
    refine (hlaid₃.with_levels vm'.levels).ext hgood.toLaid hrest ?_ hlevels
    dsimp only
    rw [hactive₃, hnative, hprevious]
    exact if_neg Bool.false_ne_true
  rw [hframes] at hlaid
  refine (hbody _ P vm.frames ⟨hlaid, P, List.mem_cons_self, rfl⟩ rfl rfl hnative).keep
    fun hends => ?_
  obtain ⟨hok, heq⟩ | ⟨caught, hthrown, hunwound⟩ | ⟨hret, hlaid'', -, -, t, ht⟩ := hends
  · rw [decide_eq_true (Or.inl hok), if_pos rfl, if_pos rfl, heq]
    exact Or.inl ⟨rfl, hreturn hlaid P.tries rfl⟩
  · obtain ⟨hlaid'', -, ⟨-, hhas, -⟩ | ⟨-, -, hnil, -⟩ | ⟨rfl, -, -, hrest, hactive''⟩⟩ := hunwound
    · exact absurd htries hhas
    · exact absurd hnil hbelow
    rw [if_neg Bool.false_ne_true] at hthrown
    have hne (r : Result) (hr : r.outcome = .error) :
        ¬(r.outcome = .ok ∨ r.outcome = .returned) := by
      rw [hr]
      rintro (h | h) <;> exact Outcome.noConfusion h
    rw [decide_eq_false (hne _ hthrown), if_neg Bool.false_ne_true, if_neg Bool.false_ne_true]
    refine Or.inr ⟨rfl, Or.inr ⟨rfl, ?_⟩⟩
    exact (hlaid''.with_levels vm'.levels).ext hgood.toLaid hrest (hactive''.trans hprevious)
      hlevels
  · rw [decide_eq_true (Or.inr hret), if_pos rfl, if_pos rfl]
    exact Or.inl ⟨rfl, hreturn hlaid'' t ht⟩

end

/-! ### The script -/

theorem Thrown.of_same {vm₁ vm₂ : Vm} {o : Outcome} (h : Thrown max vm₁ F below o vm')
    (hactive : vm₁.active = vm₂.active) (hlevels : vm₁.levels = vm₂.levels) :
    Thrown max vm₂ F below o vm' := by
  obtain ⟨caught, ho, hlaid, hlevels', hends⟩ := h
  rw [hactive] at hends
  exact ⟨caught, ho, hlaid, hlevels'.trans hlevels, hends⟩

theorem ExpressionEnd.of_ok (h : ExpressionEnd max vm F below .ok vm') : vm' = vm := by
  obtain ⟨-, heq⟩ | hthrown := h
  · exact heq
  · exact absurd rfl hthrown.ne_ok

theorem behaves_operation {code : Code .native} {next : Code .expression}
    (hcode : Behaves mpAlign max code) (hnext : Behaves mpAlign max next) :
    Behaves mpAlign max (.operation code next) := by
  intro vm F below hgood hrun
  rw [exec_operation]
  refine (hrun.orThrow (hcode vm hgood) fun _ _ => NativeEnd.over).andThen (fun vm' hends => ?_)
    fun _ _ _ hends => hends
  rw [hends.of_ok]
  exact hnext vm F below hgood hrun

theorem behaves_invoke (hfresh : Fresh mpAlign) {before : Code .native} {f : Code .function}
    {arguments next : Code .expression} (hbefore : Behaves mpAlign max before)
    (hf : Behaves mpAlign max f) (harguments : Behaves mpAlign max arguments)
    (hnext : Behaves mpAlign max next) :
    Behaves mpAlign max (.invoke before f arguments next) := by
  intro vm F below hgood hrun
  rw [exec_invoke]
  refine (hrun.orThrow (hbefore vm hgood) fun _ _ => NativeEnd.over).andThen (fun vm₁ hends => ?_)
    fun _ _ _ hends => hends
  rw [hends.of_ok]
  rcases hframe : njsFunctionFrame mpAlign vm f with _ | vm'
  · exact (hrun.thrown hgood (Over.refl vm)).mono fun _ _ => Or.inr
  obtain ⟨hgood', hactive, hlevels, P, hframes, hskip, -⟩ :=
    njsFunctionFrame_spec hfresh hgood hframe
  have hover := over_njsFunctionFrame hfresh hgood hframe
  have hrun' : Running vm' F below := by
    obtain ⟨⟨above, habove, hskipped⟩, hactive', hnative⟩ := hrun
    refine ⟨⟨P :: above, ?_, ?_⟩, hactive.trans hactive', hnative⟩
    · rw [hframes, habove, List.cons_append]
    · rw [hactive]
      exact List.forall_mem_cons.2 ⟨hskip, hskipped⟩
  rw [Option.elim_some]
  refine ((harguments vm' F below hgood' hrun').event fun _ => hgood'.started).andThen
    (fun vm₂ hends => ?_) fun o vm₂ hne hends => ?_
  · rw [hends.of_ok]
    refine (hrun.orThrow (hf vm vm' hgood hframe) fun _ _ hends =>
      hends.over hgood hover).andThen (fun vm₃ hends => ?_) fun _ _ _ hends => hends
    rw [hends.of_ok]
    exact (hnext vm F below hgood hrun).event fun _ => hgood.completed Way.noConfusion
  · obtain ⟨hok, -⟩ | hthrown := hends
    · exact absurd hok hne
    · exact Or.inr (hthrown.of_same hactive hlevels)

theorem behaves_evaluate {e : Code .expression} {next : Code .statement}
    (he : Behaves mpAlign max e) (hnext : Behaves mpAlign max next) :
    Behaves mpAlign max (.evaluate e next) := by
  intro vm F below hgood hframes hactive hnative
  have hrun : Running vm F below :=
    ⟨⟨[], hframes, fun _ hf => absurd hf List.not_mem_nil⟩, hactive, hnative⟩
  rw [exec_evaluate]
  refine (he vm F below hgood hrun).andThen (fun vm' hends => ?_) fun o vm' hne hends => ?_
  · rw [hends.of_ok]
    exact hnext vm F below hgood hframes hactive hnative
  · obtain ⟨hok, -⟩ | hthrown := hends
    · exact absurd hok hne
    · exact Or.inr (Or.inl hthrown)

theorem behaves_tryCatch {body handler next : Code .statement} (hbody : Behaves mpAlign max body)
    (hhandler : Behaves mpAlign max handler) (hnext : Behaves mpAlign max next) :
    Behaves mpAlign max (.tryCatch body handler next) := by
  intro vm F below hgood hframes hactive hnative
  have hstart : njsVmcodeTryStart vm =
      { vm with frames := { F with tries := F.tries + 1 } :: below } := by
    rw [njsVmcodeTryStart, Vm.mapTop, hframes]
  have hlaid : Laid max { vm with frames := { F with tries := F.tries + 1 } :: below } :=
    hgood.toLaid.of_cells (by rw [hframes]; rfl) rfl rfl
  -- The block is left with the frame as it was before.
  have hend {vm' : Vm} (hlaid' : Laid max vm')
      (hframes' : vm'.frames = { F with tries := F.tries + 1 } :: below)
      (hactive' : vm'.active = vm.active) (hlevels' : vm'.levels = vm.levels) :
      njsVmcodeTryEnd vm' = vm := by
    have heq : njsVmcodeTryEnd vm' = { vm' with frames := F :: below } := by
      rw [njsVmcodeTryEnd, Vm.mapTop, hframes']
      rfl
    have hlaid'' : Laid max { vm' with frames := F :: below } :=
      hlaid'.of_cells (by rw [hframes']; rfl) rfl rfl
    rw [heq]
    exact hlaid''.ext hgood.toLaid hframes.symm hactive' hlevels'
  have hends := hbody _ { F with tries := F.tries + 1 } below
    ⟨hlaid, _, List.mem_cons_self, hactive⟩ rfl hactive hnative
  rw [exec_tryCatch, hstart]
  generalize exec mpAlign body { vm with frames := { F with tries := F.tries + 1 } :: below } = r
    at hends ⊢
  obtain ⟨_ | _ | _ | _, vm', log⟩ := r <;> dsimp only
  · rw [if_pos rfl]
    refine hends.follow fun hends => ?_
    obtain ⟨-, heq⟩ | hthrown | ⟨hret, -⟩ := hends
    · obtain rfl : vm' = _ := heq
      rw [hend hlaid rfl rfl rfl]
      exact hnext vm F below hgood hframes hactive hnative
    · exact absurd rfl hthrown.ne_ok
    · exact Outcome.noConfusion hret
  · rw [if_neg Outcome.noConfusion, if_neg Outcome.noConfusion]
    refine hends.keep fun hends => ?_
    obtain ⟨hok, -⟩ | ⟨caught, ho, -, -, ⟨hcaught, -⟩ | ⟨-, hzero, -⟩ | ⟨-, hzero, -⟩⟩ |
      ⟨hret, -⟩ := hends
    · exact Outcome.noConfusion hok
    · rw [hcaught, if_pos rfl] at ho
      exact Outcome.noConfusion ho
    · exact absurd hzero (Nat.succ_ne_zero _)
    · exact absurd hzero (Nat.succ_ne_zero _)
    · exact Outcome.noConfusion hret
  · rw [if_neg Outcome.noConfusion, if_neg Outcome.noConfusion]
    refine hends.keep fun hends => ?_
    obtain ⟨hok, -⟩ | ⟨caught, ho, -⟩ | ⟨-, hreturned⟩ := hends
    · exact Outcome.noConfusion hok
    · obtain _ | _ := caught <;> exact Outcome.noConfusion ho
    · exact Or.inr (Or.inr ⟨rfl, hreturned⟩)
  · have hsame : StatementEnd max { vm with frames := { F with tries := F.tries + 1 } :: below }
        { F with tries := F.tries + 1 } below .caught vm' → njsVmcodeTryEnd vm' = vm := by
      rintro (⟨hok, -⟩ | ⟨caught, ho, hlaid', hlevels', hunwound⟩ | ⟨hret, -⟩)
      · exact Outcome.noConfusion hok
      · obtain ⟨-, -, hframes', hactive'⟩ | ⟨-, hzero, -⟩ | ⟨-, hzero, -⟩ := hunwound
        · exact hend hlaid' hframes' hactive' hlevels'
        · exact absurd hzero (Nat.succ_ne_zero _)
        · exact absurd hzero (Nat.succ_ne_zero _)
      · exact Outcome.noConfusion hret
    rw [if_neg Outcome.noConfusion, if_pos rfl]
    refine (hends.follow_event (fun hends _ => ?_) fun hends _ => ?_).andThen (fun vm'' hends => ?_)
      fun _ _ _ hends => hends
    · rw [hsame hends]
      exact hgood.completed Way.noConfusion
    · rw [hsame hends]
      exact hhandler vm F below hgood hframes hactive hnative
    · obtain ⟨-, heq⟩ | hthrown | ⟨hret, -⟩ := hends
      · rw [heq]
        exact hnext vm F below hgood hframes hactive hnative
      · exact absurd rfl hthrown.ne_ok
      · exact Outcome.noConfusion hret

theorem behaves (hfresh : Fresh mpAlign) (max : ℕ) {k : Kind} (code : Code k) :
    Behaves mpAlign max code := by
  induction code with
  | ok => exact fun vm _ => Does.of_nil (Or.inl ⟨rfl, rfl⟩)
  | error => exact fun vm hgood => Does.of_nil (Or.inr ⟨rfl, hgood, Over.refl vm⟩)
  | call f next hf hnext => exact behaves_call hfresh hf hnext
  | attempt f next otherwise hf hnext hotherwise =>
    exact behaves_attempt hfresh hf hnext hotherwise
  | nativeFunction nargs code hcode => exact behaves_nativeFunction hfresh hcode
  | lambdaFunction lambda nargs body hbody => exact behaves_lambdaFunction hfresh hbody
  | done => exact fun vm _ _ _ _ => Does.of_nil (Or.inl ⟨rfl, rfl⟩)
  | operation code next hcode hnext => exact behaves_operation hcode hnext
  | invoke before f arguments next hbefore hf harguments hnext =>
    exact behaves_invoke hfresh hbefore hf harguments hnext
  | fin => exact fun vm _ _ _ _ _ _ => Does.of_nil (Or.inl ⟨rfl, rfl⟩)
  | «return» =>
    exact fun vm F _ hgood hframes _ _ => Does.of_nil
      (Or.inr (Or.inr ⟨rfl, hgood.toLaid, rfl, rfl, F.tries, hframes⟩))
  | evaluate e next he hnext => exact behaves_evaluate he hnext
  | tryCatch body handler next hbody hhandler hnext => exact behaves_tryCatch hbody hhandler hnext

/-! ### The host -/

/-- Between the calls of the host there is the frame of the global code only. -/
structure Idle (max : ℕ) (vm : Vm) : Prop extends Laid max vm where
  frame : ∃ G, vm.frames = [G] ∧ vm.active = some G.address ∧ G.native = false

theorem Idle.good (h : Idle max vm) : Good max vm := by
  obtain ⟨hlaid, G, hframes, hactive, -⟩ := h
  exact ⟨hlaid, G, hframes ▸ List.mem_singleton_self G, hactive⟩

theorem idle_njsVmRuntimeInit (hfresh : Fresh mpAlign) {levels : ℕ × ℕ}
    (hinit : njsVmRuntimeInit mpAlign ⟨[], none, levels, max, []⟩ = some vm) : Idle max vm := by
  obtain ⟨vm₁, halloc, rfl⟩ := Option.map_eq_some_iff.1 hinit
  have hempty : Laid max ⟨[], none, levels, max, []⟩ := ⟨Nested.nil, rfl, Nat.add_zero _⟩
  obtain ⟨hlaid, ⟨cell, hframes⟩, -, -⟩ :=
    njsFunctionFrameAlloc_spec hfresh hempty (by decide) halloc
  refine ⟨hlaid.of_cells rfl rfl rfl, Frame.zero cell, hframes, ?_, rfl⟩
  rw [hframes]
  rfl

theorem outcome_attempt (f : Code .function) (vm : Vm) :
    (exec mpAlign (.attempt f .ok .ok) vm).outcome = .ok := by
  rw [exec_attempt]
  rcases njsFunctionFrame mpAlign vm f with _ | vm'
  · rfl
  · rw [Option.elim_some]
    dsimp only
    split_ifs <;> rfl

theorem Host.does (hfresh : Fresh mpAlign) (h : Idle max vm) (host : Host) :
    Does max (host.exec mpAlign vm) fun _ vm' => Idle max vm' := by
  have hgood := h.good
  obtain body | f := host
  · obtain ⟨hlaid, G, hframes, hactive, hnative⟩ := h
    have hends := behaves hfresh max body vm G [] hgood hframes hactive hnative
    -- The frame stays, also when the script has returned from within a block.
    have hidle {o : Outcome} {vm' : Vm} (hend : StatementEnd max vm G [] o vm') : Laid max vm' ∧
        (∃ t, vm'.frames = [{ G with tries := t }]) ∧ vm'.active = vm.active ∧
          vm'.levels = vm.levels := by
      obtain ⟨-, rfl⟩ | ⟨caught, -, hlaid', hlevels, hunwound⟩ |
        ⟨-, hlaid', hactive', hlevels, ht⟩ := hend
      · exact ⟨hlaid, ⟨G.tries, hframes⟩, rfl, rfl⟩
      · obtain ⟨-, -, hframes', hactive'⟩ | ⟨-, -, -, hframes', hactive'⟩ | ⟨-, -, hne, -⟩ :=
          hunwound
        · exact ⟨hlaid', ⟨G.tries, hframes'⟩, hactive', hlevels⟩
        · exact ⟨hlaid', ⟨G.tries, hframes'⟩, hactive', hlevels⟩
        · exact absurd rfl hne
      · exact ⟨hlaid', ht, hactive', hlevels⟩
    intro hgiven
    obtain ⟨hgiven, -⟩ := List.forall_mem_append.1 hgiven
    obtain ⟨hproper, hend⟩ := hends hgiven
    obtain ⟨hlaid', ⟨t, hframes'⟩, hactive', hlevels⟩ := hidle hend
    refine ⟨List.forall_mem_append.2 ⟨hproper, List.forall_mem_singleton.2
      ⟨⟨⟨?_, hactive', hlevels⟩, hlaid'.accounted⟩, ?_⟩⟩,
      hlaid', _, hframes', hactive'.trans hactive, hnative⟩
    · rw [Vm.topFrame, Vm.topFrame, hframes, hframes']
      rfl
    · split_ifs
      · exact Bool.false_ne_true
      · exact id
  · intro hgiven
    obtain ⟨hproper, ⟨-, heq⟩ | ⟨herror, -⟩⟩ :=
      behaves hfresh max (.attempt f .ok .ok) vm hgood hgiven
    · rw [Host.exec, heq]
      exact ⟨hproper, h⟩
    · exact Outcome.noConfusion ((outcome_attempt f vm).symm.trans herror)

theorem proper_runAll (hfresh : Fresh mpAlign) (h : Idle max vm) (hosts : List Host)
    (hgiven : ∀ e ∈ runAll mpAlign hosts vm, e.Given max) :
    ∀ e ∈ runAll mpAlign hosts vm, e.Proper max := by
  induction hosts generalizing vm with
  | nil => exact fun e he => absurd he List.not_mem_nil
  | cons host hosts ih =>
    obtain ⟨hfirst, hrest⟩ := List.forall_mem_append.1 hgiven
    obtain ⟨hproper, hidle⟩ := host.does hfresh h hfirst
    exact List.forall_mem_append.2 ⟨hproper, ih hidle hrest⟩

/-- All calls leave the stack as it was, just when C code does not go on after the error of a native
function. -/
theorem runAll_sound_iff (hfresh : Fresh mpAlign) {levels : ℕ × ℕ}
    (hinit : njsVmRuntimeInit mpAlign ⟨[], none, levels, max, []⟩ = some vm)
    (hosts : List Host) :
    (∀ e ∈ runAll mpAlign hosts vm, e.Sound max) ↔
      ∀ e ∈ runAll mpAlign hosts vm, ¬e.LeavesNative := by
  have hidle := idle_njsVmRuntimeInit hfresh hinit
  constructor
  · intro hsound e he
    exact (proper_runAll hfresh hidle hosts (fun e he => Or.inl (hsound e he)) e he).2
  · intro hleaves e he
    exact (proper_runAll hfresh hidle hosts (fun e he => Or.inr (hleaves e he)) e he).1

/-! ### A promise whose executor is native -/

def nextChunk (chunks : List (ℕ × ℕ)) (_ : ℕ) : Option ℕ :=
  some (chunks.foldr (fun chunk n => (chunk.1 + chunk.2).max n) 4096)

theorem fresh_nextChunk : Fresh nextChunk := by
  intro chunks size address haddress c hc
  obtain rfl := Option.some.inj haddress
  right
  clear haddress
  induction chunks with
  | nil => exact absurd hc List.not_mem_nil
  | cons chunk chunks ih =>
    rw [List.foldr_cons]
    obtain rfl | hc := List.mem_cons.1 hc
    · exact Nat.le_max_left _ _
    · exact Nat.le_trans (ih hc) (Nat.le_max_right _ _)

/-- The virtual machine before the script is run. -/
def idleVm : Vm := (njsVmRuntimeInit nextChunk ⟨[], none, (0, 0), 65536, []⟩).get rfl

/-- `new Promise(executor)`, and what else is called when that fails. -/
def newPromise (executor : Code .function) : Code .expression :=
  .invoke .ok (.nativeFunction 1 (.attempt executor .ok (.call (.nativeFunction 1 .ok) .ok)))
    .done .done

/-- A function with so many local variables that the frame of the executor is in a new chunk. -/
def promiseCaller (executor : Code .function) : Host :=
  .invoke (.lambdaFunction ⟨0, 325, 0⟩ 0 (.evaluate (newPromise executor) .return))

def throwingExecutor : Code .function :=
  .lambdaFunction ⟨2, 1, 0⟩ 2 (.evaluate (.operation .error .done) .fin)

theorem runAll_sound_throwingExecutor :
    runAll nextChunk [promiseCaller throwingExecutor] idleVm ≠ [] ∧
      ∀ e ∈ runAll nextChunk [promiseCaller throwingExecutor] idleVm, e.Sound 65536 :=
  ⟨List.cons_ne_nil _ _,
    (runAll_sound_iff fresh_nextChunk (Option.some_get _).symm _).2 (by decide)⟩

/-- The executor is `JSON.parse`, which throws: 8192 bytes of the stack are lost. -/
theorem runAll_lost :
    ¬∀ e ∈ runAll nextChunk [promiseCaller (.nativeFunction 2 .error)] idleVm, e.Sound 65536 := by
  intro hsound
  have hlast := hsound _ (List.getLast_mem (List.cons_ne_nil _ _))
  exact absurd hlast.accounted.account (by decide)

end Njs.CallStack
