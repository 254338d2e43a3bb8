import Mathlib.Data.List.Perm.Basic
import Njs.Lib.Runs
import Njs.Promises.Core

/-!
# Runs of promise operations

A run keeps, besides the state, the jobs that were started and the reactions that were registered.
A promise that is not settled yet can be settled by one thing at most: by a pair of resolving
functions that was not used, by a call that reads the property `then`, or by a job that calls the
`then` of a thenable.
-/

namespace Njs.Promises

variable {V S : Type}

/-! ### Histories -/

/-- A state, the jobs that were started, and the reactions that were registered, each with its
promise. -/
structure History (V S : Type) where
  vm : State V S
  executed : List (Job V S)
  registered : List (ℕ × ℕ)

def Job.delivery : Job V S → Option (ℕ × PromiseType × V)
  | .reaction r argument => some (r.address, r.type, argument)
  | .thenable _ _ _ => none

/-- The promise that a job calls `then` for. -/
def Job.target : Job V S → Option ℕ
  | .reaction _ _ => none
  | .thenable p _ _ => some p

/-- The reactions that were made into jobs, in the order of the jobs. -/
def History.delivered (h : History V S) : List (ℕ × PromiseType × V) :=
  (h.executed ++ h.vm.jobs).filterMap Job.delivery

/-- The promises that something can still settle. -/
def State.live (s : State V S) : List ℕ :=
  (s.contexts.filter fun c => !c.resolved).map Context.promise ++
    (s.lookups.map Prod.fst ++ s.jobs.filterMap Job.target)

def started (s : State V S) : Event V S → List (Job V S)
  | .runJob =>
    match s.running, s.jobs with
    | none, job :: _ => [job]
    | _, _ => []
  | _ => []

def registers (s : State V S) : Event V S → List (ℕ × ℕ)
  | .performThen p _ _ _ => if p < s.promises then [(p, s.reactions)] else []
  | _ => []

/-- A step. -/
def next (values : Values V) (h : History V S) (e : Event V S) : History V S where
  vm := step values h.vm e
  executed := h.executed ++ started h.vm e
  registered := h.registered ++ registers h.vm e

/-- Before anything is done. -/
def History.empty : History V S := ⟨.empty, [], []⟩

/-! ### What can settle a promise -/

theorem unresolved_set {l : List Context} {i : ℕ} {c : Context} (hc : l[i]? = some c)
    (hresolved : c.resolved = false) :
    ((l.filter fun c => !c.resolved).map Context.promise).Perm
      (c.promise :: ((l.set i ⟨c.promise, true⟩).filter fun c => !c.resolved).map
        Context.promise) := by
  induction l generalizing i with
  | nil => cases hc
  | cons d l ih =>
    cases i with
    | zero =>
      obtain rfl := Option.some.inj hc
      simp [hresolved]
    | succ i =>
      have hrest := ih hc
      rw [List.set_cons_succ]
      by_cases hd : d.resolved = true
      · simpa [hd] using hrest
      · simpa [hd] using (hrest.cons d.promise).trans (.swap ..)

variable {p : ℕ}

theorem lock_spec {context : ℕ} {s s' : State V S} (h : lock context s = some (s', p)) :
    (∃ contexts, s' = { s with contexts }) ∧ s.live.Perm (p :: s'.live) := by
  rw [lock] at h
  split at h
  case h_2 => cases h
  case h_1 c hc =>
    split_ifs at h with hresolved
    cases h
    refine ⟨⟨_, rfl⟩, ?_⟩
    exact (unresolved_set hc (Bool.eq_false_iff.mpr hresolved)).append_right _

theorem live_lookup {s : State V S} {n : ℕ} {v : V} (h : s.lookups[n]? = some (p, v)) :
    s.live.Perm (p :: ({ s with lookups := s.lookups.eraseIdx n } : State V S).live) := by
  have hperm : (s.lookups.map Prod.fst).Perm (p :: (s.lookups.eraseIdx n).map Prod.fst) := by
    obtain ⟨hn, hget⟩ := List.getElem?_eq_some_iff.mp h
    have := (List.getElem_cons_eraseIdx_perm hn).symm.map Prod.fst
    rwa [hget] at this
  refine (List.Perm.append_left _ (hperm.append_right _)).trans ?_
  exact List.perm_middle

/-! ### What a step can do -/

structure Promise.Settled (data : Promise V S) (t : PromiseType) (v : V) : Prop where
  state : data.state = t
  ne_pending : t ≠ .pending
  result : data.result = some v

/-- The reactions of a promise for one way of being settled. -/
def Promise.queue (data : Promise V S) : PromiseType → List (Reaction S)
  | .rejected => data.rejectQueue
  | _ => data.fulfillQueue

/-- What a step can do: nothing to promises; make one; settle one, with its reactions made into
jobs; or register a reaction, which is made into a job at once if the promise is settled. -/
inductive Effect (h h' : History V S) : Prop
  | quiet (promise : h'.vm.promise = h.vm.promise) (promises : h'.vm.promises = h.vm.promises)
      (live : h.vm.live.Perm h'.vm.live) (delivered : h'.delivered = h.delivered)
      (registered : h'.registered = h.registered) (reactions : h'.vm.reactions = h.vm.reactions)
  | made
      (promise : h'.vm.promise =
        Function.update h.vm.promise h.vm.promises ⟨.pending, none, [], [], false⟩)
      (promises : h'.vm.promises = h.vm.promises + 1)
      (live : (h.vm.promises :: h.vm.live).Perm h'.vm.live) (delivered : h'.delivered = h.delivered)
      (registered : h'.registered = h.registered) (reactions : h'.vm.reactions = h.vm.reactions)
  | settled (p : ℕ) (t : PromiseType) (v : V) (data : Promise V S)
      (promise : h'.vm.promise = Function.update h.vm.promise p data) (data_settled :
        data.Settled t v)
      (promises : h'.vm.promises = h.vm.promises) (live : h.vm.live.Perm (p :: h'.vm.live))
      (delivered : h'.delivered =
        h.delivered ++ ((h.vm.promise p).queue t).map fun r => (r.address, r.type, v))
      (registered : h'.registered = h.registered) (reactions : h'.vm.reactions = h.vm.reactions)
  | registered (p : ℕ) (data : Promise V S) (hp : p < h.vm.promises)
      (promise : h'.vm.promise = Function.update h.vm.promise p data)
      (promises : h'.vm.promises = h.vm.promises) (live : h.vm.live.Perm h'.vm.live)
      (registered : h'.registered = h.registered ++ [(p, h.vm.reactions)])
      (reactions : h'.vm.reactions = h.vm.reactions + 1)
      (state : data.state = (h.vm.promise p).state) (result : data.result = (h.vm.promise p).result)
      (pending : data.state = .pending → h'.delivered = h.delivered ∧
        ∀ t ≠ .pending, ∃ r : Reaction S, r.address = h.vm.reactions ∧ r.type = t ∧
          data.queue t = (h.vm.promise p).queue t ++ [r])
      (notPending : ∀ v, data.Settled data.state v →
        h'.delivered = h.delivered ++ [(h.vm.reactions, data.state, v)])

/-! ### The operations -/

/-- The state in which an operation of a step starts: a job may have been taken from the queue. -/
structure Starts (h : History V S) (s : State V S) (executed : List (Job V S)) : Prop where
  promise : s.promise = h.vm.promise
  promises : s.promises = h.vm.promises
  reactions : s.reactions = h.vm.reactions
  live : h.vm.live.Perm s.live
  jobs : (executed ++ s.jobs).filterMap Job.delivery = h.delivered

theorem Starts.refl (h : History V S) : Starts h h.vm h.executed := ⟨rfl, rfl, rfl, .refl _, rfl⟩

theorem Starts.quiet {h : History V S} {s : State V S} {executed : List (Job V S)}
    (hs : Starts h s executed) : Effect h ⟨s, executed, h.registered⟩ :=
  .quiet hs.promise hs.promises hs.live hs.jobs rfl hs.reactions

def Settles (p : ℕ) (t : PromiseType) (v : V) (s s' : State V S) : Prop :=
  ∃ data tracked, Promise.Settled data t v ∧ s' = { s with
      promise := Function.update s.promise p data
      tracked
      jobs := s.jobs ++ ((s.promise p).queue t).map fun r => .reaction r v }

theorem njsPromiseFulfill_settles (p : ℕ) (v : V) (s : State V S) :
    Settles p .fulfill v s (njsPromiseFulfill p v s) := by
  rw [njsPromiseFulfill]
  dsimp only
  by_cases hempty : (s.promise p).fulfillQueue.isEmpty = true
  · refine ⟨{ s.promise p with result := some v, state := .fulfill }, s.tracked,
      ⟨rfl, nofun, rfl⟩, ?_⟩
    have hqueue : (s.promise p).queue .fulfill = [] := List.isEmpty_iff.mp hempty
    rw [if_pos hempty, hqueue, List.map_nil, List.append_nil]
  · rw [if_neg hempty]
    exact ⟨⟨.fulfill, some v, [], [], (s.promise p).isHandled⟩, s.tracked, ⟨rfl, nofun, rfl⟩, rfl⟩

theorem njsPromiseReject_settles (p : ℕ) (v : V) (s : State V S) :
    Settles p .rejected v s (njsPromiseReject p v s) := by
  rw [njsPromiseReject]
  dsimp only
  generalize (if (s.promise p).isHandled = true then _ else _) = tracked
  by_cases hempty : (s.promise p).rejectQueue.isEmpty = true
  · refine ⟨{ s.promise p with result := some v, state := .rejected }, tracked,
      ⟨rfl, nofun, rfl⟩, ?_⟩
    have hqueue : (s.promise p).queue .rejected = [] := List.isEmpty_iff.mp hempty
    rw [if_pos hempty, hqueue, List.map_nil, List.append_nil]
  · rw [if_neg hempty]
    exact ⟨⟨.rejected, some v, [], [], (s.promise p).isHandled⟩, tracked, ⟨rfl, nofun, rfl⟩, rfl⟩

theorem filterMap_target_reaction (l : List (Reaction S)) (v : V) :
    (l.map fun r => Job.reaction r v).filterMap Job.target = [] := by
  rw [List.filterMap_map]
  exact List.filterMap_eq_nil_iff.mpr fun _ _ => rfl

theorem filterMap_delivery_reaction (l : List (Reaction S)) (v : V) :
    (l.map fun r => Job.reaction r v).filterMap Job.delivery =
      l.map fun r => (r.address, r.type, v) := by
  rw [List.filterMap_map]
  exact congrFun (List.filterMap_eq_map ..) l

theorem Settles.effect {h : History V S} {s₀ s s' : State V S} {executed : List (Job V S)}
    {t : PromiseType} {v : V} (hs : Settles p t v s s') (h₀ : Starts h s₀ executed)
    (hpromise : s.promise = s₀.promise) (hpromises : s.promises = s₀.promises)
    (hreactions : s.reactions = s₀.reactions) (hjobs : s.jobs = s₀.jobs)
    (hlive : s₀.live.Perm (p :: s.live)) : Effect h ⟨s', executed, h.registered⟩ := by
  obtain ⟨data, tracked, hdata, rfl⟩ := hs
  refine .settled p t v data ?_ hdata (hpromises.trans h₀.promises) ?_ ?_ rfl
    (hreactions.trans h₀.reactions)
  · rw [hpromise, h₀.promise]
  · refine h₀.live.trans (hlive.trans (.of_eq ?_))
    simp only [State.live, List.filterMap_append, filterMap_target_reaction, List.append_nil]
  · rw [History.delivered, hpromise, h₀.promise, hjobs, ← List.append_assoc,
      List.filterMap_append, h₀.jobs, filterMap_delivery_reaction]

section Calls

variable {values : Values V} {h : History V S} {s : State V S} {executed : List (Job V S)}
  (hs : Starts h s executed)

include hs

theorem resolveFunction_effect (context : ℕ) (v : V) :
    Effect h ⟨njsPromiseResolveFunction values context v s, executed, h.registered⟩ := by
  rw [njsPromiseResolveFunction]
  cases hlock : lock context s with
  | none => exact hs.quiet
  | some r =>
    obtain ⟨s₁, p⟩ := r
    obtain ⟨⟨contexts, rfl⟩, hlive⟩ := lock_spec hlock
    dsimp only
    split_ifs
    · have hreject := njsPromiseReject_settles p values.selfResolution { s with contexts }
      exact hreject.effect hs rfl rfl rfl rfl hlive
    · refine .quiet hs.promise hs.promises (hs.live.trans (hlive.trans ?_)) hs.jobs rfl hs.reactions
      exact List.perm_middle.symm
    · have hfulfill := njsPromiseFulfill_settles p v { s with contexts }
      exact hfulfill.effect hs rfl rfl rfl rfl hlive

theorem rejectFunction_effect (context : ℕ) (v : V) :
    Effect h ⟨njsPromiseRejectFunction context v s, executed, h.registered⟩ := by
  rw [njsPromiseRejectFunction]
  cases hlock : lock context s with
  | none => exact hs.quiet
  | some r =>
    obtain ⟨s₁, p⟩ := r
    obtain ⟨⟨contexts, rfl⟩, hlive⟩ := lock_spec hlock
    have hreject := njsPromiseReject_settles p v { s with contexts }
    exact hreject.effect hs rfl rfl rfl rfl hlive

theorem settleCapability_effect (capability : Option (Capability S)) (r : Except V V) :
    Effect h ⟨settleCapability values capability r s, executed, h.registered⟩ := by
  have hcall (f : Func S) (v : V) : Effect h ⟨f.call values v s, executed, h.registered⟩ := by
    cases f with
    | resolve context => exact resolveFunction_effect hs context v
    | reject context => exact rejectFunction_effect hs context v
    | script f => exact hs.quiet
  cases capability with
  | none => exact hs.quiet
  | some capability =>
    cases r with
    | ok v => exact hcall capability.resolve v
    | error e => exact hcall capability.reject e

end Calls

/-- The rest of a call that read the property `then`. -/
theorem lookup_effect {h : History V S} {n : ℕ} {v : V} (hn : h.vm.lookups[n]? = some (p, v))
    (r : Then V S) :
    Effect h ⟨resolveWith p v r { h.vm with lookups := h.vm.lookups.eraseIdx n }, h.executed,
      h.registered⟩ := by
  have hlive := live_lookup hn
  cases r with
  | error e =>
    have hreject := njsPromiseReject_settles p e { h.vm with lookups := h.vm.lookups.eraseIdx n }
    exact hreject.effect (.refl h) rfl rfl rfl rfl hlive
  | notFunction =>
    have hfulfill := njsPromiseFulfill_settles p v { h.vm with lookups := h.vm.lookups.eraseIdx n }
    exact hfulfill.effect (.refl h) rfl rfl rfl rfl hlive
  | function f =>
    refine .quiet rfl rfl (hlive.trans ?_) ?_ rfl rfl
    · simp only [resolveWith, State.live, List.filterMap_append, List.filterMap_cons, Job.target,
        List.filterMap_nil, ← List.append_assoc]
      exact (List.perm_append_singleton ..).symm
    · simp [History.delivered, resolveWith, Job.delivery]

theorem next_eq {values : Values V} {h : History V S} {e : Event V S} {s : State V S}
    {jobs : List (Job V S)} (hs : step values h.vm e = s) (hjobs : started h.vm e = jobs)
    (hregisters : registers h.vm e = []) :
    next values h e = ⟨s, h.executed ++ jobs, h.registered⟩ := by
  rw [next, hs, hjobs, hregisters, List.append_nil]

theorem next_idle {values : Values V} {h : History V S} {e : Event V S}
    (hjobs : started h.vm e = []) (hregisters : registers h.vm e = []) :
    next values h e = ⟨step values h.vm e, h.executed, h.registered⟩ := by
  rw [next_eq rfl hjobs hregisters, List.append_nil]

theorem runJob_effect (values : Values V) (h : History V S) : Effect h (next values h .runJob) := by
  have hidle (hstep : step values h.vm .runJob = h.vm) (hstarted : started h.vm .runJob = []) :
      Effect h (next values h .runJob) := by
    rw [next_eq hstep hstarted rfl, List.append_nil]
    exact (Starts.refl h).quiet
  cases hrunning : h.vm.running with
  | some r =>
    refine hidle ?_ ?_
    · simp [step, njsVmExecutePendingJob, hrunning]
    · simp [started, hrunning]
  | none =>
    cases hjobs : h.vm.jobs with
    | nil =>
      refine hidle ?_ ?_
      · simp [step, njsVmExecutePendingJob, hrunning, hjobs]
      · simp [started, hrunning, hjobs]
    | cons job jobs =>
      have hstarted : started h.vm .runJob = [job] := by simp [started, hrunning, hjobs]
      have htaken : (h.executed ++ [job] ++ jobs).filterMap Job.delivery = h.delivered := by
        rw [History.delivered, hjobs, List.append_assoc, List.singleton_append]
      cases job with
      | reaction r argument =>
        have hs : Starts h { h.vm with jobs } (h.executed ++ [.reaction r argument]) := by
          refine ⟨rfl, rfl, rfl, .of_eq ?_, htaken⟩
          rw [State.live, State.live, hjobs]
          rfl
        have hstep : step values h.vm .runJob =
            njsPromiseReactionJob values r argument { h.vm with jobs } := by
          simp only [step, njsVmExecutePendingJob, hrunning, hjobs]
        rw [next_eq hstep hstarted rfl, njsPromiseReactionJob]
        split
        · split_ifs
          · exact settleCapability_effect hs r.capability _
          · exact settleCapability_effect hs r.capability _
        · exact .quiet rfl rfl hs.live hs.jobs rfl rfl
      | thenable p v f =>
        have hstep : step values h.vm .runJob =
            njsPromiseResolveThenableJob p { h.vm with jobs } := by
          simp only [step, njsVmExecutePendingJob, hrunning, hjobs]
        rw [next_eq hstep hstarted rfl]
        refine .quiet rfl rfl ?_ htaken rfl rfl
        simp only [njsPromiseResolveThenableJob, njsPromiseCreateResolvingFunctions, State.live,
          hjobs, List.filter_append, List.map_append, List.append_assoc]
        refine List.Perm.append_left _ ?_
        exact List.perm_middle

theorem jobReturn_effect (values : Values V) (h : History V S) (r : Except V V) :
    Effect h ⟨jobReturn values r h.vm, h.executed, h.registered⟩ := by
  have hs : Starts h { h.vm with running := none } h.executed := ⟨rfl, rfl, rfl, .refl _, rfl⟩
  rw [jobReturn]
  split
  · exact (Starts.refl h).quiet
  · exact settleCapability_effect hs _ r
  · cases r with
    | ok v => exact hs.quiet
    | error e => exact rejectFunction_effect hs _ e

theorem performThen_effect (values : Values V) (h : History V S) (hp : p < h.vm.promises)
    (fulfilled rejected : Option (Func S)) (capability : Option (Capability S)) :
    Effect h ⟨njsPromisePerformThen values p fulfilled rejected capability h.vm, h.executed,
      h.registered ++ [(p, h.vm.reactions)]⟩ := by
  rw [njsPromisePerformThen]
  dsimp only
  cases hstate : (h.vm.promise p).state with
  | pending =>
    refine .registered p _ hp rfl rfl (.refl _) rfl rfl hstate.symm rfl
      (fun _ => ⟨rfl, fun t ht => ?_⟩) fun v hv => absurd rfl hv.ne_pending
    cases t with
    | pending => exact absurd rfl ht
    | fulfill => exact ⟨_, rfl, rfl, rfl⟩
    | rejected => exact ⟨_, rfl, rfl, rfl⟩
  | fulfill =>
    refine .registered p _ hp rfl rfl (.of_eq ?_) rfl rfl hstate.symm rfl nofun fun v hv => ?_
    · simp [State.live, Job.target]
    · have hresult : (h.vm.promise p).result = some v := hv.result
      simp [History.delivered, Job.delivery, hresult, ← List.append_assoc]
  | rejected =>
    refine .registered p _ hp rfl rfl (.of_eq ?_) rfl rfl hstate.symm rfl nofun fun v hv => ?_
    · simp [State.live, Job.target]
    · have hresult : (h.vm.promise p).result = some v := hv.result
      simp [History.delivered, Job.delivery, hresult, ← List.append_assoc]

theorem effect_next (values : Values V) (h : History V S) (e : Event V S) :
    Effect h (next values h e) := by
  cases e with
  | construct =>
    rw [next_idle rfl rfl]
    refine .made rfl rfl ?_ rfl rfl rfl
    simp only [step, njsPromiseAlloc, njsPromiseCreateResolvingFunctions, State.live,
      List.filter_append, List.map_append, List.append_assoc]
    exact List.perm_middle.symm
  | resolve context v =>
    rw [next_idle rfl rfl]
    exact resolveFunction_effect (.refl h) context v
  | reject context v =>
    rw [next_idle rfl rfl]
    exact rejectFunction_effect (.refl h) context v
  | lookup n r =>
    rw [next_idle rfl rfl, step]
    split
    case h_1 p v hn => exact lookup_effect hn r
    case h_2 => exact (Starts.refl h).quiet
  | performThen p fulfilled rejected capability =>
    have hstarted : started h.vm (.performThen p fulfilled rejected capability) = [] := rfl
    rw [next, hstarted, List.append_nil, step, registers]
    split_ifs with hp
    · exact performThen_effect values h hp fulfilled rejected capability
    · rw [List.append_nil]
      exact (Starts.refl h).quiet
  | runJob => exact runJob_effect values h
  | jobReturn r =>
    rw [next_idle rfl rfl]
    exact jobReturn_effect values h r

end Njs.Promises
