import Mathlib.Order.Nat
import Njs.Promises.History

/-!
# What the reactions of a state have in common
-/

namespace Njs.Promises

variable {V S : Type}

/-! ### Properties of reactions -/

def Capability.Holds (G : Func S → Prop) (c : Capability S) : Prop := G c.resolve ∧ G c.reject

/-- What a job goes on with. -/
def Running.Holds (G : Func S → Prop) : Running S → Prop
  | .reaction capability => ∀ c ∈ capability, c.Holds G
  | .thenable context => G (.reject context)

/-- All reactions have a property, and so do the functions of the running job. -/
structure Holds (P : Reaction S → Prop) (G : Func S → Prop) (s : State V S) : Prop where
  queue : ∀ p t, ∀ r ∈ (s.promise p).queue t, P r
  jobs : ∀ r v, Job.reaction r v ∈ s.jobs → P r
  running : ∀ r ∈ s.running, r.Holds G

/-- The two reactions that a call of `then` makes. -/
def Event.created (s : State V S) : Event V S → List (Reaction S)
  | .performThen p fulfilled rejected capability =>
    if p < s.promises then
      [⟨s.reactions, capability, .fulfill, fulfilled⟩,
        ⟨s.reactions, capability, .rejected, rejected⟩]
    else []
  | _ => []

variable {P : Reaction S → Prop} {G : Func S → Prop} {s : State V S}

@[simp]
theorem Promise.queue_mk (data : Promise V S) (state : PromiseType) (result : Option V)
    (isHandled : Bool) (t : PromiseType) :
    (⟨state, result, data.fulfillQueue, data.rejectQueue, isHandled⟩ : Promise V S).queue t =
      data.queue t := by
  cases t <;> rfl

theorem Holds.mono {P' : Reaction S → Prop} {G' : Func S → Prop} (hs : Holds P G s)
    (hP : ∀ r, P r → P' r) (hG : ∀ f, G f → G' f) : Holds P' G' s where
  queue p t r hr := hP r (hs.queue p t r hr)
  jobs r v hr := hP r (hs.jobs r v hr)
  running r hr := by
    have hold := hs.running r hr
    cases r with
    | reaction capability => exact fun c hc => ⟨hG _ (hold c hc).1, hG _ (hold c hc).2⟩
    | thenable context => exact hG _ hold

theorem Holds.taken {s' : State V S} (hs : Holds P G s) (hpromise : s'.promise = s.promise)
    (hjobs : ∀ r v, Job.reaction r v ∈ s'.jobs → Job.reaction r v ∈ s.jobs)
    (hrunning : ∀ r ∈ s'.running, r.Holds G) : Holds P G s' where
  queue := hpromise ▸ hs.queue
  jobs r v hr := hs.jobs r v (hjobs r v hr)
  running := hrunning

theorem Holds.triggered {s' : State V S} (hs : Holds P G s) {p : ℕ} {t : PromiseType} {v : V}
    {data : Promise V S} (hpromise : s'.promise = Function.update s.promise p data)
    (hdata : ∀ t, ∀ r ∈ data.queue t, P r)
    (hjobs : s'.jobs = s.jobs ++ ((s.promise p).queue t).map fun r => .reaction r v)
    (hrunning : s'.running = s.running) : Holds P G s' where
  queue q t' r hr := by
    rw [hpromise, Function.update_apply] at hr
    split_ifs at hr
    · exact hdata t' r hr
    · exact hs.queue q t' r hr
  jobs r w hr := by
    rw [hjobs, List.mem_append, List.mem_map] at hr
    rcases hr with hr | ⟨r', hr', heq⟩
    · exact hs.jobs r w hr
    · obtain ⟨rfl, rfl⟩ : r' = r ∧ v = w := by simpa using heq
      exact hs.queue p t r' hr'
  running := hrunning ▸ hs.running

theorem Holds.fulfill (hs : Holds P G s) (p : ℕ) (v : V) : Holds P G (njsPromiseFulfill p v s) := by
  rw [njsPromiseFulfill]
  dsimp only
  by_cases hempty : (s.promise p).fulfillQueue.isEmpty = true
  · rw [if_pos hempty]
    refine hs.triggered (t := .fulfill) (v := v) rfl (fun t r hr => ?_) ?_ rfl
    · rw [Promise.queue_mk] at hr
      exact hs.queue p t r hr
    · rw [show (s.promise p).queue .fulfill = [] from List.isEmpty_iff.mp hempty, List.map_nil,
        List.append_nil]
  · rw [if_neg hempty]
    refine hs.triggered (t := .fulfill) (v := v) rfl (fun t r hr => ?_) rfl rfl
    cases t <;> cases hr

theorem Holds.reject (hs : Holds P G s) (p : ℕ) (v : V) : Holds P G (njsPromiseReject p v s) := by
  rw [njsPromiseReject]
  dsimp only
  by_cases hempty : (s.promise p).rejectQueue.isEmpty = true
  · rw [if_pos hempty]
    refine hs.triggered (t := .rejected) (v := v) rfl (fun t r hr => ?_) ?_ rfl
    · rw [Promise.queue_mk] at hr
      exact hs.queue p t r hr
    · rw [show (s.promise p).queue .rejected = [] from List.isEmpty_iff.mp hempty, List.map_nil,
        List.append_nil]
  · rw [if_neg hempty]
    refine hs.triggered (t := .rejected) (v := v) rfl (fun t r hr => ?_) rfl rfl
    cases t <;> cases hr

section Calls

variable {values : Values V}

variable {context : ℕ} {s' : State V S}

theorem Holds.lock {p : ℕ} (hs : Holds P G s) (h : lock context s = some (s', p)) :
    Holds P G s' := by
  obtain ⟨⟨contexts, rfl⟩, -⟩ := lock_spec h
  exact hs.taken rfl (fun _ _ => id) hs.running

theorem Holds.resolveFunction (hs : Holds P G s) (context : ℕ) (v : V) :
    Holds P G (njsPromiseResolveFunction values context v s) := by
  rw [njsPromiseResolveFunction]
  split
  · exact hs
  rename_i s₁ p hlock
  have hs₁ := hs.lock hlock
  split_ifs
  · exact hs₁.reject p _
  · exact hs₁.taken rfl (fun _ _ => id) hs₁.running
  · exact hs₁.fulfill p v

theorem Holds.rejectFunction (hs : Holds P G s) (context : ℕ) (v : V) :
    Holds P G (njsPromiseRejectFunction context v s) := by
  rw [njsPromiseRejectFunction]
  split
  · exact hs
  · rename_i s₁ p hlock
    exact (hs.lock hlock).reject p v

theorem Holds.call (hs : Holds P G s) (f : Func S) (v : V) : Holds P G (f.call values v s) := by
  cases f with
  | resolve context => exact hs.resolveFunction context v
  | reject context => exact hs.rejectFunction context v
  | script f => exact hs

theorem Holds.settleCapability (hs : Holds P G s) (capability : Option (Capability S))
    (r : Except V V) : Holds P G (settleCapability values capability r s) := by
  cases capability with
  | none => exact hs
  | some c =>
    cases r with
    | ok v => exact hs.call c.resolve v
    | error e => exact hs.call c.reject e

theorem Holds.step (hs : Holds P G s) {e : Event V S} (hP : ∀ r, P r → ∀ c ∈ r.capability,
    c.Holds G)
    (hcreated : ∀ r ∈ e.created s, P r)
    (hcontext : e = .runJob → s.contexts.length < (Promises.step values s e).contexts.length →
      G (.reject s.contexts.length)) :
    Holds P G (Promises.step values s e) := by
  cases e with
  | construct =>
    refine ⟨fun p t r hr => ?_, hs.jobs, hs.running⟩
    change r ∈ (Function.update s.promise s.promises _ p).queue t at hr
    rw [Function.update_apply] at hr
    split_ifs at hr
    · cases t <;> cases hr
    · exact hs.queue p t r hr
  | resolve context v => exact hs.resolveFunction context v
  | reject context v => exact hs.rejectFunction context v
  | lookup n r =>
    rw [Promises.step]
    split
    · rename_i p v _
      have hs₁ : Holds P G { s with lookups := s.lookups.eraseIdx n } :=
        hs.taken rfl (fun _ _ => id) hs.running
      cases r with
      | error e => exact hs₁.reject p e
      | notFunction => exact hs₁.fulfill p v
      | function f =>
        refine hs₁.taken rfl (fun r w hr => ?_) hs₁.running
        simpa [resolveWith] using hr
    · exact hs
  | performThen p fulfilled rejected capability =>
    rw [Promises.step]
    split_ifs with hp
    · rw [Event.created, if_pos hp] at hcreated
      have hfulfilled := hcreated _ List.mem_cons_self
      have hrejected := hcreated _ (List.mem_cons_of_mem _ List.mem_cons_self)
      have hqueue (t : PromiseType) : ∀ r ∈ (s.promise p).queue t, P r := hs.queue p t
      rw [njsPromisePerformThen]
      dsimp only
      cases (s.promise p).state with
      | pending =>
        refine ⟨fun q t r hr => ?_, hs.jobs, hs.running⟩
        change r ∈ (Function.update s.promise p _ q).queue t at hr
        rw [Function.update_apply] at hr
        split_ifs at hr
        · cases t with
          | rejected =>
            rcases List.mem_append.mp hr with hr | hr
            · exact hqueue .rejected r hr
            · exact List.mem_singleton.mp hr ▸ hrejected
          | pending | fulfill =>
            rcases List.mem_append.mp hr with hr | hr
            · exact hqueue .fulfill r hr
            · exact List.mem_singleton.mp hr ▸ hfulfilled
        · exact hs.queue q t r hr
      | fulfill | rejected =>
        refine ⟨fun q t r hr => ?_, fun r w hr => ?_, hs.running⟩
        · change r ∈ (Function.update s.promise p _ q).queue t at hr
          rw [Function.update_apply] at hr
          split_ifs at hr
          · rw [Promise.queue_mk] at hr
            exact hqueue t r hr
          · exact hs.queue q t r hr
        · rcases List.mem_append.mp hr with hr | hr
          · exact hs.jobs r w hr
          · obtain ⟨rfl, -⟩ : r = _ ∧ w = _ := by simpa using hr
            assumption
    · exact hs
  | runJob =>
    rw [Promises.step, njsVmExecutePendingJob] at *
    split
    · rename_i r argument jobs hrunning hjobs
      have hr : P r := hs.jobs r argument (hjobs ▸ List.mem_cons_self)
      have hs₁ : Holds P G { s with jobs } :=
        hs.taken rfl (fun r w hr => hjobs ▸ List.mem_cons_of_mem _ hr) hs.running
      rw [njsPromiseReactionJob]
      split
      · split_ifs
        · exact hs₁.settleCapability _ _
        · exact hs₁.settleCapability _ _
      · refine hs₁.taken rfl (fun _ _ => id) fun r' hr' => ?_
        obtain rfl := Option.some.inj hr'
        exact hP r hr
    · rename_i p v f jobs hrunning hjobs
      refine hs.taken rfl (fun r w hr => hjobs ▸ List.mem_cons_of_mem _ hr) fun r' hr' => ?_
      obtain rfl := Option.some.inj hr'
      refine hcontext rfl ?_
      simp only [hrunning, hjobs]
      simp [njsPromiseResolveThenableJob, njsPromiseCreateResolvingFunctions]
    · exact hs
  | jobReturn r =>
    rw [Promises.step, jobReturn]
    have hs₁ : Holds P G { s with running := none } := hs.taken rfl (fun _ _ => id)
      fun r hr => absurd hr (Option.not_mem_none r)
    split
    · exact hs
    · exact hs₁.settleCapability _ r
    · cases r with
      | ok v => exact hs₁
      | error e => exact hs₁.rejectFunction _ e

theorem created_address {e : Event V S} {r : Reaction S} (hr : r ∈ e.created s) :
    r.address = s.reactions ∧ s.reactions < (step values s e).reactions := by
  cases e with
  | performThen p fulfilled rejected capability =>
    rw [Event.created] at hr
    split_ifs at hr with hp
    · refine ⟨?_, ?_⟩
      · rcases List.mem_cons.mp hr with rfl | hr
        · rfl
        · rw [List.mem_singleton.mp hr]
      · rw [step, if_pos hp, njsPromisePerformThen]
        dsimp only
        split <;> exact Nat.lt_succ_self _
    · cases hr
  | _ => cases hr

/-! ### Contexts -/

/-- A function that does not resolve through the context. -/
def Func.Unrelated (c : ℕ) : Func S → Prop
  | .resolve context | .reject context => context ≠ c
  | .script _ => True

/-- A step that is not a call of the resolving functions of the context. -/
def Event.Unrelated (c : ℕ) : Event V S → Prop
  | .resolve context _ | .reject context _ => context ≠ c
  | _ => True

@[simp]
theorem contexts_fulfill (p : ℕ) (v : V) : (njsPromiseFulfill p v s).contexts = s.contexts := by
  obtain ⟨data, tracked, -, heq⟩ := njsPromiseFulfill_settles p v s
  rw [heq]

@[simp]
theorem contexts_reject (p : ℕ) (v : V) : (njsPromiseReject p v s).contexts = s.contexts := by
  obtain ⟨data, tracked, -, heq⟩ := njsPromiseReject_settles p v s
  rw [heq]

theorem lock_eq {p : ℕ} (h : lock context s = some (s', p)) :
    s.contexts[context]? = some ⟨p, false⟩ ∧
      s' = { s with contexts := s.contexts.set context ⟨p, true⟩ } := by
  rw [lock] at h
  split at h
  · rename_i c hc
    split_ifs at h with hresolved
    cases h
    exact ⟨by rw [hc, ← Bool.eq_false_iff.mpr hresolved], rfl⟩
  · cases h

theorem contexts_resolveFunction (context : ℕ) (v : V) :
    (njsPromiseResolveFunction values context v s).contexts =
      ((lock context s).elim s.contexts fun r => r.1.contexts) := by
  rw [njsPromiseResolveFunction]
  cases lock context s with
  | none => rfl
  | some r =>
    dsimp only [Option.elim]
    split_ifs <;> simp

theorem contexts_rejectFunction (context : ℕ) (v : V) :
    (njsPromiseRejectFunction context v s).contexts =
      ((lock context s).elim s.contexts fun r => r.1.contexts) := by
  rw [njsPromiseRejectFunction]
  cases lock context s with
  | none => rfl
  | some r => exact contexts_reject ..

theorem contexts_lock {c : ℕ} (hc : context ≠ c) :
    ((lock context s).elim s.contexts fun r => r.1.contexts)[c]? = s.contexts[c]? := by
  cases hlock : lock context s with
  | none => rfl
  | some r =>
    obtain ⟨-, heq⟩ := lock_eq hlock
    rw [Option.elim, heq]
    exact List.getElem?_set_ne hc

theorem contexts_length_lock (context : ℕ) :
    ((lock context s).elim s.contexts fun r => r.1.contexts).length = s.contexts.length := by
  cases hlock : lock context s with
  | none => rfl
  | some r =>
    obtain ⟨-, heq⟩ := lock_eq hlock
    rw [Option.elim, heq]
    exact List.length_set

theorem contexts_call {c : ℕ} {f : Func S} (hf : f.Unrelated c) (v : V) :
    (f.call values v s).contexts[c]? = s.contexts[c]? := by
  cases f with
  | resolve context => rw [Func.call, contexts_resolveFunction, contexts_lock hf]
  | reject context => rw [Func.call, contexts_rejectFunction, contexts_lock hf]
  | script f => rfl

theorem contexts_length_call (f : Func S) (v : V) :
    (f.call values v s).contexts.length = s.contexts.length := by
  cases f with
  | resolve context => rw [Func.call, contexts_resolveFunction, contexts_length_lock]
  | reject context => rw [Func.call, contexts_rejectFunction, contexts_length_lock]
  | script f => rfl

theorem contexts_settleCapability {c : ℕ} {capability : Option (Capability S)}
    (hf : ∀ f ∈ capability, f.Holds (Func.Unrelated c)) (r : Except V V) :
    (settleCapability values capability r s).contexts[c]? = s.contexts[c]? := by
  cases capability with
  | none => rfl
  | some f =>
    cases r with
    | ok v => exact contexts_call (hf f rfl).1 v
    | error e => exact contexts_call (hf f rfl).2 e

theorem contexts_length_settleCapability (capability : Option (Capability S)) (r : Except V V) :
    (settleCapability values capability r s).contexts.length = s.contexts.length := by
  cases capability with
  | none => rfl
  | some f => cases r <;> exact contexts_length_call ..

theorem contexts_step (hs : Holds P G s) {c : ℕ} (hc : c < s.contexts.length)
    (hP : ∀ r, P r → ∀ f ∈ r.capability, f.Holds G) (hG : ∀ f, G f → f.Unrelated c) {e : Event V S}
    (he : e.Unrelated c) : (step values s e).contexts[c]? = s.contexts[c]? := by
  have hcapability {f : Capability S} (hf : f.Holds G) : f.Holds (Func.Unrelated c) :=
    ⟨hG _ hf.1, hG _ hf.2⟩
  cases e with
  | construct => exact List.getElem?_append_left hc
  | resolve context v =>
    rw [step, contexts_resolveFunction, contexts_lock he]
  | reject context v =>
    rw [step, contexts_rejectFunction, contexts_lock he]
  | lookup n r =>
    rw [step]
    split
    · cases r <;> simp [resolveWith]
    · rfl
  | performThen p fulfilled rejected capability =>
    rw [step]
    split_ifs
    · rw [njsPromisePerformThen]
      dsimp only
      split <;> rfl
    · rfl
  | runJob =>
    rw [step, njsVmExecutePendingJob]
    split
    · rename_i r argument jobs _ hjobs
      have hr : P r := hs.jobs r argument (hjobs ▸ List.mem_cons_self)
      rw [njsPromiseReactionJob]
      split
      · split_ifs
        · rw [contexts_settleCapability fun f hf => hcapability (hP r hr f hf)]
        · rw [contexts_settleCapability fun f hf => hcapability (hP r hr f hf)]
      · rfl
    · exact List.getElem?_append_left hc
    · rfl
  | jobReturn r =>
    rw [step, jobReturn]
    split
    · rfl
    · rename_i capability hrunning
      rw [contexts_settleCapability fun f hf => hcapability (hs.running _ hrunning f hf)]
    rename_i context hrunning
    cases r with
    | ok v => rfl
    | error v =>
      have hne : context ≠ c := hG _ (hs.running _ hrunning)
      rw [contexts_rejectFunction, contexts_lock hne]

theorem contexts_length_step (e : Event V S) :
    s.contexts.length ≤ (step values s e).contexts.length := by
  cases e with
  | construct => simp [step, njsPromiseAlloc, njsPromiseCreateResolvingFunctions]
  | resolve context v => rw [step, contexts_resolveFunction, contexts_length_lock]
  | reject context v => rw [step, contexts_rejectFunction, contexts_length_lock]
  | lookup n r =>
    rw [step]
    split
    · cases r <;> simp [resolveWith]
    · rfl
  | performThen p fulfilled rejected capability =>
    rw [step]
    split_ifs
    · rw [njsPromisePerformThen]
      dsimp only
      split <;> rfl
    · rfl
  | runJob =>
    rw [step, njsVmExecutePendingJob]
    split
    · rw [njsPromiseReactionJob]
      split
      · split_ifs <;> rw [contexts_length_settleCapability]
      · rfl
    · simp [njsPromiseResolveThenableJob, njsPromiseCreateResolvingFunctions]
    · rfl
  | jobReturn r =>
    rw [step, jobReturn]
    split
    · rfl
    · rw [contexts_length_settleCapability]
    · cases r with
      | ok v => rfl
      | error v => rw [contexts_rejectFunction, contexts_length_lock]

/-! ### Reading the property `then` -/

/-- At most one call reads the property `then`, and it was begun in the step. -/
def OneLookup (s s' : State V S) : Prop := s'.lookups = s.lookups ∨ ∃ q, s'.lookups = q :: s.lookups

@[simp]
theorem lookups_fulfill (p : ℕ) (v : V) : (njsPromiseFulfill p v s).lookups = s.lookups := by
  obtain ⟨data, tracked, -, heq⟩ := njsPromiseFulfill_settles p v s
  rw [heq]

@[simp]
theorem lookups_reject (p : ℕ) (v : V) : (njsPromiseReject p v s).lookups = s.lookups := by
  obtain ⟨data, tracked, -, heq⟩ := njsPromiseReject_settles p v s
  rw [heq]

theorem lookups_lock {p : ℕ} (h : lock context s = some (s', p)) : s'.lookups = s.lookups := by
  obtain ⟨-, rfl⟩ := lock_eq h
  rfl

theorem lookups_rejectFunction (context : ℕ) (v : V) :
    (njsPromiseRejectFunction context v s).lookups = s.lookups := by
  rw [njsPromiseRejectFunction]
  split
  · rfl
  · rename_i hlock
    rw [lookups_reject, lookups_lock hlock]

theorem lookups_call (f : Func S) (v : V) : OneLookup s (f.call values v s) := by
  cases f with
  | resolve context =>
    rw [Func.call, njsPromiseResolveFunction]
    split
    · exact .inl rfl
    · rename_i hlock
      split_ifs
      · exact .inl ((lookups_reject ..).trans (lookups_lock hlock))
      · exact .inr ⟨_, congrArg _ (lookups_lock hlock)⟩
      · exact .inl ((lookups_fulfill ..).trans (lookups_lock hlock))
  | reject context => exact .inl (lookups_rejectFunction context v)
  | script f => exact .inl rfl

theorem lookups_settleCapability (capability : Option (Capability S)) (r : Except V V) :
    OneLookup s (settleCapability values capability r s) := by
  cases capability with
  | none => exact .inl rfl
  | some f => cases r <;> exact lookups_call ..

theorem lookups_step {e : Event V S} (he : ∀ n r, e ≠ .lookup n r) :
    OneLookup s (step values s e) := by
  cases e with
  | construct => exact .inl rfl
  | resolve context v => exact lookups_call (.resolve context) v
  | reject context v => exact .inl (lookups_rejectFunction context v)
  | lookup n r => exact absurd rfl (he n r)
  | performThen p fulfilled rejected capability =>
    rw [step]
    split_ifs
    · rw [njsPromisePerformThen]
      dsimp only
      split <;> exact .inl rfl
    · exact .inl rfl
  | runJob =>
    rw [step, njsVmExecutePendingJob]
    split
    · rename_i jobs _ _
      rw [njsPromiseReactionJob]
      split
      · split_ifs
        · exact lookups_settleCapability (s := { s with jobs }) _ _
        · exact lookups_settleCapability (s := { s with jobs }) _ _
      · exact .inl rfl
    · exact .inl rfl
    · exact .inl rfl
  | jobReturn r =>
    rw [step, jobReturn]
    split
    · exact .inl rfl
    · exact lookups_settleCapability (s := { s with running := none }) _ r
    · cases r with
      | ok v => exact .inl rfl
      | error v => exact .inl (lookups_rejectFunction (s := { s with running := none }) ..)

theorem lookups_lookup {q : ℕ × V} {l : List (ℕ × V)} (h : s.lookups = q :: l) (r : Then V S) :
    (step values s (.lookup 0 r)).lookups = l := by
  have hzero : s.lookups[0]? = some (q.1, q.2) := by rw [h]; rfl
  rw [step, hzero]
  cases r <;> simp [resolveWith, h]

/-! ### Values that promises are fulfilled with -/

/-- Every value that a promise was fulfilled with has a property. -/
def Fulfills (Q : V → Prop) (s : State V S) : Prop :=
  ∀ p v, (s.promise p).Settled .fulfill v → Q v

variable {Q : V → Prop}

theorem Fulfills.update {s' : State V S} (hs : Fulfills Q s) (p : ℕ) (data : Promise V S)
    (hpromise : s'.promise = Function.update s.promise p data)
    (hdata : ∀ v, data.Settled .fulfill v → Q v) : Fulfills Q s' := by
  intro q v hq
  rw [hpromise, Function.update_apply] at hq
  split_ifs at hq
  · exact hdata v hq
  · exact hs q v hq

theorem Fulfills.fulfill (hs : Fulfills Q s) (p : ℕ) {v : V} (hv : Q v) :
    Fulfills Q (njsPromiseFulfill p v s) := by
  obtain ⟨data, tracked, hdata, heq⟩ := njsPromiseFulfill_settles p v s
  refine hs.update p data (by rw [heq]) fun w hw => ?_
  obtain rfl := Option.some.inj (hdata.result.symm.trans hw.result)
  exact hv

theorem Fulfills.reject (hs : Fulfills Q s) (p : ℕ) (v : V) :
    Fulfills Q (njsPromiseReject p v s) := by
  obtain ⟨data, tracked, hdata, heq⟩ := njsPromiseReject_settles p v s
  refine hs.update p data (by rw [heq]) fun w hw => ?_
  exact absurd (hdata.state.symm.trans hw.state) nofun

theorem Fulfills.lock {p : ℕ} (hs : Fulfills Q s) (h : Promises.lock context s = some (s', p)) :
    Fulfills Q s' := by
  obtain ⟨-, rfl⟩ := lock_eq h
  exact hs

theorem Fulfills.call (hs : Fulfills Q s) (hQ : ∀ v, values.isObject v = false → Q v) (f : Func S)
    (v : V) : Fulfills Q (f.call values v s) := by
  cases f with
  | resolve context =>
    rw [Func.call, njsPromiseResolveFunction]
    split
    · exact hs
    rename_i hlock
    split_ifs with _ hobject
    · exact (hs.lock hlock).reject _ _
    · have hlocked := hs.lock hlock
      exact hlocked
    · exact (hs.lock hlock).fulfill _ (hQ v (Bool.eq_false_iff.mpr hobject))
  | reject context =>
    rw [Func.call, njsPromiseRejectFunction]
    split
    · exact hs
    · rename_i hlock
      exact (hs.lock hlock).reject _ _
  | script f => exact hs

theorem Fulfills.settleCapability (hs : Fulfills Q s) (hQ : ∀ v, values.isObject v = false → Q v)
    (capability : Option (Capability S)) (r : Except V V) :
    Fulfills Q (settleCapability values capability r s) := by
  cases capability with
  | none => exact hs
  | some f => cases r <;> exact hs.call hQ _ _

/-- Promises are fulfilled with what is no object, and with objects for which no function `then` was
found. -/
theorem Fulfills.step (hs : Fulfills Q s) (hQ : ∀ v, values.isObject v = false → Q v) {e :
    Event V S}
    (he : ∀ n p v, e = .lookup n .notFunction → s.lookups[n]? = some (p, v) → Q v) :
    Fulfills Q (Promises.step values s e) := by
  cases e with
  | construct =>
    exact hs.update s.promises _ rfl fun v hv => absurd hv.state nofun
  | resolve context v => exact hs.call hQ (.resolve context) v
  | reject context v => exact hs.call hQ (.reject context) v
  | lookup n r =>
    rw [Promises.step]
    split
    · rename_i p v hn
      have hs₁ : Fulfills Q { s with lookups := s.lookups.eraseIdx n } := hs
      cases r with
      | error e => exact hs₁.reject p e
      | notFunction => exact hs₁.fulfill p (he n p v rfl hn)
      | function f => exact hs₁
    · exact hs
  | performThen p fulfilled rejected capability =>
    rw [Promises.step]
    split_ifs
    · rw [njsPromisePerformThen]
      dsimp only
      split
      all_goals
        refine hs.update p _ rfl fun v hv => hs p v ⟨?_, hv.ne_pending, hv.result⟩
        exact hv.state
    · exact hs
  | runJob =>
    rw [Promises.step, njsVmExecutePendingJob]
    split
    · rename_i jobs _ _
      have hs₁ : Fulfills Q { s with jobs } := hs
      rw [njsPromiseReactionJob]
      split
      · split_ifs
        · exact hs₁.settleCapability hQ _ _
        · exact hs₁.settleCapability hQ _ _
      · exact hs₁
    · exact hs
    · exact hs
  | jobReturn r =>
    rw [Promises.step, jobReturn]
    have hs₁ : Fulfills Q { s with running := none } := hs
    split
    · exact hs
    · exact hs₁.settleCapability hQ _ r
    · cases r with
      | ok v => exact hs₁
      | error v => exact hs₁.call hQ (.reject _) v

end Calls

end Njs.Promises
