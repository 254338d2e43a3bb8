import Njs.Promises.Combinators

/-!
# What the promise of a combinator is settled with
-/

namespace Njs.Promises.Machine

variable {V S : Type} {objects : Objects V S}

/-! ### The reactions of the call -/

/-- What is called when the input at `index` is fulfilled. -/
def onFulfilled (kind : Kind) (capability index : ℕ) : Func (Fn S) :=
  match kind with
  | .all => .script (.allResolve index)
  | .allSettled => .script (.allSettled index false)
  | .any => .resolve capability

/-- What is called when the input at `index` is rejected. -/
def onRejected (kind : Kind) (capability index : ℕ) : Func (Fn S) :=
  match kind with
  | .all => .reject capability
  | .allSettled => .script (.allSettled index true)
  | .any => .script (.anyReject index)

/-- What is called when the input at `index` is settled. -/
def onSettled (kind : Kind) (capability index : ℕ) : PromiseType → Func (Fn S)
  | .rejected => onRejected kind capability index
  | _ => onFulfilled kind capability index

theorem handler_eq (kind : Kind) :
    handler objects kind = performHandler objects (onFulfilled kind) (onRejected kind) := by
  cases kind <;> rfl

/-- A function of the script that does not resolve through the context. -/
def Func.Outside (context : ℕ) : Func (Fn S) → Prop
  | .resolve c | .reject c => c ≠ context
  | .script (.script _) => True
  | .script _ => False

/-- The reactions with the addresses of the call are its own, and no other ones use its
functions. -/
structure Fits (kind : Kind) (context address n : ℕ) (r : Reaction (Fn S)) : Prop where
  capability : ∀ c ∈ r.capability, c.Holds (Func.Outside context)
  own : address ≤ r.address → r.address < address + n →
    r.handler = some (onSettled kind context (r.address - address) r.type)
  other : ¬(address ≤ r.address ∧ r.address < address + n) → ∀ f ∈ r.handler, Func.Outside context f

theorem Func.Outside.unrelated {context : ℕ} (f : Func (Fn S)) (hf : Func.Outside context f) :
    f.Unrelated context := by
  match f with
  | .resolve c | .reject c => exact hf
  | .script _ => trivial

theorem Func.Exists.outside {contexts context : ℕ} (h : contexts ≤ context) (f : Func (Fn S))
    (hf : Func.Exists contexts f) : Func.Outside context f := by
  match f with
  | .resolve c | .reject c => exact Nat.ne_of_lt (Nat.lt_of_lt_of_le hf h)
  | .script (.script _) => trivial

theorem Known.fits {contexts reactions : ℕ} (kind : Kind) (n : ℕ) (r : Reaction (Fn S))
    (h : Known contexts reactions r) : Fits kind contexts reactions n r where
  capability c hc := ⟨(h.capability c hc).1.outside le_rfl, (h.capability c hc).2.outside le_rfl⟩
  own hge := absurd h.address (Nat.not_lt.mpr hge)
  other _ f hf := (h.handler f hf).outside le_rfl

/-! ### What was done -/

/-- What became of an input: its index, how it was settled and with what. -/
abbrev Settlement (V : Type) : Type := ℕ × PromiseType × V

/-- A reaction of the call that was made into a job. -/
def ownEntry (address n : ℕ) (d : ℕ × PromiseType × V) : Option (Settlement V) :=
  if address ≤ d.1 ∧ d.1 < address + n then some (d.1 - address, d.2) else none

/-- How the inputs were settled, in order. -/
def settlements (address n : ℕ) (h : History V (Fn S)) : List (Settlement V) :=
  h.delivered.filterMap (ownEntry address n)

/-- The inputs for which the job ran, in order. -/
def ran (address n : ℕ) (h : History V (Fn S)) : List (Settlement V) :=
  (h.executed.filterMap Job.delivery).filterMap (ownEntry address n)

/-! ### What the language asks for -/

def expected (objects : Objects V S) (kind : Kind) (inputs : List ℕ) (s : State V (Fn S))
    (ran : List (Settlement V)) : Option (PromiseType × V) :=
  let results := inputs.map fun p => (s.promise p).result
  let records := inputs.map fun p =>
    (s.promise p).result.map (objects.record ((s.promise p).state = .rejected))
  match kind with
  | .all =>
    match ran.find? fun e => e.2.1 = .rejected with
    | some (_, _, reason) => some (.rejected, reason)
    | none =>
      if ran.length = inputs.length then some (.fulfill, objects.array results) else none
  | .allSettled =>
    if ran.length = inputs.length then some (.fulfill, objects.array records) else none
  | .any =>
    match ran.find? fun e => e.2.1 = .fulfill with
    | some (_, _, v) => some (.fulfill, v)
    | none =>
      if ran.length = inputs.length then
        some (.rejected, objects.aggregateError (objects.array results))
      else none

def Promise.Is (p : Promise V (Fn S)) : Option (PromiseType × V) → Prop
  | none => p.state = .pending
  | some (t, v) => p.Settled t v

/-- What is asked of a state `m` after a call of a combinator on `inputs` in the state `m₀`. -/
structure Meets (objects : Objects V S) (kind : Kind) (inputs : List ℕ) (m₀ m : Machine V S) :
    Prop where
  mem_settlements : ∀ i t v,
    (i, t, v) ∈ settlements m₀.history.vm.reactions inputs.length m.history ↔
      ∃ p, inputs[i]? = some p ∧ (m.history.vm.promise p).Settled t v
  nodup : ((settlements m₀.history.vm.reactions inputs.length m.history).map Prod.fst).Nodup
  order : ∀ events : List (Event V (Fn S)),
    settlements m₀.history.vm.reactions inputs.length m.history <+:
      settlements m₀.history.vm.reactions inputs.length (events.foldl (step objects) m).history
  /-- Their jobs run in this order, and all of them have run when there are no jobs. -/
  ran : ran m₀.history.vm.reactions inputs.length m.history <+:
    settlements m₀.history.vm.reactions inputs.length m.history
  ran_all : m.history.vm.jobs = [] → Machine.ran m₀.history.vm.reactions inputs.length m.history =
      settlements m₀.history.vm.reactions inputs.length m.history
  outcome : Promise.Is (m.history.vm.promise m₀.history.vm.promises)
    (expected objects kind inputs m.history.vm
      (Machine.ran m₀.history.vm.reactions inputs.length m.history))
  once : ∀ t v, (m.history.vm.promise m₀.history.vm.promises).Settled t v →
    ∀ events : List (Event V (Fn S)),
      ((events.foldl (step objects) m).history.vm.promise m₀.history.vm.promises).Settled t v

/-! ### What every step after the call keeps -/

section Linked

variable {kind : Kind} {inputs : List ℕ} {context address : ℕ}

/-- The reactions of the call are registered, and only they use its functions. -/
structure Linked (objects : Objects V S) (kind : Kind) (inputs : List ℕ) (context address : ℕ)
    (h : History V (Fn S)) : Prop where
  sound : Sound objects (Fits kind context address inputs.length) (Func.Outside context) h
  context_lt : context < h.vm.contexts.length
  reactions : address + inputs.length ≤ h.vm.reactions
  registered : ∀ i p, inputs[i]? = some p → (p, address + i) ∈ h.registered

variable {m : Machine V S}

theorem Linked.perform (hm : Linked objects kind inputs context address m.history)
    {e : Event V (Fn S)} (hlookup : ∀ n t, e ≠ .lookup n t)
    (hcreated : ∀ r ∈ e.created m.history.vm, (∀ f ∈ r.handler, Func.Outside context f) ∧
      ∀ c ∈ r.capability, c.Holds (Func.Outside context)) :
    Linked objects kind inputs context address (perform objects e m).history := by
  have hg := @grows_perform _ _ objects _ hm.sound.valid e
  refine ⟨hm.sound.perform (fun r hr => hr.capability) ⟨hlookup, fun r hr => ?_, fun _ _ => ?_⟩,
    hm.context_lt.trans_le hg.contexts, hm.reactions.trans hg.reactions,
    fun i p hp => hg.registered.subset (hm.registered i p hp)⟩
  · obtain ⟨hhandler, hcapability⟩ := hcreated r hr
    obtain ⟨haddress, -⟩ := @created_address _ _ _ objects.toValues _ _ hr
    have := hm.reactions
    exact ⟨hcapability, fun _ hlt => by omega, fun _ => hhandler⟩
  · exact hm.context_lt.ne'

theorem Linked.quiet (hm : Linked objects kind inputs context address m.history)
    {e : Event V (Fn S)} (hlookup : ∀ n t, e ≠ .lookup n t)
    (hcreated : e.created m.history.vm = []) :
    Linked objects kind inputs context address (Machine.perform objects e m).history :=
  hm.perform hlookup fun _ hr => absurd (hcreated ▸ hr) List.not_mem_nil

theorem Linked.contexts_perform (hm : Linked objects kind inputs context address m.history)
    {e : Event V (Fn S)} (he : e.Unrelated context) :
    (Machine.perform objects e m).history.vm.contexts[context]? =
      m.history.vm.contexts[context]? := by
  change (lookup objects _).vm.contexts[context]? = _
  rw [contexts_lookup]
  exact contexts_step hm.sound.holds hm.context_lt (fun r hr => hr.capability)
    Func.Outside.unrelated he

/-! ### The promise of the call -/

/-- What the resolving functions of the call did. -/
def Outcome (context result : ℕ) (h : History V (Fn S)) : Option (PromiseType × V) → Prop
  | none => h.vm.contexts[context]? = some ⟨result, false⟩
  | some (t, v) =>
    h.vm.contexts[context]? = some ⟨result, true⟩ ∧ (h.vm.promise result).Settled t v

/-- A call of a resolving function. -/
def settle (context : ℕ) : PromiseType × V → Event V (Fn S)
  | (.rejected, v) => .reject context v
  | (_, v) => .resolve context v

variable {result : ℕ}

theorem Outcome.is {h : History V (Fn S)} (hv : Valid h) {o : Option (PromiseType × V)}
    (ho : Outcome context result h o) : Promise.Is (h.vm.promise result) o := by
  match o with
  | none =>
    refine hv.pending result (List.mem_append_left _ ?_)
    have hmem := List.mem_of_getElem? (ho : h.vm.contexts[context]? = _)
    exact List.mem_map.mpr ⟨_, List.mem_filter.mpr ⟨hmem, rfl⟩, rfl⟩
  | some (t, v) => exact ho.2

theorem Outcome.perform {o : Option (PromiseType × V)} (ho : Outcome context result m.history o)
    (hm : Linked objects kind inputs context address m.history) {e : Event V (Fn S)}
    (he : e.Unrelated context) :
    Outcome context result (Machine.perform objects e m).history o := by
  have hcontexts := hm.contexts_perform he
  match o with
  | none => exact hcontexts.trans ho
  | some (t, v) =>
    exact ⟨hcontexts.trans ho.1, (grows_perform hm.sound.valid e).settled result t v ho.2⟩

theorem Outcome.settle_again {q : PromiseType × V} (ho : Outcome context result m.history (some q))
    (hm : Linked objects kind inputs context address m.history) (q' : PromiseType × V) :
    Outcome context result (Machine.perform objects (settle context q') m).history (some q) := by
  obtain ⟨hcontext, hsettled⟩ := ho
  have hlock : lock context m.history.vm = none := by
    rw [lock, hcontext]
    rfl
  refine ⟨?_, (grows_perform hm.sound.valid _).settled result _ _ hsettled⟩
  change (lookup objects _).vm.contexts[context]? = _
  rw [contexts_lookup]
  have hstep : Promises.step objects.toValues m.history.vm (settle context q') = m.history.vm := by
    obtain ⟨t, v⟩ := q'
    cases t <;>
      simp only [settle, Promises.step, njsPromiseResolveFunction, njsPromiseRejectFunction, hlock]
  exact (congrArg (fun s => s.contexts[context]?) hstep).trans hcontext

theorem fulfill_settled (p : ℕ) (v : V) (s : State V (Fn S)) :
    ((njsPromiseFulfill p v s).promise p).Settled .fulfill v := by
  obtain ⟨data, tracked, hdata, heq⟩ := njsPromiseFulfill_settles p v s
  rw [heq]
  show (Function.update s.promise p data p).Settled .fulfill v
  rwa [Function.update_self]

theorem reject_settled (p : ℕ) (v : V) (s : State V (Fn S)) :
    ((njsPromiseReject p v s).promise p).Settled .rejected v := by
  obtain ⟨data, tracked, hdata, heq⟩ := njsPromiseReject_settles p v s
  rw [heq]
  show (Function.update s.promise p data p).Settled .rejected v
  rwa [Function.update_self]

theorem Outcome.settle (ho : Outcome context result m.history none)
    (hm : Linked objects kind inputs context address m.history) {t : PromiseType}
    (ht : t ≠ .pending) {v : V} (hv : t = .fulfill → objects.Plain v) :
    Outcome context result (Machine.perform objects (settle context (t, v)) m).history
      (some (t, v)) := by
  have ho : m.history.vm.contexts[context]? = some ⟨result, false⟩ := ho
  set s : State V (Fn S) :=
    { m.history.vm with contexts := m.history.vm.contexts.set context ⟨result, true⟩ } with hs
  have hlock : lock context m.history.vm = some (s, result) := by
    rw [lock, ho]
    rfl
  have hlookups : s.lookups = [] := hm.sound.lookups
  have hset : s.contexts[context]? = some ⟨result, true⟩ :=
    List.getElem?_set_self hm.context_lt
  -- A state in which the promise was settled.
  have hdone (h : History V (Fn S)) {s' : State V (Fn S)}
      (h' : (Machine.lookup objects h).vm = s') (hcontexts : s'.contexts = s.contexts)
      (hsettled : (s'.promise result).Settled t v) :
      Outcome context result (Machine.lookup objects h) (some (t, v)) := by
    refine ⟨?_, h' ▸ hsettled⟩
    rw [h', hcontexts, hset]
  change Outcome context result (Machine.lookup objects _) _
  cases t with
  | pending => exact absurd rfl ht
  | rejected =>
    have hstep : (next objects.toValues m.history (Machine.settle context (.rejected, v))).vm =
        njsPromiseReject result v s := by
      simp only [next, Machine.settle, Promises.step, njsPromiseRejectFunction, hlock]
    refine @hdone _ (njsPromiseReject result v s) ?_ (contexts_reject ..) (reject_settled ..)
    rw [Machine.lookup, hstep, lookups_reject, hlookups]
    exact hstep
  | fulfill =>
    have hplain := hv rfl
    have hself : ¬objects.promise v = some result := by
      intro hself
      obtain ⟨hobject, f, hf⟩ := objects.then_promise v result hself
      cases (hplain hobject).symm.trans hf
    have hstep : (next objects.toValues m.history (Machine.settle context (.fulfill, v))).vm =
        if objects.isObject v then { s with lookups := (result, v) :: s.lookups }
        else njsPromiseFulfill result v s := by
      simp only [next, Machine.settle, Promises.step, njsPromiseResolveFunction, hlock,
        if_neg hself]
    refine @hdone _ (njsPromiseFulfill result v s) ?_ (contexts_fulfill ..) (fulfill_settled ..)
    by_cases hobject : objects.isObject v = true
    · rw [if_pos hobject] at hstep
      rw [Machine.lookup, hstep]
      have hl := congrArg State.lookups hstep
      rw [next_lookup hl, hplain hobject, hstep]
      rfl
    · rw [if_neg hobject] at hstep
      rw [Machine.lookup, hstep, lookups_fulfill, hlookups]
      exact hstep

end Linked

end Njs.Promises.Machine
