import Njs.Promises.Invariant
import Njs.Promises.Reactions

/-!
# `Promise.all`, `Promise.allSettled` and `Promise.any`

A call of one of them on a list of promises, and what happens after it. The promises have the
methods that the language gives them, and what the property `then` of a value is does not change.
Everything but the call is up to the script: it makes promises, resolves and rejects them, calls
`then`, and its functions run in jobs.
-/

namespace Njs.Promises

/-! ### Functions and values -/

/-- A function that is not a resolving function. -/
inductive Fn (S : Type)
  /-- `njs_promise_all_resolve_element_functions`. -/
  | allResolve (context : ℕ)
  /-- `njs_promise_all_settled_element_functions`. -/
  | allSettled (context : ℕ) (rejected : Bool)
  /-- `njs_promise_any_reject_element_functions`. -/
  | anyReject (context : ℕ)
  | script (f : S)
  deriving DecidableEq

/-- What is asked of values, and the objects that the combinators make. -/
structure Objects (V S : Type) extends Values V where
  /-- The property `then`. -/
  thenOf : V → Then V (Fn S)
  array : List (Option V) → V
  /-- The object with a status and with a value or a reason. -/
  record : (rejected : Bool) → V → V
  aggregateError : V → V
  /-- Promises have the method `then`. -/
  then_promise : ∀ v p, promise v = some p → isObject v = true ∧ ∃ f, thenOf v = .function f
  then_array : ∀ l, thenOf (array l) = .notFunction
  then_aggregateError : ∀ v, thenOf (aggregateError v) = .notFunction

/-- `njs_promise_all_context_t`, without what all contexts of a call share. -/
structure AllContext where
  alreadyCalled : Bool
  index : ℕ
  deriving DecidableEq

/-- The magic number of the native function. -/
inductive Kind
  | all
  | allSettled
  | any
  deriving DecidableEq

/-- What the element functions of a call share. -/
structure Call (V : Type) where
  /-- The resolving functions of `capability`. -/
  capability : ℕ
  values : List (Option V)
  remaining : ℕ
  contexts : List AllContext

/-- The promises of an interpreter, and a call of a combinator. -/
structure Machine (V S : Type) where
  history : History V (Fn S)
  call : Option (Call V)

variable {V S : Type}

namespace Machine

variable (objects : Objects V S)

/-- Before anything is done. -/
def empty : Machine V S := ⟨.empty, none⟩

/-! ### Operations on promises -/

/-- The return of a call that reads the property `then`, if there is one. -/
def lookup (h : History V (Fn S)) : History V (Fn S) :=
  match h.vm.lookups with
  | [] => h
  | (_, v) :: _ => next objects.toValues h (.lookup 0 (objects.thenOf v))

/-- What `e` does to promises. -/
def perform (e : Event V (Fn S)) (m : Machine V S) : Machine V S :=
  { m with history := lookup objects (next objects.toValues m.history e) }

/-- `njs_promise_invoke_then`, for a promise. -/
def njsPromiseInvokeThen (p : ℕ) (fulfilled rejected : Func (Fn S)) (m : Machine V S) :
    Machine V S :=
  let capability := m.history.vm.contexts.length
  perform objects (.performThen p (some fulfilled) (some rejected)
      (some ⟨.resolve capability, .reject capability⟩))
    (perform objects .construct m)

/-! ### Element functions -/

/-- `njs_value_property_i64_set` on an array. -/
def njsValuePropertyI64Set (values : List (Option V)) (index : ℕ) (v : V) : List (Option V) :=
  if index < values.length then values.set index (some v)
  else values ++ List.replicate (index - values.length) none ++ [some v]

/-- An element function that stores `v`, and that calls `settle` with the array when it is the last
one. -/
def elementFunction (context : ℕ) (v : V) (settle : ℕ → V → Event V (Fn S)) (m : Machine V S) :
    Machine V S :=
  match m.call with
  | none => m
  | some call =>
    match call.contexts[context]? with
    | none => m
    | some ⟨true, _⟩ => m
    | some ⟨false, index⟩ =>
      let values := njsValuePropertyI64Set call.values index v
      let remaining := call.remaining - 1
      let contexts := call.contexts.set context ⟨true, index⟩
      let m := { m with call := some { call with values, remaining, contexts } }
      if remaining = 0 then perform objects (settle call.capability (objects.array values)) m
      else m

def njsPromiseAllResolveElementFunctions (context : ℕ) (v : V) (m : Machine V S) : Machine V S :=
  elementFunction objects context v (fun capability array => .resolve capability array) m

def njsPromiseAllSettledElementFunctions (context : ℕ) (rejected : Bool) (v : V)
    (m : Machine V S) : Machine V S :=
  elementFunction objects context (objects.record rejected v)
    (fun capability array => .resolve capability array) m

def njsPromiseAnyRejectElementFunctions (context : ℕ) (v : V) (m : Machine V S) : Machine V S :=
  elementFunction objects context v
    (fun capability array => .reject capability (objects.aggregateError array)) m

/-- A call of a native function. -/
def invoke (f : Func (Fn S)) (v : V) (m : Machine V S) : Machine V S :=
  match f with
  | .resolve context => perform objects (.resolve context v) m
  | .reject context => perform objects (.reject context v) m
  | .script (.allResolve context) => njsPromiseAllResolveElementFunctions objects context v m
  | .script (.allSettled context rejected) =>
    njsPromiseAllSettledElementFunctions objects context rejected v m
  | .script (.anyReject context) => njsPromiseAnyRejectElementFunctions objects context v m
  | .script (.script _) => m

/-! ### The call -/

/-- What the handlers do with the promise at `index`. -/
def performHandler (fulfilled rejected : (capability context : ℕ) → Func (Fn S)) (index p : ℕ)
    (m : Machine V S) : Machine V S :=
  match m.call with
  | none => m
  | some call =>
    let values := njsValuePropertyI64Set call.values index objects.undefined
    let context := call.contexts.length
    let contexts := call.contexts ++ [⟨false, index⟩]
    let remaining := call.remaining + 1
    njsPromiseInvokeThen objects p (fulfilled call.capability context)
      (rejected call.capability context)
      { m with call := some { call with values, remaining, contexts } }

def njsPromisePerformAllHandler (index p : ℕ) (m : Machine V S) : Machine V S :=
  performHandler objects (fun _ context => .script (.allResolve context))
    (fun capability _ => .reject capability) index p m

def njsPromisePerformAllSettledHandler (index p : ℕ) (m : Machine V S) : Machine V S :=
  performHandler objects (fun _ context => .script (.allSettled context false))
    (fun _ context => .script (.allSettled context true)) index p m

def njsPromisePerformAnyHandler (index p : ℕ) (m : Machine V S) : Machine V S :=
  performHandler objects (fun capability _ => .resolve capability)
    (fun _ context => .script (.anyReject context)) index p m

def handler : Kind → ℕ → ℕ → Machine V S → Machine V S
  | .all => njsPromisePerformAllHandler objects
  | .allSettled => njsPromisePerformAllSettledHandler objects
  | .any => njsPromisePerformAnyHandler objects

/-- `njs_object_iterate`, for the promises from `index` on. -/
def njsObjectIterate (handler : ℕ → ℕ → Machine V S → Machine V S) :
    (index : ℕ) → (inputs : List ℕ) → Machine V S → Machine V S
  | _, [], m => m
  | index, p :: inputs, m => njsObjectIterate handler (index + 1) inputs (handler index p m)

def njsPromisePerformAll (kind : Kind) (inputs : List ℕ) (capability : ℕ) (m : Machine V S) :
    Machine V S :=
  let m := njsObjectIterate (handler objects kind) 0 inputs
    { m with call := some ⟨capability, [], 1, []⟩ }
  match m.call with
  | none => m
  | some call =>
    let remaining := call.remaining - 1
    let m := { m with call := some { call with remaining } }
    if remaining = 0 then
      let array := objects.array call.values
      let argument := if kind = .any then objects.aggregateError array else array
      perform objects (.resolve call.capability argument) m
    else m

def njsPromiseAll (kind : Kind) (inputs : List ℕ) (m : Machine V S) : Machine V S :=
  njsPromisePerformAll objects kind inputs m.history.vm.contexts.length
    (perform objects .construct m)

/-! ### Steps -/

/-- The native function that the next job calls, with its argument. -/
def native (s : State V (Fn S)) : Option (Func (Fn S) × V) :=
  match s.running, s.jobs with
  | none, .reaction ⟨_, _, _, some (.script (.script _))⟩ _ :: _ => none
  | none, .reaction ⟨_, _, _, some f⟩ v :: _ => some (f, v)
  | _, _ => none

/-- `njs_vm_execute_pending_job`. A function of the script that the job calls returns in another
step. -/
def njsVmExecutePendingJob (m : Machine V S) : Machine V S :=
  match native m.history.vm with
  | some (f, v) =>
    perform objects (.jobReturn (.ok objects.undefined)) (invoke objects f v (perform objects
      .runJob m))
  | none => perform objects .runJob m

/-- A function that the script has: it exists, and it is not one of the functions of the call. -/
def hasFunction (m : Machine V S) : Func (Fn S) → Bool
  | .resolve context | .reject context =>
    context < m.history.vm.contexts.length && !(m.call.any fun call => call.capability = context)
  | .script (.script _) => true
  | .script _ => false

/-- What the script can do. -/
def allows (m : Machine V S) : Event V (Fn S) → Bool
  | .resolve context _ => hasFunction m (.resolve context)
  | .reject context _ => hasFunction m (.reject context)
  | .performThen _ fulfilled rejected capability =>
    fulfilled.all (hasFunction m) && rejected.all (hasFunction m) &&
      capability.all fun c => hasFunction m c.resolve && hasFunction m c.reject
  | _ => true

/-- A step: the next job, or what the script does. -/
def step (m : Machine V S) (e : Event V (Fn S)) : Machine V S :=
  match e with
  | .runJob => njsVmExecutePendingJob objects m
  | e => if allows m e then perform objects e m else m

end Machine

end Njs.Promises

/-!
## Promises before and after the call of a combinator
-/

namespace Njs.Promises

variable {V S : Type}

/-- A value for which no method `then` is found. -/
def Objects.Plain (objects : Objects V S) (v : V) : Prop :=
  objects.isObject v = true → objects.thenOf v = .notFunction

namespace Machine

variable {objects : Objects V S} {P : Reaction (Fn S) → Prop} {G : Func (Fn S) → Prop}

/-! ### What every step keeps -/

/-- What every step keeps. -/
structure Sound (objects : Objects V S) (P : Reaction (Fn S) → Prop) (G : Func (Fn S) → Prop)
    (h : History V (Fn S)) : Prop where
  valid : Valid h
  lookups : h.vm.lookups = []
  holds : Holds P G h.vm
  plain : Fulfills objects.Plain h.vm

/-- What is asked of an operation. -/
structure Fresh (P : Reaction (Fn S) → Prop) (G : Func (Fn S) → Prop) (values : Values V)
    (s : State V (Fn S)) (e : Event V (Fn S)) : Prop where
  lookup : ∀ n r, e ≠ .lookup n r
  created : ∀ r ∈ e.created s, P r
  context : e = .runJob → s.contexts.length < (Promises.step values s e).contexts.length →
    G (.reject s.contexts.length)

/-- A step of the promises, and the return of the call that reads the property `then`. -/
theorem lookup_cases (h : History V (Fn S)) : (h.vm.lookups = [] ∧ lookup objects h = h) ∨
      ∃ p v l, h.vm.lookups = (p, v) :: l ∧
        lookup objects h = next objects.toValues h (.lookup 0 (objects.thenOf v)) := by
  rw [lookup]
  cases hlookups : h.vm.lookups with
  | nil => exact .inl ⟨rfl, rfl⟩
  | cons q l => exact .inr ⟨q.1, q.2, l, rfl, rfl⟩

variable {h : History V (Fn S)} {m : Machine V S}

theorem next_lookup {values : Values V} {p : ℕ} {v : V} {l : List (ℕ × V)}
    (hl : h.vm.lookups = (p, v) :: l) (r : Then V (Fn S)) :
    (next values h (.lookup 0 r)).vm = resolveWith p v r { h.vm with lookups := l } := by
  have hzero : h.vm.lookups[0]? = some (p, v) := by rw [hl]; rfl
  rw [next, Promises.step, hzero]
  simp only [hl, List.eraseIdx_cons_zero]

theorem contexts_lookup (h : History V (Fn S)) :
    (lookup objects h).vm.contexts = h.vm.contexts := by
  rcases @lookup_cases _ _ objects h with ⟨-, heq⟩ | ⟨p, v, l, hlookups, heq⟩
  · rw [heq]
  · rw [heq, next_lookup hlookups]
    cases objects.thenOf v <;> simp [resolveWith]

theorem Sound.perform {m : Machine V S} {e : Event V (Fn S)} (hm : Sound objects P G m.history)
    (hP : ∀ r, P r → ∀ c ∈ r.capability, c.Holds G)
    (he : Fresh P G objects.toValues m.history.vm e) :
    Sound objects P G (perform objects e m).history := by
  have hobject : ∀ v, objects.isObject v = false → objects.Plain v := fun v hv htrue =>
    absurd (hv.symm.trans htrue) nofun
  have hvalid := hm.valid.effect (effect_next objects.toValues m.history e)
  have hholds : Holds P G (next objects.toValues m.history e).vm :=
    hm.holds.step hP he.created he.context
  have hplain : Fulfills objects.Plain (next objects.toValues m.history e).vm :=
    hm.plain.step hobject fun n p v hn => absurd hn (he.lookup n _)
  change Sound objects P G (Machine.lookup objects (next objects.toValues m.history e))
  rcases @lookup_cases _ _ objects (next objects.toValues m.history e) with
    ⟨hlookups, heq⟩ | ⟨p, v, l, hlookups, heq⟩
  · rw [heq]
    exact ⟨hvalid, hlookups, hholds, hplain⟩
  have hl : l = [] := by
    rcases @lookups_step _ _ m.history.vm objects.toValues _ he.lookup with
      hnone | ⟨q, hone⟩
    · exact absurd (hlookups.symm.trans (hnone.trans hm.lookups)) (List.cons_ne_nil _ _)
    · exact (List.cons.inj (hlookups.symm.trans (hone.trans (congrArg _ hm.lookups)))).2
  have hcontexts := @contexts_lookup _ _ objects (next objects.toValues m.history e)
  rw [heq] at hcontexts ⊢
  have hcreated : ∀ r ∈ (Event.lookup 0 (objects.thenOf v)).created
      (next objects.toValues m.history e).vm, P r := by
    intro r hr
    cases hr
  refine ⟨hvalid.effect (effect_next ..), ?_, ?_, hplain.step hobject ?_⟩
  · rw [← hl]
    exact @lookups_lookup _ _ _ objects.toValues _ _ hlookups _
  · refine @Holds.step _ _ _ _ _ objects.toValues hholds _ hP hcreated fun _ hlt => ?_
    exact absurd (congrArg List.length hcontexts) (Nat.ne_of_gt hlt)
  · intro n q w hn hw
    obtain ⟨rfl, hthen⟩ : 0 = n ∧ objects.thenOf v = .notFunction := by simpa using hn
    obtain ⟨rfl, rfl⟩ : p = q ∧ v = w := by simpa [hlookups] using hw
    exact fun _ => hthen

/-! ### What a step adds to -/

/-- What was done is not undone. -/
structure Grows (h h' : History V (Fn S)) : Prop where
  contexts : h.vm.contexts.length ≤ h'.vm.contexts.length
  promises : h.vm.promises ≤ h'.vm.promises
  reactions : h.vm.reactions ≤ h'.vm.reactions
  registered : h.registered <+: h'.registered
  delivered : h.delivered <+: h'.delivered
  settled : ∀ p t v, (h.vm.promise p).Settled t v → (h'.vm.promise p).Settled t v

theorem Grows.refl (h : History V (Fn S)) : Grows h h :=
  ⟨le_rfl, le_rfl, le_rfl, List.prefix_rfl, List.prefix_rfl, fun _ _ _ => id⟩

theorem Grows.trans {h' h'' : History V (Fn S)} (hg : Grows h h') (hg' : Grows h' h'') :
    Grows h h'' where
  contexts := hg.contexts.trans hg'.contexts
  promises := hg.promises.trans hg'.promises
  reactions := hg.reactions.trans hg'.reactions
  registered := hg.registered.trans hg'.registered
  delivered := hg.delivered.trans hg'.delivered
  settled p t v hp := hg'.settled p t v (hg.settled p t v hp)

theorem grows_next (hv : Valid h) (values : Values V) (e : Event V (Fn S)) :
    Grows h (next values h e) := by
  have hsettled (p : ℕ) (t : PromiseType) (v : V) (hp : (h.vm.promise p).Settled t v) :
      ((next values h e).vm.promise p).Settled t v := hv.settled_effect (effect_next values h e) hp
  have hcontexts : h.vm.contexts.length ≤ (next values h e).vm.contexts.length :=
    contexts_length_step e
  cases effect_next values h e with
  | quiet _ promises _ delivered registered reactions =>
    exact ⟨hcontexts, promises.ge, reactions.ge, registered ▸ List.prefix_rfl,
      delivered ▸ List.prefix_rfl, hsettled⟩
  | made _ promises _ delivered registered reactions =>
    exact ⟨hcontexts, promises ▸ Nat.le_succ _, reactions.ge, registered ▸ List.prefix_rfl,
      delivered ▸ List.prefix_rfl, hsettled⟩
  | settled p t v data _ _ promises _ delivered registered reactions =>
    exact ⟨hcontexts, promises.ge, reactions.ge, registered ▸ List.prefix_rfl,
      delivered ▸ List.prefix_append .., hsettled⟩
  | registered p data _ _ promises _ registered reactions state result pending notPending =>
    refine ⟨hcontexts, promises.ge, reactions ▸ Nat.le_succ _,
      registered ▸ List.prefix_append .., ?_, hsettled⟩
    by_cases hstate : data.state = .pending
    · have hdelivered := (pending hstate).1
      exact hdelivered ▸ List.prefix_rfl
    · obtain ⟨v, hv⟩ := hv.result p (state ▸ hstate)
      rw [notPending v ⟨rfl, hstate, result.trans hv⟩]
      exact List.prefix_append ..

theorem grows_lookup {h : History V (Fn S)} (hv : Valid h) : Grows h (lookup objects h) := by
  rcases @lookup_cases _ _ objects h with ⟨-, heq⟩ | ⟨p, v, l, -, heq⟩
  · rw [heq]
    exact .refl _
  · rw [heq]
    exact grows_next hv ..

theorem grows_perform {m : Machine V S} (hv : Valid m.history) (e : Event V (Fn S)) :
    Grows m.history (perform objects e m).history := by
  exact (grows_next hv objects.toValues e).trans (grows_lookup (hv.effect (effect_next ..)))

/-! ### Before the call -/

/-- A function of the script, or one that resolves through one of the first contexts. -/
def Func.Exists (contexts : ℕ) : Func (Fn S) → Prop
  | .resolve context | .reject context => context < contexts
  | .script (.script _) => True
  | .script _ => False

/-- A reaction of which everything exists. -/
structure Known (contexts reactions : ℕ) (r : Reaction (Fn S)) : Prop where
  address : r.address < reactions
  handler : ∀ f ∈ r.handler, Func.Exists contexts f
  capability : ∀ c ∈ r.capability, c.Holds (Func.Exists contexts)

theorem Func.Exists.mono {contexts contexts' : ℕ} (h : contexts ≤ contexts') (f : Func (Fn S))
    (hf : Func.Exists contexts f) : Func.Exists contexts' f := by
  match f with
  | .resolve context | .reject context => exact Nat.lt_of_lt_of_le hf h
  | .script (.script _) => trivial

theorem Known.mono {contexts contexts' reactions reactions' : ℕ} (hc : contexts ≤ contexts')
    (hr : reactions ≤ reactions') (r : Reaction (Fn S)) (h : Known contexts reactions r) :
    Known contexts' reactions' r where
  address := Nat.lt_of_lt_of_le h.address hr
  handler f hf := (h.handler f hf).mono hc
  capability c hc' := ⟨(h.capability c hc').1.mono hc, (h.capability c hc').2.mono hc⟩

/-- A state before the call. -/
structure Before (objects : Objects V S) (m : Machine V S) : Prop where
  call : m.call = none
  sound : Sound objects (Known m.history.vm.contexts.length m.history.vm.reactions)
    (Func.Exists m.history.vm.contexts.length) m.history

theorem before_empty : Before objects (empty : Machine V S) where
  call := rfl
  sound :=
    { valid := valid_empty
      lookups := rfl
      holds := by
        refine ⟨fun _ t r hr => ?_, fun _ _ hr => absurd hr List.not_mem_nil, nofun⟩
        cases t <;> cases hr
      plain := fun _ _ hv => absurd hv.state nofun }

theorem hasFunction_exists {f : Func (Fn S)} (h : hasFunction m f = true) :
    Func.Exists m.history.vm.contexts.length f := by
  match f with
  | .resolve context | .reject context =>
    rw [hasFunction, Bool.and_eq_true, decide_eq_true_eq] at h
    exact h.1
  | .script (.script _) => trivial

theorem Before.perform {m : Machine V S} (hm : Before objects m) {e : Event V (Fn S)}
    (hlookup : ∀ n t, e ≠ .lookup n t)
    (hcreated : ∀ r ∈ e.created m.history.vm,
      (∀ f ∈ r.handler, Func.Exists m.history.vm.contexts.length f) ∧
        ∀ c ∈ r.capability, c.Holds (Func.Exists m.history.vm.contexts.length)) :
    Before objects (perform objects e m) := by
  have hg := @grows_perform _ _ objects _ hm.sound.valid e
  have hcontexts : (Machine.perform objects e m).history.vm.contexts =
      (Promises.step objects.toValues m.history.vm e).contexts := contexts_lookup _
  have hmono : Sound objects (Known (Machine.perform objects e m).history.vm.contexts.length
        (Machine.perform objects e m).history.vm.reactions)
      (Func.Exists (Machine.perform objects e m).history.vm.contexts.length) m.history :=
    ⟨hm.sound.valid, hm.sound.lookups,
      hm.sound.holds.mono (Known.mono hg.contexts hg.reactions) (Func.Exists.mono hg.contexts),
      hm.sound.plain⟩
  refine ⟨hm.call, hmono.perform (fun r hr => hr.capability) ⟨hlookup, fun r hr => ?_, ?_⟩⟩
  · obtain ⟨hhandler, hcapability⟩ := hcreated r hr
    obtain ⟨haddress, hlt⟩ := @created_address _ _ _ objects.toValues _ _ hr
    refine ⟨?_, fun f hf => (hhandler f hf).mono hg.contexts, fun c hc => ?_⟩
    · have hlookup := @grows_lookup _ _ objects _
        (hm.sound.valid.effect (effect_next objects.toValues m.history e))
      rw [haddress]
      exact Nat.lt_of_lt_of_le hlt hlookup.reactions
    · exact ⟨(hcapability c hc).1.mono hg.contexts, (hcapability c hc).2.mono hg.contexts⟩
  · rw [hcontexts]
    exact fun _ => id

theorem native_eq {s : State V (Fn S)} {f : Func (Fn S)} {v : V} (h : native s = some (f, v)) :
    ∃ a c t jobs, s.running = none ∧ s.jobs = .reaction ⟨a, c, t, some f⟩ v :: jobs := by
  rw [native] at h
  split at h
  · cases h
  · cases h
    exact ⟨_, _, _, _, by assumption, by assumption⟩
  · cases h

theorem Before.quiet (hm : Before objects m) {e : Event V (Fn S)}
    (hlookup : ∀ n t, e ≠ .lookup n t) (hcreated : e.created m.history.vm = []) :
    Before objects (Machine.perform objects e m) :=
  hm.perform hlookup fun _ hr => absurd (hcreated ▸ hr) List.not_mem_nil

/-- No call reads the property `then` between two steps. -/
theorem perform_lookup (hm : m.history.vm.lookups = []) (n : ℕ) (r : Then V (Fn S)) :
    Machine.perform objects (.lookup n r) m = m := by
  have hnext : next objects.toValues m.history (.lookup n r) = m.history := by
    simp [next, Promises.step, started, registers, hm]
  rw [Machine.perform, hnext, Machine.lookup, hm]

/-- The script calls `then` with functions that it has. -/
theorem allows_created {e : Event V (Fn S)} (h : allows m e = true) :
    ∀ r ∈ e.created m.history.vm, (∀ f ∈ r.handler, hasFunction m f = true) ∧
      ∀ c ∈ r.capability, hasFunction m c.resolve = true ∧ hasFunction m c.reject = true := by
  cases e with
  | performThen p fulfilled rejected capability =>
    simp only [allows, Bool.and_eq_true, Option.all_eq_true] at h
    obtain ⟨⟨hfulfilled, hrejected⟩, hcapability⟩ := h
    intro r hr
    rw [Event.created] at hr
    split_ifs at hr with hp
    · rcases List.mem_cons.mp hr with rfl | hr
      · exact ⟨hfulfilled, hcapability⟩
      · obtain rfl := List.mem_singleton.mp hr
        exact ⟨hrejected, hcapability⟩
    · cases hr
  | _ =>
    intro r hr
    cases hr

theorem Before.step {m : Machine V S} (hm : Before objects m) (e : Event V (Fn S)) :
    Before objects (step objects m e) := by
  have hallowed (e : Event V (Fn S)) (hlookup : ∀ n t, e ≠ .lookup n t) :
      Before objects (if allows m e then Machine.perform objects e m else m) := by
    split_ifs with hallows
    · refine hm.perform hlookup fun r hr => ?_
      obtain ⟨hhandler, hcapability⟩ := allows_created hallows r hr
      exact ⟨fun f hf => hasFunction_exists (hhandler f hf), fun c hc =>
        ⟨hasFunction_exists (hcapability c hc).1, hasFunction_exists (hcapability c hc).2⟩⟩
    · exact hm
  cases e with
  | runJob =>
    have hstarted : Before objects (Machine.perform objects .runJob m) := hm.quiet nofun rfl
    rw [Machine.step, Machine.njsVmExecutePendingJob]
    cases hnative : native m.history.vm with
    | none => exact hstarted
    | some q =>
      obtain ⟨f, v⟩ := q
      obtain ⟨a, c, t, jobs, -, hjobs⟩ := native_eq hnative
      have hr := hm.sound.holds.jobs _ v (hjobs ▸ List.mem_cons_self)
      have hf := hr.handler f rfl
      refine Before.quiet ?_ nofun rfl
      match f with
      | .resolve context => exact hstarted.quiet nofun rfl
      | .reject context => exact hstarted.quiet nofun rfl
      | .script (.script _) => exact hstarted
      | .script (.allResolve _) | .script (.allSettled _ _) | .script (.anyReject _) =>
          exact hf.elim
  | lookup n r =>
    have hidle : Machine.step objects m (.lookup n r) = m := by
      change (if allows m (.lookup n r) then Machine.perform objects (.lookup n r) m else m) = m
      rw [perform_lookup hm.sound.lookups, ite_self]
    rwa [hidle]
  | construct => exact hallowed .construct nofun
  | resolve context v => exact hallowed _ nofun
  | reject context v => exact hallowed _ nofun
  | performThen p fulfilled rejected capability => exact hallowed _ nofun
  | jobReturn r => exact hallowed (.jobReturn r) nofun

theorem before_run (events : List (Event V (Fn S))) :
    Before objects (events.foldl (step objects) empty) :=
  Runs.foldl_inv (fun _ e hm => hm.step e) before_empty events

end Machine

end Njs.Promises
