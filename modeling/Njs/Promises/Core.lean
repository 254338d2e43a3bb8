import Mathlib.Data.Nat.Notation
import Mathlib.Logic.Function.Basic

/-!
# Promises

Promises with their reactions, the functions that resolve and reject them, and the queue of jobs.
What scripts do between the calls is not fixed: reading the property `then` of an object, and a
handler that a job calls, may do anything before they return. Allocations succeed.
-/

namespace Njs.Promises

/-- `njs_promise_type_t`. -/
inductive PromiseType
  | pending
  | fulfill
  | rejected
  deriving DecidableEq

/-- A function: one of the two that a context was made for, or another one. -/
inductive Func (S : Type)
  /-- `njs_promise_resolve_function`. -/
  | resolve (context : ℕ)
  /-- `njs_promise_reject_function`. -/
  | reject (context : ℕ)
  | script (f : S)
  deriving DecidableEq

/-- `njs_promise_capability_t`, without the promise, which is only returned. -/
structure Capability (S : Type) where
  resolve : Func S
  reject : Func S
  deriving DecidableEq

/-- `njs_promise_reaction_t`. -/
structure Reaction (S : Type) where
  /-- Where it was allocated; the two reactions of one `then` go by one number. -/
  address : ℕ
  capability : Option (Capability S)
  type : PromiseType
  handler : Option (Func S)
  deriving DecidableEq

/-- `njs_promise_data_t`. -/
structure Promise (V S : Type) where
  state : PromiseType
  result : Option V
  fulfillQueue : List (Reaction S)
  rejectQueue : List (Reaction S)
  isHandled : Bool
  deriving DecidableEq

/-- The contexts of a pair of resolving functions, with the flag that they share. -/
structure Context where
  promise : ℕ
  resolved : Bool
  deriving DecidableEq

/-- A job of `vm->jobs`. -/
inductive Job (V S : Type)
  /-- `njs_promise_reaction_job`. -/
  | reaction (r : Reaction S) (argument : V)
  /-- `njs_promise_resolve_thenable_job`. -/
  | thenable (promise : ℕ) (resolution : V) (thenFunc : Func S)
  deriving DecidableEq

/-- A job that has called a function. -/
inductive Running (S : Type)
  | reaction (capability : Option (Capability S))
  | thenable (context : ℕ)
  deriving DecidableEq

/-- The promises of an interpreter. -/
structure State (V S : Type) where
  promise : ℕ → Promise V S
  promises : ℕ
  contexts : List Context
  jobs : List (Job V S)
  /-- The calls of resolve functions that are reading the property `then` of a value. -/
  lookups : List (ℕ × V)
  running : Option (Running S)
  reactions : ℕ
  /-- The calls of `vm->rejection_tracker`. -/
  tracked : List (Bool × ℕ × Option V)

/-- What is asked of values. -/
structure Values (V : Type) where
  undefined : V
  promise : V → Option ℕ
  isObject : V → Bool
  selfResolution : V

/-- What reading the property `then` returns. -/
inductive Then (V S : Type)
  | error (e : V)
  | notFunction
  | function (f : Func S)

section Core

variable {V S : Type}

/-- Before anything is done. -/
def State.empty : State V S where
  promise _ := ⟨.pending, none, [], [], false⟩
  promises := 0
  contexts := []
  jobs := []
  lookups := []
  running := none
  reactions := 0
  tracked := []

/-! ### Settling -/

def njsPromiseTriggerReactions (value : V) (queue : List (Reaction S)) (s : State V S) :
    State V S :=
  { s with jobs := s.jobs ++ queue.map fun r => .reaction r value }

def njsPromiseFulfill (p : ℕ) (value : V) (s : State V S) : State V S :=
  let data := { s.promise p with result := some value, state := .fulfill }
  if data.fulfillQueue.isEmpty then { s with promise := Function.update s.promise p data }
  else
    njsPromiseTriggerReactions value data.fulfillQueue { s with
        promise := Function.update s.promise p { data with fulfillQueue := [], rejectQueue := [] } }

def njsPromiseReject (p : ℕ) (reason : V) (s : State V S) : State V S :=
  let data := { s.promise p with result := some reason, state := .rejected }
  let tracked := if data.isHandled then s.tracked else s.tracked ++ [(false, p, some reason)]
  if data.rejectQueue.isEmpty then
    { s with promise := Function.update s.promise p data, tracked }
  else
    njsPromiseTriggerReactions reason data.rejectQueue { s with
        promise := Function.update s.promise p { data with fulfillQueue := [], rejectQueue := [] }
        tracked }

/-! ### Resolving functions -/

def njsPromiseAlloc (s : State V S) : State V S × ℕ :=
  ({ s with
    promise := Function.update s.promise s.promises ⟨.pending, none, [], [], false⟩
    promises := s.promises + 1 }, s.promises)

def njsPromiseCreateResolvingFunctions (p : ℕ) (s : State V S) : State V S × ℕ :=
  ({ s with contexts := s.contexts ++ [⟨p, false⟩] }, s.contexts.length)

/-- `*context->resolved_ref = 1`, if the flag is not set, and the promise. -/
def lock (context : ℕ) (s : State V S) : Option (State V S × ℕ) :=
  match s.contexts[context]? with
  | some c =>
    if c.resolved then none
    else some ({ s with contexts := s.contexts.set context ⟨c.promise, true⟩ }, c.promise)
  | none => none

variable (values : Values V)

/-- `njs_promise_resolve_function` until it reads the property `then`. -/
def njsPromiseResolveFunction (context : ℕ) (resolution : V) (s : State V S) : State V S :=
  match lock context s with
  | none => s
  | some (s, p) =>
    if values.promise resolution = some p then njsPromiseReject p values.selfResolution s
    else if values.isObject resolution then { s with lookups := (p, resolution) :: s.lookups }
    else njsPromiseFulfill p resolution s

/-- The rest of `njs_promise_resolve_function`. -/
def resolveWith (p : ℕ) (resolution : V) (r : Then V S) (s : State V S) : State V S :=
  match r with
  | .error e => njsPromiseReject p e s
  | .notFunction => njsPromiseFulfill p resolution s
  | .function f => { s with jobs := s.jobs ++ [.thenable p resolution f] }

def njsPromiseRejectFunction (context : ℕ) (reason : V) (s : State V S) : State V S :=
  match lock context s with
  | none => s
  | some (s, p) => njsPromiseReject p reason s

/-- A call of a function that has nothing to wait for. -/
def Func.call (f : Func S) (v : V) (s : State V S) : State V S :=
  match f with
  | .resolve context => njsPromiseResolveFunction values context v s
  | .reject context => njsPromiseRejectFunction context v s
  | .script _ => s

/-! ### Reactions and jobs -/

def njsPromisePerformThen (p : ℕ) (fulfilled rejected : Option (Func S))
    (capability : Option (Capability S)) (s : State V S) : State V S :=
  let fulfilledReaction : Reaction S := ⟨s.reactions, capability, .fulfill, fulfilled⟩
  let rejectedReaction : Reaction S := ⟨s.reactions, capability, .rejected, rejected⟩
  let data := { s.promise p with isHandled := true }
  let s := { s with reactions := s.reactions + 1 }
  match data.state with
  | .pending =>
    { s with
      promise :=
        Function.update s.promise p { data with
            fulfillQueue := data.fulfillQueue ++ [fulfilledReaction]
            rejectQueue := data.rejectQueue ++ [rejectedReaction] } }
  | .rejected =>
    { s with
      tracked := s.tracked ++ [(true, p, data.result)]
      jobs := s.jobs ++ [.reaction rejectedReaction (data.result.getD values.undefined)]
      promise := Function.update s.promise p data }
  | .fulfill =>
    { s with
      jobs := s.jobs ++ [.reaction fulfilledReaction (data.result.getD values.undefined)]
      promise := Function.update s.promise p data }

/-- The end of `njs_promise_reaction_job`. -/
def settleCapability (capability : Option (Capability S)) (r : Except V V) (s : State V S) :
    State V S :=
  match capability, r with
  | none, _ => s
  | some capability, .ok v => capability.resolve.call values v s
  | some capability, .error e => capability.reject.call values e s

/-- `njs_promise_reaction_job`, until it calls a handler. -/
def njsPromiseReactionJob (r : Reaction S) (argument : V) (s : State V S) : State V S :=
  match r.handler with
  | none =>
    if r.type = .rejected then settleCapability values r.capability (.error argument) s
    else settleCapability values r.capability (.ok argument) s
  | some _ => { s with running := some (.reaction r.capability) }

/-- `njs_promise_resolve_thenable_job`, until it calls the function. -/
def njsPromiseResolveThenableJob (p : ℕ) (s : State V S) : State V S :=
  let (s, context) := njsPromiseCreateResolvingFunctions p s
  { s with running := some (.thenable context) }

def njsVmExecutePendingJob (s : State V S) : State V S :=
  match s.running, s.jobs with
  | none, .reaction r argument :: jobs => njsPromiseReactionJob values r argument { s with jobs }
  | none, .thenable p _ _ :: jobs => njsPromiseResolveThenableJob p { s with jobs }
  | _, _ => s

def jobReturn (r : Except V V) (s : State V S) : State V S :=
  match s.running with
  | none => s
  | some (.reaction capability) => settleCapability values capability r { s with running := none }
  | some (.thenable context) =>
    match r with
    | .ok _ => { s with running := none }
    | .error e => njsPromiseRejectFunction context e { s with running := none }

/-! ### Steps -/

/-- What happens: a promise is made, a function is called or `then`, reading a property returns,
or a job starts or goes on. -/
inductive Event (V S : Type)
  | construct
  | resolve (context : ℕ) (v : V)
  | reject (context : ℕ) (v : V)
  | lookup (n : ℕ) (r : Then V S)
  | performThen (p : ℕ) (fulfilled rejected : Option (Func S))
      (capability : Option (Capability S))
  | runJob
  | jobReturn (r : Except V V)

def step (s : State V S) (e : Event V S) : State V S :=
  match e with
  | .construct =>
    let (s, p) := njsPromiseAlloc s
    (njsPromiseCreateResolvingFunctions p s).1
  | .resolve context v => njsPromiseResolveFunction values context v s
  | .reject context v => njsPromiseRejectFunction context v s
  | .lookup n r =>
    match s.lookups[n]? with
    | some (p, resolution) =>
      resolveWith p resolution r { s with lookups := s.lookups.eraseIdx n }
    | none => s
  | .performThen p fulfilled rejected capability =>
    if p < s.promises then njsPromisePerformThen values p fulfilled rejected capability s else s
  | .runJob => njsVmExecutePendingJob values s
  | .jobReturn r => jobReturn values r s

end Core

end Njs.Promises
