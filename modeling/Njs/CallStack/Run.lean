import Njs.Lib.BumpStack

/-!
# Frames and runs

Functions are called on a stack of frames, which is taken from the memory pool in chunks. A frame
that opens a chunk has its size, and the chunk is given back with the frame.
-/

namespace Njs.CallStack

open BumpStack

/-- `njs_frame_t`; of the last three members a native frame makes no use. -/
structure Frame extends Cell where
  native : Bool
  locals : ℕ
  closures : ℕ
  /-- How many `try` blocks have been entered: `exception.catch` is set when there is one. -/
  tries : ℕ
  /-- The address of `previous_active_frame`. -/
  previousActive : Option ℕ

/-- The members of `njs_vm_t` that are about the stack, and the pool. -/
structure Vm where
  /-- `top_frame` and the frames before it. -/
  frames : List Frame
  /-- The address of `active_frame`. -/
  active : Option ℕ
  /-- The pointers to the local variables and the closures in `levels`. -/
  levels : ℕ × ℕ
  /-- `spare_stack_size`. -/
  spare : ℕ
  /-- The chunks that the pool has given, each with its address and its size. -/
  pool : List (ℕ × ℕ)

def njsAlignSize (size n : ℕ) : ℕ := (size + (n - 1)) / n * n

/-- `sizeof(njs_value_t)`. -/
def njsValueSize : ℕ := 16

def pointerSize : ℕ := 8

/-- `NJS_NATIVE_FRAME_SIZE`, where `njs_native_frame_t` has eight words and four half words. -/
def njsNativeFrameSize : ℕ := njsAlignSize 80 njsValueSize

/-- `NJS_FRAME_SIZE`, where `njs_frame_t` has three more words. -/
def njsFrameSize : ℕ := njsAlignSize 104 njsValueSize

/-- `NJS_FRAME_SPARE_SIZE`. -/
def njsFrameSpareSize : ℕ := 4 * 1024

/-- A frame of which nothing but the place is set. -/
def Frame.zero (cell : Cell) : Frame where
  toCell := cell
  native := false
  locals := 0
  closures := 0
  tries := 0
  previousActive := none

namespace Vm

variable (vm : Vm)

def push (cell : Cell) : Vm := { vm with frames := Frame.zero cell :: vm.frames }

def mapTop (g : Frame → Frame) : Vm :=
  match vm.frames with
  | [] => vm
  | frame :: frames => { vm with frames := g frame :: frames }

end Vm

section

-- `njs_mp_align`, when chunks are in use and another one of some size is asked for.
variable (mpAlign : List (ℕ × ℕ) → ℕ → Option ℕ)

/-- `njs_function_frame_alloc`. There is no frame after an exception. -/
def njsFunctionFrameAlloc (vm : Vm) (size : ℕ) : Option Vm :=
  match vm.frames with
  | frame :: _ =>
    if size ≤ frame.freeSize then
      some (vm.push ⟨frame.free, frame.free + size, frame.freeSize - size, 0⟩)
    else openChunk
  | [] => openChunk
where
  openChunk :=
    let spareSize := njsAlignSize (size + njsFrameSpareSize) njsFrameSpareSize
    if vm.spare < spareSize then none
    else
      match mpAlign vm.pool spareSize with
      | none => none
      | some address =>
        some ({ vm with
          spare := vm.spare - spareSize
          pool := (address, spareSize) :: vm.pool }.push
            ⟨address, address + size, spareSize - size, spareSize⟩)

def njsFunctionNativeFrame (vm : Vm) (nargs : ℕ) : Option Vm :=
  (njsFunctionFrameAlloc mpAlign vm (njsNativeFrameSize + (1 + nargs) * njsValueSize)).map
    (Vm.mapTop · fun frame => { frame with native := true })

/-- `njs_function_lambda_t` and the closures of the function. -/
structure Lambda where
  nargs : ℕ
  nlocal : ℕ
  closures : ℕ

def njsFunctionLambdaFrame (vm : Vm) (lambda : Lambda) (nargs : ℕ) : Option Vm :=
  let argsCount := max nargs lambda.nargs
  let valueCount := argsCount + lambda.nlocal
  let valueSize := valueCount * pointerSize
  let frameSize := valueSize + valueCount * njsValueSize
  (njsFunctionFrameAlloc mpAlign vm (njsFrameSize + frameSize)).map
    (Vm.mapTop · fun frame => { frame with
      native := false
      locals := frame.address + njsFrameSize + argsCount * pointerSize
      closures := lambda.closures
      tries := 0
      previousActive := vm.active })

/-- The frame of global code, which `njs_vm_runtime_init` makes. -/
def njsVmRuntimeInit (vm : Vm) : Option Vm :=
  (njsFunctionFrameAlloc mpAlign vm njsFrameSize).map fun vm =>
    { vm with active := vm.frames.head?.map fun frame => frame.address }

end

def njsVmScopesRestore (frame : Frame) (vm : Vm) : Vm where
  frames := (vm.frames.dropWhile fun f => f.address ≠ frame.address).tail
  active := if frame.native then vm.active else frame.previousActive
  levels := vm.levels
  spare := vm.spare
  pool := vm.pool

def njsFunctionFrameFree (frame : Frame) (vm : Vm) : Vm :=
  if frame.size ≠ 0 then
    { vm with
      spare := vm.spare + frame.size
      pool := vm.pool.eraseP fun chunk => chunk.1 = frame.address }
  else vm

def leave (frame : Frame) (vm : Vm) : Vm := njsFunctionFrameFree frame (njsVmScopesRestore frame vm)

/-- The loop of `njs_vmcode_interpreter` over the frames when there is an exception: whether it is
caught, else the interpreter returns an error. -/
def errorLoop (vm : Vm) : List Frame → Bool × Vm
  | [] => (false, vm)
  | frame :: frames =>
    if frame.native = false ∧ frame.tries ≠ 0 then (true, vm)
    else if frames.isEmpty then (false, vm)
    else
      let lambdaCall : Bool := vm.active = some frame.address
      let vm := leave frame vm
      if lambdaCall then (false, vm) else errorLoop vm frames

def njsVmcodeReturn (vm : Vm) : Vm :=
  match vm.frames with
  | [] => vm
  | frame :: _ => leave frame vm

def njsVmcodeTryStart (vm : Vm) : Vm :=
  vm.mapTop fun frame => { frame with tries := frame.tries + 1 }

def njsVmcodeTryEnd (vm : Vm) : Vm :=
  vm.mapTop fun frame => { frame with tries := frame.tries - 1 }

end Njs.CallStack

/-!
## Runs

A run is the tree of what is done in it: which functions are called, where an exception is thrown
and where it ends. Values are left out. Beside its result a run has a log of the frames that are
made and of the calls that are completed.
-/

namespace Njs.CallStack

/-- What a run is a run of. -/
inductive Kind
  | native
  | function
  | expression
  | statement

/-- The runs. -/
inductive Code : Kind → Type
  /-- C code returns `NJS_OK`. -/
  | ok : Code .native
  /-- C code returns `NJS_ERROR`. -/
  | error : Code .native
  | call (f : Code .function) (next : Code .native) : Code .native
  | attempt (f : Code .function) (next otherwise : Code .native) : Code .native
  | nativeFunction (nargs : ℕ) (code : Code .native) : Code .function
  | lambdaFunction (lambda : Lambda) (nargs : ℕ) (body : Code .statement) : Code .function
  | done : Code .expression
  /-- An instruction of the interpreter that makes no frame, such as a property access. -/
  | operation (code : Code .native) (next : Code .expression) : Code .expression
  /-- The frame of a function is made, the arguments are evaluated and the function is called. The
  instruction that makes the frame may do other things before, as for a constructor. -/
  | invoke (before : Code .native) (f : Code .function) (arguments next : Code .expression) :
    Code .expression
  | fin : Code .statement
  | return : Code .statement
  | evaluate (e : Code .expression) (next : Code .statement) : Code .statement
  | tryCatch (body handler next : Code .statement) : Code .statement

/-- How a run ends: with `NJS_OK`, with `NJS_ERROR`, at `return`, or at a handler. -/
inductive Outcome
  | ok
  | error
  | returned
  | caught
  deriving DecidableEq

/-- How a call is completed: by its return; by a handler of the script; or by C code that goes on
after the error, maybe that of a native function that has got its frame. -/
inductive Way
  | returned
  | caught
  | swallowed (native : Bool)

inductive Event
  /-- A frame has been made. -/
  | started (vm : Vm)
  | completed (way : Way) (before after : Vm)

structure Result where
  outcome : Outcome
  vm : Vm
  log : List Event

namespace Result

variable (r : Result)

def before (log : List Event) : Result := { r with log := log ++ r.log }

/-- The run goes on after `NJS_OK`. -/
def andThen (f : Vm → Result) : Result := if r.outcome = .ok then (f r.vm).before r.log else r

end Result

/-- The interpreter goes to its label `error`. -/
def throw (vm : Vm) : Result :=
  let (caught, vm) := errorLoop vm vm.frames
  ⟨if caught then .caught else .error, vm, []⟩

/-- An instruction of the interpreter has returned. -/
def Result.orThrow (r : Result) : Result :=
  if r.outcome = .ok then r else (throw r.vm).before r.log

/-- `njs_function_native_call`: after an error the frame is left. -/
def njsFunctionNativeCall (call : Vm → Result) (vm : Vm) : Result :=
  match vm.frames with
  | [] => ⟨.error, vm, []⟩
  | native :: _ =>
    let r := call vm
    { r with vm := if r.outcome = .ok then leave native r.vm else r.vm }

/-- `njs_function_lambda_call`, where the interpreter runs the body of the function. -/
def njsFunctionLambdaCall (interpret : Vm → Result) (vm : Vm) : Result :=
  match vm.frames with
  | [] => ⟨.error, vm, []⟩
  | frame :: _ =>
    let r := interpret { vm with
      levels := (frame.locals, frame.closures)
      active := some frame.address }
    let returns : Bool := r.outcome = .ok ∨ r.outcome = .returned
    ⟨if returns then .ok else .error,
      { (if returns then njsVmcodeReturn r.vm else r.vm) with levels := vm.levels }, r.log⟩

def Code.isNative : Code .function → Bool
  | .nativeFunction _ _ => true
  | .lambdaFunction _ _ _ => false

section

variable (mpAlign : List (ℕ × ℕ) → ℕ → Option ℕ)

def njsFunctionFrame (vm : Vm) : Code .function → Option Vm
  | .nativeFunction nargs _ => njsFunctionNativeFrame mpAlign vm nargs
  | .lambdaFunction lambda nargs _ => njsFunctionLambdaFrame mpAlign vm lambda nargs

/-- A run. A function is run on the top frame, by `njs_function_frame_invoke`. -/
def exec : {k : Kind} → Code k → Vm → Result
  | _, .ok, vm => ⟨.ok, vm, []⟩
  | _, .error, vm => ⟨.error, vm, []⟩
  | _, .call f next, vm =>
    (njsFunctionFrame mpAlign vm f).elim ⟨.error, vm, []⟩ fun vm' =>
      ((exec f vm').before [.started vm']).andThen fun vm'' =>
        (exec next vm'').before [.completed .returned vm vm'']
  | _, .attempt f next otherwise, vm =>
    (njsFunctionFrame mpAlign vm f).elim
      ((exec otherwise vm).before [.completed (.swallowed false) vm vm]) fun vm' =>
        let r := (exec f vm').before [.started vm']
        if r.outcome = .ok then
          (exec next r.vm).before (r.log ++ [.completed .returned vm r.vm])
        else
          (exec otherwise r.vm).before (r.log ++ [.completed (.swallowed f.isNative) vm r.vm])
  | _, .nativeFunction _ code, vm => njsFunctionNativeCall (exec code) vm
  | _, .lambdaFunction _ _ body, vm => njsFunctionLambdaCall (exec body) vm
  | _, .done, vm => ⟨.ok, vm, []⟩
  | _, .operation code next, vm => (exec code vm).orThrow.andThen (exec next)
  | _, .invoke before f arguments next, vm =>
    (exec before vm).orThrow.andThen fun vm =>
      (njsFunctionFrame mpAlign vm f).elim (throw vm) fun vm' =>
        ((exec arguments vm').before [.started vm']).andThen fun vm' =>
          (exec f vm').orThrow.andThen fun vm'' =>
            (exec next vm'').before [.completed .returned vm vm'']
  | _, .fin, vm => ⟨.ok, vm, []⟩
  | _, .return, vm => ⟨.returned, vm, []⟩
  | _, .evaluate e next, vm => (exec e vm).andThen (exec next)
  | _, .tryCatch body handler next, vm =>
    let r := exec body (njsVmcodeTryStart vm)
    if r.outcome = .ok then (exec next (njsVmcodeTryEnd r.vm)).before r.log
    else if r.outcome = .caught then
      ((exec handler (njsVmcodeTryEnd r.vm)).before
        (r.log ++ [.completed .caught vm (njsVmcodeTryEnd r.vm)])).andThen (exec next)
    else r

section

variable (f : Code .function) (code next otherwise : Code .native)
  (e arguments : Code .expression) (body handler : Code .statement) (vm : Vm)

theorem exec_call : exec mpAlign (.call f next) vm =
    (njsFunctionFrame mpAlign vm f).elim ⟨.error, vm, []⟩ fun vm' =>
      ((exec mpAlign f vm').before [.started vm']).andThen fun vm'' =>
        (exec mpAlign next vm'').before [.completed .returned vm vm''] := rfl

theorem exec_attempt : exec mpAlign (.attempt f next otherwise) vm =
    (njsFunctionFrame mpAlign vm f).elim
      ((exec mpAlign otherwise vm).before [.completed (.swallowed false) vm vm]) fun vm' =>
        let r := (exec mpAlign f vm').before [.started vm']
        if r.outcome = .ok then
          (exec mpAlign next r.vm).before (r.log ++ [.completed .returned vm r.vm])
        else
          (exec mpAlign otherwise r.vm).before
            (r.log ++ [.completed (.swallowed f.isNative) vm r.vm]) := rfl

theorem exec_nativeFunction (nargs : ℕ) : exec mpAlign (.nativeFunction nargs code) vm =
    njsFunctionNativeCall (exec mpAlign code) vm := rfl

theorem exec_lambdaFunction (lambda : Lambda) (nargs : ℕ) :
    exec mpAlign (.lambdaFunction lambda nargs body) vm =
      njsFunctionLambdaCall (exec mpAlign body) vm := rfl

theorem exec_operation : exec mpAlign (.operation code e) vm =
    (exec mpAlign code vm).orThrow.andThen (exec mpAlign e) := rfl

theorem exec_invoke : exec mpAlign (.invoke code f arguments e) vm =
    (exec mpAlign code vm).orThrow.andThen fun vm =>
      (njsFunctionFrame mpAlign vm f).elim (throw vm) fun vm' =>
        ((exec mpAlign arguments vm').before [.started vm']).andThen fun vm' =>
          (exec mpAlign f vm').orThrow.andThen fun vm'' =>
            (exec mpAlign e vm'').before [.completed .returned vm vm''] := rfl

theorem exec_evaluate : exec mpAlign (.evaluate e body) vm =
    (exec mpAlign e vm).andThen (exec mpAlign body) := rfl

theorem exec_tryCatch (after : Code .statement) : exec mpAlign (.tryCatch body handler after) vm =
      let r := exec mpAlign body (njsVmcodeTryStart vm)
      if r.outcome = .ok then (exec mpAlign after (njsVmcodeTryEnd r.vm)).before r.log
      else if r.outcome = .caught then
        ((exec mpAlign handler (njsVmcodeTryEnd r.vm)).before
          (r.log ++ [.completed .caught vm (njsVmcodeTryEnd r.vm)])).andThen (exec mpAlign after)
      else r := rfl

end

inductive Host
  /-- The global code is run on its frame, by `njs_vm_start`. -/
  | start (body : Code .statement)
  /-- A function is called, by `njs_vm_invoke`. -/
  | invoke (f : Code .function)

def Host.exec : Host → Vm → Result
  | .start body, vm =>
    let r := CallStack.exec mpAlign body vm
    { r with log := r.log ++
      [.completed (if r.outcome = .error then .swallowed false else .returned) vm r.vm] }
  | .invoke f, vm => CallStack.exec mpAlign (.attempt f .ok .ok) vm

def runAll : List Host → Vm → List Event
  | [], _ => []
  | host :: hosts, vm =>
    let r := host.exec mpAlign vm
    r.log ++ runAll hosts r.vm

end

/-! ### What should hold -/

def Vm.topFrame (vm : Vm) : Option ℕ := vm.frames.head?.map fun frame => frame.address

/-- No two frames overlap, and what is left of the stack and the chunks of its frames are all of
it. -/
structure Vm.Accounted (max : ℕ) (vm : Vm) : Prop where
  apart : (vm.frames.map Frame.toCell).Pairwise BumpStack.Apart
  account : vm.spare + BumpStack.total (vm.frames.map Frame.toCell) = max

def Event.Sound (max : ℕ) : Event → Prop
  | .started vm => vm.Accounted max
  | .completed _ before after =>
    (after.topFrame = before.topFrame ∧ after.active = before.active ∧
      after.levels = before.levels) ∧ after.Accounted max

/-- The stack after an entry. -/
def Event.vm : Event → Vm
  | .started vm => vm
  | .completed _ _ after => after

theorem Event.Sound.accounted {max : ℕ} {e : Event} (h : e.Sound max) : e.vm.Accounted max := by
  obtain vm | ⟨way, before, after⟩ := e
  · exact h
  · exact h.2

/-- C code goes on after the error of a native function, whose frame nobody ends. -/
def Event.LeavesNative : Event → Prop
  | .completed (.swallowed native) _ _ => native = true
  | _ => False

instance : DecidablePred Event.LeavesNative
  | .started _ => isFalse id
  | .completed .returned _ _ => isFalse id
  | .completed .caught _ _ => isFalse id
  | .completed (.swallowed native) _ _ => inferInstanceAs (Decidable (native = true))

end Njs.CallStack
