import Njs.Atom.Table
import Njs.Lib.TwosComplement

/-!
# Constants of the byte code

The constants of `njs_scope.c`: the code refers to them by indices of the static level, which are
handed out by `njs_scope_global_index`. A constant is kept in a cell; two hashes, one of them shared
with the clones of the VM, find the cell by the bytes of a string or by the bytes that any other
value takes in memory. Strings are shorter than `2 ^ 32`, and memory is not limited.
-/

namespace Njs.Scope

open Text
open Atom (njsDjbHash)

/-! ### Values -/

/-- The values of literals; numbers are given by their bits. -/
inductive Constant
  | null
  | undefined
  | boolean (b : Bool)
  | number (bits : UInt64)
  | string (s : Bytes)
  deriving DecidableEq

/-- The fields of `njs_value_t`. -/
structure Value where
  constant : Constant
  /-- `magic32`, which is also the atom of a number that has been used as a key. -/
  magic32 : UInt32 := 0
  magic16 : UInt16 := 0
  deriving DecidableEq

def Constant.isString : Constant → Bool
  | .string _ => true
  | _ => false

/-- The numbers of `njs_value_type_t`. -/
def Constant.type : Constant → UInt8
  | .null => 0
  | .undefined => 1
  | .boolean _ => 2
  | .number _ => 3
  | .string _ => 5

/-- `njs_is_number_true`, of the bits of a number. -/
def njsIsNumberTrue (bits : UInt64) : Bool :=
  let magnitude := bits &&& 0x7fffffffffffffff
  magnitude ≠ 0 && magnitude ≤ 0x7ff0000000000000

/-- The field `truth` of a value that is no string. -/
def Constant.truth : Constant → Bool
  | .boolean b => b
  | .number bits => njsIsNumberTrue bits
  | _ => false

/-- The bits of the field `number` of a value that is no string. -/
def Constant.bits : Constant → UInt64
  | .undefined => 0x7ff8000000000000
  | .boolean true => 0x3ff0000000000000
  | .number bits => bits
  | _ => 0

def Value.image (v : Value) : Bytes :=
  leBytes 4 v.magic32.toNat ++ [v.constant.type, if v.constant.truth then 1 else 0] ++
    leBytes 2 v.magic16.toNat ++ leBytes 8 v.constant.bits.toNat

def Value.key (v : Value) : Bytes :=
  match v.constant with
  | .string s => s
  | _ => v.image

/-! ### Indices -/

/-- `NJS_SCOPE_VALUE_MAX`. -/
def njsScopeValueMax : ℕ := 0xffffff

/-- `NJS_LEVEL_STATIC`. -/
def njsLevelStatic : ℕ := 3

/-- `NJS_VARIABLE_VAR`. -/
def njsVariableVar : ℕ := 3

/-- `njs_scope_index` of the static level; `none` is `NJS_INDEX_ERROR`. -/
def njsScopeIndex (index : ℕ) : Option ℕ :=
  if index > njsScopeValueMax then none
  else some (index <<< 8 ||| njsLevelStatic <<< 4 ||| njsVariableVar)

def njsScopeIndexValue (index : ℕ) : ℕ := index >>> 8

/-! ### Cells and VMs -/

/-- A value with the index that stands behind it, and the hash of its key when it was stored. -/
structure Cell where
  value : Value
  keyHash : UInt32
  index : Option ℕ
  deriving DecidableEq

/-- What all VMs share: the cells, and `shared->values_hash`, the newest element first. -/
structure Memory where
  cells : List Cell := []
  shared : List ℕ := []

/-- What a VM has of its own. -/
structure Vm where
  /-- `values_hash`, the newest element first. -/
  valuesHash : List ℕ := []
  scopeAbsolute : List ℕ := []
  /-- `levels[NJS_LEVEL_STATIC]` is the own array, and not that of the VM that has been cloned. -/
  ownLevel : Bool := true

/-- `njs_flathsh_find` with `njs_scope_values_hash_test`. -/
def find (cells : List Cell) (hash : List ℕ) (key : Bytes) : Option ℕ :=
  hash.find? fun id =>
    cells[id]?.any fun cell => cell.keyHash = njsDjbHash key && cell.value.key = key

def lookup (m : Memory) (vm : Vm) (src : Value) (runtime : Bool) : Option ℕ :=
  (find m.cells m.shared src.key).or (if runtime then find m.cells vm.valuesHash src.key else none)

/-- `njs_scope_value_index`: the cell of a value. -/
def njsScopeValueIndex (m : Memory) (vm : Vm) (src : Value) (runtime : Bool) : (Memory × Vm) × ℕ :=
  match lookup m vm src runtime with
  | some id => ((m, vm), id)
  | none =>
    let id := m.cells.length
    let cells := m.cells ++ [⟨src, njsDjbHash src.key, none⟩]
    if runtime then
      (({ m with cells := cells }, { vm with valuesHash := id :: vm.valuesHash }), id)
    else ((⟨cells, id :: m.shared⟩, vm), id)

/-- The value that `njs_scope_value_index` leaves in the node of the tree: that of the cell, if the
node holds a string. -/
def nodeValue (m : Memory) (id : ℕ) (src : Value) : Value :=
  if src.constant.isString then (m.cells[id]?.map Cell.value).getD src else src

def njsScopeGlobalIndex (m : Memory) (vm : Vm) (src : Value) (runtime : Bool) :
    (Memory × Vm) × Option ℕ :=
  let ((m, vm), id) := njsScopeValueIndex m vm src runtime
  match m.cells[id]?.bind Cell.index with
  | some index => ((m, vm), some index)
  | none =>
    let index := njsScopeIndex vm.scopeAbsolute.length
    (({ m with cells := m.cells.modify id fun cell => { cell with index := index } },
      { vm with scopeAbsolute := vm.scopeAbsolute ++ [id], ownLevel := true }), index)

/-- `njs_vm_clone` with run-time compilation. -/
def njsVmClone (vm : Vm) : Vm where
  valuesHash := []
  scopeAbsolute := vm.scopeAbsolute
  ownLevel := false

/-! ### A VM and its clones -/

/-- An index that has been handed out: by the VM or by one of its clones. -/
structure Event where
  who : Option ℕ
  constant : Constant
  index : ℕ
  deriving DecidableEq

/-- A VM with its clones, and all indices that have been handed out. -/
structure World where
  memory : Memory := {}
  vm : Vm := {}
  clones : List Vm := []
  events : List Event := []

/-- The events with a new one, if an index has been handed out. -/
def World.record (events : List Event) (who : Option ℕ) (constant : Constant) :
    Option ℕ → List Event
  | some index => events ++ [⟨who, constant, index⟩]
  | none => events

def World.level (w : World) : Option ℕ → Option (List ℕ)
  | none => some w.vm.scopeAbsolute
  | some k => w.clones[k]?.map fun vm =>
    if vm.ownLevel then vm.scopeAbsolute else w.vm.scopeAbsolute

/-- `njs_scope_value`: the cell that an index leads to. -/
def World.cellAt (w : World) (who : Option ℕ) (index : ℕ) : Option ℕ :=
  (w.level who).bind fun level => level[njsScopeIndexValue index]?

def World.read (w : World) (who : Option ℕ) (index : ℕ) : Option Constant :=
  (w.cellAt who index).bind fun id => w.memory.cells[id]?.map fun cell => cell.value.constant

def World.intern (w : World) (src : Value) (runtime : Bool) : World :=
  let ((m, vm), index) := njsScopeGlobalIndex w.memory w.vm src runtime
  { w with memory := m, vm := vm, events := World.record w.events none src.constant index }

def World.internClone (w : World) (k : ℕ) (src : Value) : World :=
  match w.clones[k]? with
  | none => w
  | some vm =>
    let ((m, vm), index) := njsScopeGlobalIndex w.memory vm src true
    { w with
      memory := m
      clones := w.clones.set k vm
      events := World.record w.events (some k) src.constant index }

/-- `njs_atom_atomize_key` keeps the atom of a number. -/
def Cell.atomize (atomId : UInt32) (cell : Cell) : Cell :=
  match cell.value.constant with
  | .number _ => { cell with value := { cell.value with magic32 := atomId } }
  | _ => cell

/-- The value at an index is used as a key. -/
def World.atomize (w : World) (who : Option ℕ) (index : ℕ) (atomId : UInt32) : World :=
  match w.cellAt who index with
  | none => w
  | some id =>
    { w with
      memory := { w.memory with cells := w.memory.cells.modify id (Cell.atomize atomId) } }

/-- What happens before the VM is cloned. -/
inductive Before
  | intern (src : Value) (runtime : Bool)
  | atomize (index : ℕ) (atomId : UInt32)

/-- What happens from the first clone on. -/
inductive After
  | clone
  | intern (k : ℕ) (src : Value)
  | atomize (who : Option ℕ) (index : ℕ) (atomId : UInt32)

def World.before (w : World) : Before → World
  | .intern src runtime => w.intern src runtime
  | .atomize index atomId => w.atomize none index atomId

/-- A step from the first clone on. -/
def World.after (w : World) : After → World
  | .clone => { w with clones := w.clones ++ [njsVmClone w.vm] }
  | .intern k src => w.internClone k src
  | .atomize who index atomId => w.atomize who index atomId

/-- A new VM: `njs_vm_create` interns `undefined`. -/
def World.create : World := World.intern {} { constant := .undefined } false

/-- A VM that compiles, and then its clones. -/
def World.run (before : List Before) (after : List After) : World :=
  after.foldl World.after (before.foldl World.before World.create)

end Njs.Scope
