import Mathlib.Algebra.Group.Int.Defs
import Mathlib.Algebra.Group.Nat.Defs
import Mathlib.Order.Nat
import Njs.Lib.Simulation

/-!
# Elements of arrays and fast arrays

An array is a map from indices to elements with a length. The methods read, write and delete one
property after the other.
-/

namespace Njs.Arrays

open Simulation

/-- An integer argument, as `ToIntegerOrInfinity` returns it. -/
inductive IntegerOrInfinity
  | integer (n : ℤ)
  | infinity
  | negInfinity
  deriving DecidableEq

/-- The errors of the methods. -/
inductive Error (X : Type)
  /-- "Cannot add property, object is not extensible". -/
  | notExtensible (index : ℕ)
  | invalidLength
  | invalidArrayLength
  /-- An exception of the script, while an argument is made a number. -/
  | script (x : X)
  deriving DecidableEq

/-- An array. -/
structure Elements (V : Type) where
  element : ℕ → Option V
  length : ℕ
  extensible : Bool

/-- What a method returns. -/
inductive Result (V : Type)
  | number (n : ℕ)
  /-- An element, or `undefined`. -/
  | element (v : Option V)
  | array (elements : List (Option V))
  | this
  deriving DecidableEq

/-- `2^53 - 1`. -/
def maxLength : ℕ := 0x1fffffffffffff

/-- The position for an argument that is relative to the end if it is negative. -/
def relative (length : ℕ) : IntegerOrInfinity → ℕ
  | .negInfinity => 0
  | .infinity => length
  | .integer n => if n < 0 then (max (length + n) 0).toNat else (min n length).toNat

namespace Elements

variable {V X : Type}

/-- Which elements are added without a look at whether the array is extensible, by their index and
the length of the array. In the language there are none. -/
abbrev Lax : Type := ℕ → ℕ → Bool

/-- What the language asks for. -/
def strict : Lax := fun _ _ => false

/-! ### One property -/

/-- `Set`, for an index. -/
def put (lax : Lax) (i : ℕ) (v : V) : Prog (Elements V) (Error X) PUnit := do
  let t ← get
  if (t.element i).isNone ∧ t.extensible = false ∧ lax i t.length = false then
    throw (.notExtensible i)
  else
    set { t with
      element := Function.update t.element i (some v)
      length := if i + 1 < 2 ^ 32 then max t.length (i + 1) else t.length }

/-- `DeletePropertyOrThrow`, for an index. -/
def remove (i : ℕ) : Prog (Elements V) (Error X) PUnit :=
  modify fun t => { t with element := Function.update t.element i none }

/-- `Set`, for the length. -/
def setLength (n : ℕ) : Prog (Elements V) (Error X) PUnit :=
  if 2 ^ 32 ≤ n then throw .invalidArrayLength
  else
    modify fun t =>
      { t with
        element := fun i => if i < n then t.element i else none
        length := n }

/-- `HasProperty`, with `Get` if there is one. -/
def read (i : ℕ) : Prog (Elements V) (Error X) (Option V) := do
  return (← get).element i

/-- The element at `source`, or the hole, is put at `target`. -/
def move (lax : Lax) (source target : ℕ) : Prog (Elements V) (Error X) PUnit := do
  match ← read source with
  | some v => put lax target v
  | none => remove target

def putAll (lax : Lax) (start : ℕ) (vs : List V) : Prog (Elements V) (Error X) PUnit :=
  forM vs.zipIdx fun p => put lax (start + p.2) p.1

/-- `count` elements are moved, from the first or from the last one on. -/
def moveAll (lax : Lax) (source target count : ℕ) (forward : Bool) :
    Prog (Elements V) (Error X) PUnit :=
  forM (List.range count) fun i =>
    if forward then move lax (source + i) (target + i)
    else move lax (source + (count - 1 - i)) (target + (count - 1 - i))

/-! ### Methods -/

/-- `Array.prototype.push`. -/
def push (lax : Lax) (vs : List V) : Prog (Elements V) (Error X) (Result V) := do
  let length := (← get).length
  if maxLength < length + vs.length then throw .invalidLength
  else
    putAll lax length vs
    setLength (length + vs.length)
    return .number (length + vs.length)

/-- `Array.prototype.pop`. -/
def pop : Prog (Elements V) (Error X) (Result V) := do
  let length := (← get).length
  if length = 0 then
    setLength 0
    return .element none
  else
    let v ← read (length - 1)
    remove (length - 1)
    setLength (length - 1)
    return .element v

/-- `Array.prototype.shift`. -/
def shift (lax : Lax) : Prog (Elements V) (Error X) (Result V) := do
  let length := (← get).length
  if length = 0 then
    setLength 0
    return .element none
  else
    let v ← read 0
    moveAll lax 1 0 (length - 1) true
    remove (length - 1)
    setLength (length - 1)
    return .element v

/-- `Array.prototype.unshift`. -/
def unshift (lax : Lax) (vs : List V) : Prog (Elements V) (Error X) (Result V) := do
  let length := (← get).length
  if maxLength < length + vs.length then throw .invalidLength
  else
    if 0 < vs.length then
      moveAll lax 0 vs.length length false
      putAll lax 0 vs
    setLength (length + vs.length)
    return .number (length + vs.length)

/-- `Array.prototype.splice`, once its arguments are numbers. -/
def spliceAt (lax : Lax) (length start delete : ℕ) (items : List V) :
    Prog (Elements V) (Error X) (Result V) := do
  if maxLength < length + items.length - delete then throw .invalidLength
  else
    let deleted ← (List.range delete).mapM fun i => read (start + i)
    let count := length - (start + delete)
    if items.length ≠ delete then
      moveAll lax (start + delete) (start + items.length) count (items.length < delete)
      forM (List.range (delete - items.length)) fun i => remove (length - 1 - i)
    putAll lax start items
    setLength (length + items.length - delete)
    return .array deleted

/-- `Array.prototype.copyWithin`, once its arguments are numbers. -/
def copyWithinAt (lax : Lax) (length target start stop : ℕ) :
    Prog (Elements V) (Error X) (Result V) := do
  let count := min (stop - start) (length - target)
  moveAll lax start target count !(start < target && target < start + count)
  return .this

end Elements

end Njs.Arrays

/-!
## Fast arrays

A fast array keeps its elements in an allocation with free cells on both sides. Pointers into it
are offsets. An access outside of the allocation stops a program, and so does what makes the array
slow or runs out of memory.
-/

namespace Njs.Arrays

open Simulation

/-- `njs_array_t`. -/
structure NjsArray (V : Type) where
  /-- `data`, with `size` cells. -/
  data : List (Option V)
  /-- `start`, as an offset from `data`. -/
  start : ℤ
  length : ℕ
  extensible : Bool

/-- `NJS_ARRAY_LARGE_OBJECT_LENGTH`. -/
def njsArrayLargeObjectLength : ℕ := 32768

/-- `UINT32_MAX / sizeof(njs_value_t)`. -/
def maxSize : ℕ := (2 ^ 32 - 1) / 16

abbrev Fast (V X α : Type) : Type := Prog (NjsArray V) (Stop (Error X)) α

namespace NjsArray

variable {V X : Type}

/-! ### Memory -/

/-- `start[i]` is read. -/
def readCell (i : ℤ) : Fast V X (Option V) := do
  let a ← get
  if 0 ≤ a.start + i ∧ a.start + i < a.data.length then
    return (a.data[(a.start + i).toNat]?).join
  else throw .outside

/-- `start[i]` is written. -/
def writeCell (i : ℤ) (cell : Option V) : Fast V X PUnit := do
  let a ← get
  if 0 ≤ a.start + i ∧ a.start + i < a.data.length then
    set { a with data := a.data.set (a.start + i).toNat cell }
  else throw .outside

/-- `memcpy` of all elements to a new allocation of `size` cells, `before` cells from its start. The
other cells hold what is in memory. -/
def copied (junk : ℕ → Option V) (a : NjsArray V) (size before : ℕ) : List (Option V) :=
  ((List.range before).map junk ++ (a.data.drop a.start.toNat).take a.length) ++
    (List.range (size - (before + a.length))).map junk

/-- `memmove` of `count` cells. -/
def moveCells (target source : ℤ) (count : ℕ) : Fast V X PUnit := do
  let a ← get
  if 0 ≤ a.start + source ∧ a.start + source + count ≤ a.data.length ∧ 0 ≤ a.start + target ∧
      a.start + target + count ≤ a.data.length then
    let cells := (a.data.drop (a.start + source).toNat).take count
    let before := a.data.take (a.start + target).toNat
    let after := a.data.drop ((a.start + target).toNat + count)
    set { a with data := before ++ cells ++ after }
  else throw .outside

variable (junk : NjsArray V → ℕ → Option V)

def njsArrayExpand (prepend append : ℕ) : Fast V X PUnit := do
  let a ← get
  let freeBefore := (a.start % 2 ^ 32).toNat
  let freeAfter := ((a.data.length - a.length - freeBefore : ℤ) % 2 ^ 32).toNat
  if prepend ≤ freeBefore ∧ append ≤ freeAfter then
    pure ()
  else
    let size := prepend + a.length + append
    let size := if size < 16 then size * 2 else size + size / 2
    if maxSize < size then throw .leaves
    else if 0 ≤ a.start ∧ a.start + a.length ≤ a.data.length then
      set { a with data := copied (junk a) a size prepend, start := prepend }
    else throw .outside

/-! ### One property -/

/-- `njs_value_property_i64`. Number atoms end at `0x80000000`. -/
def njsValuePropertyI64 (index : ℤ) : Fast V X (Option V) := do
  let a ← get
  if index < 0 then throw .outside
  else if index < 0x80000000 ∧ index < a.length then readCell index
  else return none

/-- `njs_set_invalid` on the cells from `index` on. -/
def setInvalid (index count : ℕ) : Fast V X PUnit :=
  forM (List.range count) fun i => writeCell (index + i : ℕ) none

/-- `njs_value_property_i64_set`, with `njs_array_property_query`. -/
def njsValuePropertyI64Set (index : ℤ) (v : V) : Fast V X PUnit := do
  let a ← get
  if index < 0 then throw .outside
  else if 0x80000000 ≤ index then throw .leaves
  else if index < a.length then writeCell index (some v)
  else if a.extensible = false then throw (.error (.notExtensible index.toNat))
  else if index < njsArrayLargeObjectLength then
    let size := index.toNat - a.length + 1
    njsArrayExpand junk 0 size
    setInvalid a.length size
    modify fun a => { a with length := index.toNat + 1 }
    writeCell index (some v)
  else throw .leaves

def njsValuePropertyI64Delete (index : ℤ) : Fast V X PUnit := do
  let a ← get
  if index < 0 then throw .outside
  else if index < 0x80000000 ∧ index < a.length then writeCell index none
  else pure ()

/-- `njs_object_length_set`, with `njs_array_length`. -/
def njsObjectLengthSet (length : ℤ) : Fast V X PUnit := do
  let a ← get
  if length < 0 ∨ 2 ^ 32 ≤ length then throw (.error .invalidArrayLength)
  else if length ≤ njsArrayLargeObjectLength then
    let size := length - a.length
    if 0 < size then
      njsArrayExpand junk 0 size.toNat
      setInvalid a.length size.toNat
    modify fun a => { a with length := length.toNat }
  else throw .leaves

/-! ### Methods -/

def njsArrayPrototypePush (args : List V) : Fast V X (Result V) := do
  njsArrayExpand junk 0 (args.length + 1)
  forM args fun v => do
    writeCell (← get).length (some v)
    modify fun a => { a with length := a.length + 1 }
  return .number (← get).length

def njsArrayPrototypePop : Fast V X (Result V) := do
  let length := (← get).length
  if length = 0 then
    njsObjectLengthSet junk 0
    return .element none
  else
    let v ← njsValuePropertyI64 (length - 1)
    modify fun a => { a with length := a.length - 1 }
    return .element v

def njsArrayPrototypeUnshift (args : List V) : Fast V X (Result V) := do
  if args.length ≠ 0 then
    njsArrayExpand junk args.length 0
    modify fun a => { a with length := a.length + args.length }
    forM args.reverse fun v => do
      modify fun a => { a with start := a.start - 1 }
      writeCell 0 (some v)
  return .number (← get).length

def njsArrayPrototypeShift : Fast V X (Result V) := do
  let length := (← get).length
  if length = 0 then
    njsObjectLengthSet junk 0
    return .element none
  else
    let v ← njsValuePropertyI64 0
    modify fun a => { a with start := a.start + 1, length := a.length - 1 }
    return .element v

def njsArrayCopyWithin (toPos fromPos count : ℤ) (forward : Bool) : Fast V X PUnit := do
  let len := (← get).length
  if 0 < count ∧ toPos + count < len ∧ fromPos + count < len then
    moveCells toPos fromPos count.toNat
  else
    let fromPos := if forward then fromPos else fromPos + (count - 1)
    let toPos := if forward then toPos else toPos + (count - 1)
    forM (List.range count.toNat) fun (i : ℕ) => do
      let source := if forward then fromPos + i else fromPos - i
      let target := if forward then toPos + i else toPos - i
      match ← njsValuePropertyI64 source with
      | some v => njsValuePropertyI64Set junk target v
      | none => njsValuePropertyI64Delete target

/-- The elements that `njs_array_prototype_splice` copies to the new array. Every cell of that array
is written, and it is given by its cells. -/
def deletedElements (start delete : ℤ) : Fast V X (List (Option V)) := do
  let a ← get
  if delete ≤ njsArrayLargeObjectLength ∧ start + delete ≤ a.length then
    (List.range delete.toNat).mapM fun (i : ℕ) => readCell (start + i)
  else (List.range delete.toNat).mapM fun (i : ℕ) => njsValuePropertyI64 (start + i)

/-- `njs_array_prototype_splice`, once its arguments are numbers. -/
def spliceAt (length start delete : ℤ) (items : List V) : Fast V X (Result V) := do
  let delta := items.length - delete
  if maxLength < length + delta then throw (.error .invalidLength)
  else
    let deleted ← deletedElements start delete
    if delta ≠ 0 then
      njsArrayCopyWithin junk (start + items.length) (start + delete) (length - (start + delete))
        (delta < 0)
      forM (List.range (-delta).toNat) fun (i : ℕ) => njsValuePropertyI64Delete (length - 1 - i)
    forM items.zipIdx fun (p : V × ℕ) => njsValuePropertyI64Set junk (start + p.2) p.1
    njsObjectLengthSet junk (length + delta)
    return .array deleted

/-- `njs_array_prototype_copy_within`, once its arguments are numbers. -/
def copyWithinAt (length target start stop : ℤ) : Fast V X (Result V) := do
  let count := min (stop - start) (length - target)
  njsArrayCopyWithin junk target start count !(start < target && target < start + count)
  return .this

end NjsArray

end Njs.Arrays
