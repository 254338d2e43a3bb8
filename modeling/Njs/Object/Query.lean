import Njs.Object.Property

/-!
# The query

`njs_object_property_query` looks for a property in an object and in the objects that it inherits
from. To prepare a write it lengthens vectors, turns arrays that are too long for a vector into
slow ones, and copies shared properties. An object comes with the list of the objects that it
inherits from, the nearest first.
-/

namespace Njs.Object

open Atom PropHash

/-- `njs_prop_query_t`. -/
inductive Mode
  | get
  | set
  | delete
  deriving DecidableEq

/-- `pq->fhq.value` of a property that has been found. -/
inductive Found (V F : Type)
  /-- An element of the table of the object. -/
  | prop (p : Property V F)
  /-- `pq->scratch` with a value that cannot be written. -/
  | scratch (p : Property V F)
  /-- `NJS_PROPERTY_REF` or, if the vector has been made longer, `NJS_PROPERTY_PLACE_REF`. -/
  | ref (index : ℕ) (placed : Bool)
  deriving DecidableEq

/-- What one round finds: a property; that the loop is to end; or nothing, and whether there is
a deleted property. -/
inductive Level (V F : Type)
  | found (f : Found V F)
  | done
  | declined (whiteout : Bool)
  deriving DecidableEq

/-- What the query finds, with `pq->own` and whether `pq->own_whiteout` is set. -/
structure Answer (V F : Type) where
  found : Option (Found V F)
  own : Bool
  whiteout : Bool
  deriving DecidableEq

/-- `NJS_ARRAY_LARGE_OBJECT_LENGTH`. -/
def njsArrayLargeObjectLength : ℕ := 32768

section Query

variable {ν H V F : Type} [PropHash H (Property V F)] (N : Names ν) (host : Host V F)

/-- `njs_prop_private_copy`, of what the property holds. -/
def njsPropPrivateCopy (k : UInt32) : Slot V F → Slot V F
  | .value v => .value (host.copyValue k v)
  | .accessor none setter => .accessor none (setter.map host.copyFunction)
  | .accessor (some getter) setter =>
    let getter := host.copyFunction getter
    if setter.any (host.sameNative getter) then .accessor (some getter) (some getter)
    else .accessor (some getter) (setter.map host.copyFunction)
  | .handler h => .handler h
  | .whiteout => .whiteout

/-- The search in the two tables of an object. -/
def hashQuery (k : UInt32) (o : Obj H V) : Except Error (Obj H V × Level V F) :=
  match find o.hash k with
  | some p =>
    if p.isWhiteout then .ok (o, .declined true) else .ok (o, .found (.prop p))
  | none =>
    match find o.sharedHash k with
    | some shared =>
      let p := { shared with slot := njsPropPrivateCopy host k shared.slot }
      match insert false o.hash k p with
      | some hash => .ok ({ o with hash }, .found (.prop p))
      | none => .error .insertFailed
    | none => .ok (o, .declined false)

/-! ### Arrays -/

/-- The atom of an index in `njs_array_convert_to_slow_array`. -/
def indexAtom (i : ℕ) : UInt32 := UInt32.ofNat (njsNumberAtom i)

/-- The loop of `njs_array_convert_to_slow_array` from the `i`-th element on. -/
def slowLoop (h : H) : ℕ → List (Option V) → Option H
  | _, [] => some h
  | i, none :: start => slowLoop h (i + 1) start
  | i, some v :: start =>
    match insert false h (indexAtom i) (ecw v) with
    | some h => slowLoop h (i + 1) start
    | none => none

def njsArrayConvertToSlowArray (o : Obj H V) : Except Error (Obj H V) :=
  match o.kind with
  | .fast start =>
    match slowLoop o.hash 0 start with
    | some hash => .ok { o with kind := .slow start.length, hash }
    | none => .error .insertFailed
  | _ => .ok o

def njsArrayLengthRedefine (length : ℕ) (writable : Bool) (o : Obj H V) : Except Error (Obj H V) :=
  match insert true o.hash N.length ⟨.value (host.ofNat length), false, false, writable⟩ with
  | some hash => .ok { o with hash }
  | none => .error .insertFailed

/-- What a property of an array that is called `length` reads as. -/
def Slot.arrayLength (length : ℕ) : Slot V F → ℕ
  | .value v => host.toLength v
  | .handler _ => length
  | _ => 0

/-- `njs_object_length` of an array. -/
def njsObjectLength (o : Obj H V) : Except Error (Obj H V × ℕ) :=
  match o.kind with
  | .fast start => .ok (o, start.length)
  | .slow length =>
    match hashQuery host N.length o with
    | .ok (o, .found (.prop p)) => .ok (o, p.slot.arrayLength host length)
    | .ok (o, _) => .ok (o, 0)
    | .error e => .error e
  | _ => .ok (o, 0)

/-- `njs_array_property_query` of a slow array that a property is to be written to. -/
def slowArrayQuery (index : ℕ) (k : UInt32) (o : Obj H V) : Except Error (Obj H V × Level V F) := do
  let (o, length) ← njsObjectLength N host o
  let o ←
    if index + 1 > length then njsArrayLengthRedefine N host (index + 1) true o else pure o
  match find o.hash k with
  | some p =>
    if p.isWhiteout then pure (o, .declined true) else pure (o, .found (.prop p))
  | none => pure (o, .done)

def njsArrayPropertyQuery (mode : Mode) (index : ℕ) (k : UInt32) (o : Obj H V) :
    Except Error (Obj H V × Level V F) :=
  match mode, o.kind with
  | .set, .fast start =>
    if o.extensible = false then pure (o, .declined false)
    else if index < njsArrayLargeObjectLength then
      if start.length ≤ index then
        let start := start ++ List.replicate (index + 1 - start.length) none
        pure ({ o with kind := .fast start }, .found (.ref index true))
      else pure (o, .found (.ref index false))
    else do
      let o ← njsArrayConvertToSlowArray o
      slowArrayQuery N host index k o
  | .set, _ =>
    if o.extensible = false then pure (o, .declined false) else slowArrayQuery N host index k o
  | .get, .fast start =>
    match start[index]? with
    | some (some v) => pure (o, .found (.scratch (ecw v)))
    | _ => pure (o, .declined false)
  | .delete, .fast start =>
    if index < start.length then pure (o, .found (.ref index false))
    else pure (o, .declined false)
  | _, _ => pure (o, .declined false)

/-! ### The loop -/

def njsStringPropertyQuery (chars : List V) (k : UInt32) : Option (Property V F) :=
  if njsAtomIsNumber k.toNat then
    chars[njsAtomNumber k.toNat]?.map fun v => ⟨.value v, true, false, false⟩
  else none

/-- What the switch on the type of an object finds. An index that is no atom of a number is tried
after the atoms; what an atom of a number has been declined for is declined again. -/
def kindQuery (mode : Mode) (k : UInt32) (o : Obj H V) : Except Error (Obj H V × Level V F) :=
  match o.kind with
  | .fast _ | .slow _ =>
    match N.arrayIndex k with
    | some index => njsArrayPropertyQuery N host mode index k o
    | none => pure (o, .declined false)
  | .string chars =>
    match njsStringPropertyQuery chars k with
    | some p => pure (o, .found (.scratch p))
    | none => pure (o, .declined false)
  | _ => pure (o, .declined false)

/-- A round of the loop. -/
def levelQuery (mode : Mode) (k : UInt32) (o : Obj H V) : Except Error (Obj H V × Level V F) := do
  let (o, level) ← kindQuery N host mode k o
  match level with
  | .declined _ => hashQuery host k o
  | level => pure (o, level)

/-- The rounds for the objects that are inherited from. -/
def protoQuery (mode : Mode) (k : UInt32) :
    List (Obj H V) → Except Error (List (Obj H V) × Option (Found V F))
  | [] => pure ([], none)
  | o :: protos => do
    let (o, level) ← levelQuery N host mode k o
    match level with
    | .found f => pure (o :: protos, some f)
    | .done => pure (o :: protos, none)
    | .declined _ =>
      let (protos, f) ← protoQuery mode k protos
      pure (o :: protos, f)

def njsObjectPropertyQuery (mode : Mode) (own : Bool) (k : UInt32) (o : Obj H V)
    (protos : List (Obj H V)) : Except Error (Obj H V × List (Obj H V) × Answer V F) := do
  let (o, level) ← levelQuery N host mode k o
  match level with
  | .found f => pure (o, protos, ⟨some f, true, false⟩)
  | .done => pure (o, protos, ⟨none, true, false⟩)
  | .declined whiteout =>
    if own then pure (o, protos, ⟨none, true, whiteout⟩)
    else
      let (protos, f) ← protoQuery N host mode k protos
      pure (o, protos, ⟨f, false, whiteout⟩)

end Query

end Njs.Object
