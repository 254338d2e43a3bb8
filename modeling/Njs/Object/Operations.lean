import Njs.Object.Query

/-!
# Operations on objects
-/

namespace Njs.Object

open Atom PropHash

/-- What an operation ends with: it may be left to a setter. -/
inductive Outcome (F : Type)
  | ok
  | error (e : Error)
  | call (setter : F)
  deriving DecidableEq

section Operations

variable {ν H V F : Type} [PropHash H (Property V F)] (N : Names ν) (host : Host V F)

def Obj.write (o : Obj H V) (k : UInt32) (p : Property V F) : Obj H V :=
  { o with hash := PropHash.write o.hash k p }

/-- `njs_flathsh_unique_insert` with `replace`. -/
def Obj.store (o : Obj H V) (k : UInt32) (p : Property V F) : Obj H V × Outcome F :=
  match insert true o.hash k p with
  | some hash => ({ o with hash }, .ok)
  | none => (o, .error .insertFailed)

/-- `njs_set_invalid` and `njs_value_assign` of an element of a vector. -/
def Obj.setElement (o : Obj H V) (index : ℕ) (v : Option V) : Obj H V :=
  match o.kind with
  | .fast start => { o with kind := .fast (start.set index v) }
  | _ => o

/-! ### Deletion -/

def njsValuePropertyDelete (thrw : Bool) (k : UInt32) (o : Obj H V) : Obj H V × Outcome F :=
  match njsObjectPropertyQuery N host .delete true k o [] with
  | .error e => (o, .error e)
  | .ok (o, _, answer) =>
    match answer.found with
    | none => (o, .ok)
    | some (.ref index _) => (o.setElement index none, .ok)
    | some (.scratch p) =>
      if p.configurable then (o, .ok)
      else if thrw then (o, .error (.cannotDelete k))
      else (o, .ok)
    | some (.prop p) =>
      if p.configurable then (o.write k { p with slot := .whiteout }, .ok)
      else if thrw then (o, .error (.cannotDelete k))
      else (o, .ok)

/-! ### The length of an array -/

/-- `njs_array_indices` of a slow array: its keys that read as numbers, in their order. -/
def njsArrayIndices (o : Obj H V) : List (ν × UInt32) :=
  let keys := (keys o.hash).filter fun k => (find o.hash k).any fun p => !p.isWhiteout
  (keys.filterMap fun k => (N.stringToIndex k).map (·, k)).mergeSort fun a b => N.le a.1 b.1

/-- The loop of `njs_array_length_set` over the indices, the last first. -/
def deleteLoop (length : ℕ) : List (ν × UInt32) → Obj H V → Obj H V × Outcome F
  | [], o => (o, .ok)
  | (num, k) :: indices, o =>
    if N.le (N.ofUint32 length) num then
      match njsValuePropertyDelete N host true k o with
      | (o, .error e) => (o, .error e)
      | (o, _) => deleteLoop length indices o
    else deleteLoop length indices o

/-- `njs_array_length_set`; `prev` is the property called `length`, and `writable` whether it
may be written. -/
def njsArrayLengthSet (prev : Slot V F) (writable : Bool) (setval : V) (o : Obj H V) :
    Obj H V × Outcome F :=
  match host.toUint32 setval with
  | .error e => (o, .error e)
  | .ok length =>
    let (o, outcome) :=
      if length < prev.arrayLength host 0 then
        deleteLoop N host length (njsArrayIndices N o).reverse o
      else (o, .ok)
    match outcome with
    | .error e => (o, .error e)
    | _ =>
      match njsArrayLengthRedefine N host length writable o with
      | .ok o => (o, .ok)
      | .error e => (o, .error e)

/-- `njs_array_length` of an array that its property is set of. -/
def njsArrayLength (setval : V) (o : Obj H V) : Obj H V × Outcome F :=
  match host.toUint32 setval with
  | .error e => (o, .error e)
  | .ok length =>
    let redefine (o : Obj H V) : Obj H V × Outcome F :=
      match njsArrayLengthRedefine N host length true o with
      | .ok o => (o, .ok)
      | .error e => (o, .error e)
    match o.kind with
    | .fast start =>
      if length ≤ njsArrayLargeObjectLength then
        let start := start.take length ++ List.replicate (length - start.length) none
        ({ o with kind := .fast start }, .ok)
      else
        match njsArrayConvertToSlowArray o with
        | .ok o => redefine o
        | .error e => (o, .error e)
    | _ => redefine o

/-- A handler that is called to set a property of an object; it may decline. The handlers of
functions find the function that the object is or inherits the property from. -/
def Handler.assign (h : Handler) (k : UInt32) (setval : V) (o : Obj H V) :
    Option (Obj H V × Outcome F) :=
  match h with
  | .arrayLength => if o.kind.isArray then some (njsArrayLength N host setval o) else none
  | .functionPrototype => some (o.store k ⟨.value setval, false, false, true⟩)
  | .objectConstructor => some (o.store k ⟨.value setval, false, true, true⟩)
  | .stringLength | .functionLength | .functionName | .objectPrototype | .proto |
    .primitiveProto => some (o, .ok)

/-! ### Assignment -/

/-- The end of `njs_value_property_set`: the property is a new one. -/
def addProperty (k : UInt32) (whiteout : Bool) (setval : V) (o : Obj H V) : Obj H V × Outcome F :=
  if o.extensible = false then (o, .error (.notExtensible k))
  else
    -- A deleted property is deleted from the table, to get the latest place in it.
    match
      if whiteout then addElt (delete o.hash k) k (ecw setval)
      else insert false o.hash k (ecw setval)
    with
    | some hash => ({ o with hash }, .ok)
    | none => (o, .error .insertFailed)

/-- `njs_value_property_set` of a property that has been found in a table. -/
def setFound (k : UInt32) (p : Property V F) (own whiteout : Bool) (setval : V) (o : Obj H V) :
    Obj H V × Outcome F :=
  match p.slot with
  | .value v =>
    if p.writable = false then (o, .error (.readOnly k))
    else if own then
      if o.kind.isArray ∧ k = N.length then
        njsArrayLengthSet N host (.value v) p.writable setval o
      else (o.write k { p with slot := .value setval }, .ok)
    else addProperty k whiteout setval o
  | .handler h =>
    if p.writable = false then (o, .error (.readOnly k))
    else
      match h.assign N host k setval o with
      | some r => r
      | none => if own then (o, .error .unexpectedType) else addProperty k whiteout setval o
  | .accessor _ (some setter) => (o, .call setter)
  | .accessor _ none => (o, .error (.onlyGetter k))
  | .whiteout => (o, .error (.onlyGetter k))

/-- The slow path of `njs_value_property_set`. -/
def setSlow (k : UInt32) (setval : V) (o : Obj H V) (protos : List (Obj H V)) :
    (Obj H V × Outcome F) × List (Obj H V) :=
  match njsObjectPropertyQuery N host .set false k o protos with
  | .error e => ((o, .error e), protos)
  | .ok (o, protos, answer) =>
    match answer.found with
    | some (.prop p) | some (.scratch p) =>
      (setFound N host k p answer.own answer.whiteout setval o, protos)
    | some (.ref index _) =>
      if answer.own then ((o.setElement index (some setval), .ok), protos)
      else (addProperty k answer.whiteout setval o, protos)
    | none => (addProperty k answer.whiteout setval o, protos)

def njsValuePropertySet (k : UInt32) (setval : V) (o : Obj H V) (protos : List (Obj H V)) :
    (Obj H V × Outcome F) × List (Obj H V) :=
  match o.kind with
  | .fast start =>
    if njsAtomIsNumber k.toNat ∧ njsAtomNumber k.toNat < start.length then
      ((o.setElement (njsAtomNumber k.toNat) (some setval), .ok), protos)
    else setSlow N host k setval o protos
  | _ => setSlow N host k setval o protos

/-- `njs_vmcode_property_init` of an object. -/
def njsVmcodePropertyInit (k : UInt32) (init : V) (o : Obj H V) : Obj H V × Outcome F :=
  o.store k (ecw init)

/-! ### Definition -/

/-- The types of `njs_object_prop_define` that scripts lead to. -/
inductive DefineType (V F : Type)
  /-- `NJS_OBJECT_PROP_DESCRIPTOR`. -/
  | descriptor (desc : Descriptor V)
  /-- `NJS_OBJECT_PROP_GETTER`. -/
  | getter (f : F)
  /-- `NJS_OBJECT_PROP_SETTER`. -/
  | setter (f : F)

/-- What is to be defined. -/
def DefineType.definition : DefineType V F → Except Error (Definition V F)
  | .descriptor desc => njsDescriptorProp host desc
  | .getter f => pure ⟨.accessor (some (some f)) none, none, some true, some true⟩
  | .setter f => pure ⟨.accessor none (some (some f)), none, some true, some true⟩

/-- `njs_is_accessor_descriptor`. -/
def Definition.isAccessor (d : Definition V F) : Bool :=
  match d.given with
  | .accessor _ _ => true
  | .data _ => false

/-- `set_writable || njs_is_data_descriptor(prop)`. -/
def Definition.isData (d : Definition V F) : Bool :=
  match d.given with
  | .accessor _ _ => d.writable.isSome
  | .data v => d.writable.isSome || v.isSome

/-- `CompletePropertyDescriptor`. -/
def Definition.complete (d : Definition V F) : Property V F where
  slot :=
    match d.given with
    | .accessor getter setter => .accessor getter.join setter.join
    | .data v => .value (v.getD host.undefined)
  enumerable := d.enumerable.getD false
  configurable := d.configurable.getD false
  writable := d.writable.getD false

/-- `set_prop`: the property is a new one, or one that has been deleted. -/
def defineNew (k : UInt32) (whiteout : Bool) (d : Definition V F) (o : Obj H V) :
    Obj H V × Outcome F :=
  if o.extensible = false then (o, .error (.notExtensible k))
  else if whiteout then (o.write k (d.complete host), .ok)
  else
    match insert false o.hash k (d.complete host) with
    | some hash => ({ o with hash }, .ok)
    | none => (o, .error .insertFailed)

def Definition.setFlags (d : Definition V F) (p : Property V F) : Property V F :=
  { p with
    writable := d.writable.getD p.writable
    enumerable := d.enumerable.getD p.enumerable
    configurable := d.configurable.getD p.configurable }

/-- `!njs_values_same`, for the value of a definition and that of a property without handler. -/
def changesValue (d : Definition V F) (prev : Slot V F) : Bool :=
  match prev, d.given with
  | .value v, .data (some v') => !host.same v' v
  | _, _ => false

/-- `ValidateAndApplyPropertyDescriptor` up to `done`: the property, converted if need be, and the
definition; there is none if the definition is to be rejected. -/
def validate [DecidableEq F] (d : Definition V F) (prev : Property V F) :
    Option (Property V F × Definition V F) :=
  if prev.configurable = false ∧
      (d.configurable = some true ∨ d.enumerable.any (· ≠ prev.enumerable)) then none
  else if d.isData = false ∧ d.isAccessor = false then some (prev, d)
  else if prev.isData ≠ d.isData then
    if prev.configurable = false then none
    else if prev.isData then
      some ({ prev with slot := .accessor none none }, { d with writable := none })
    else some ({ prev with slot := .value host.undefined, writable := false }, d)
  else if prev.isData then
    if prev.configurable = false ∧ prev.writable = false ∧
        (d.writable = some true ∨ changesValue host d prev.slot) then none
    else some (prev, d)
  else
    match prev.slot, d.given with
    | .accessor getter setter, .accessor getter' setter' =>
      if prev.configurable = false ∧ (getter'.any (· ≠ getter) ∨ setter'.any (· ≠ setter)) then none
      else some (prev, d)
    | _, _ => some (prev, d)

/-- What a definition leaves, or the object that it is to be made of again. -/
inductive Defined (H V F : Type)
  | done (r : Obj H V × Outcome F)
  | again (o : Obj H V)

/-- An array gets slow, with its length. -/
def slowAgain (o : Obj H V) : Defined H V F :=
  match o.kind with
  | .fast start =>
    match njsArrayConvertToSlowArray o with
    | .ok o =>
      match njsArrayLengthRedefine N host start.length true o with
      | .ok o => .again o
      | .error e => .done (o, .error e)
    | .error e => .done (o, .error e)
  | _ => .again o

/-- The end of `njs_object_prop_define`, after `done`, for a property in the table: what it holds
is set, and then its flags. -/
def applyDefinition (k : UInt32) (prev : Property V F) (d : Definition V F) (o : Obj H V) :
    Obj H V × Outcome F :=
  match d.given, prev.slot with
  | .accessor getter' setter', .accessor getter setter =>
    (o.write k (d.setFlags
      { prev with slot := .accessor (getter'.getD getter) (setter'.getD setter) }), .ok)
  | .accessor getter' setter', _ =>
    (o.write k (d.setFlags { prev with slot := .accessor getter'.join setter'.join }), .ok)
  | .data none, _ => (o.write k (d.setFlags prev), .ok)
  | .data (some v), .handler h =>
    if prev.writable then
      match h.assign N host k v o with
      | some (o, .ok) =>
        match find o.hash k with
        | some p => (o.write k (d.setFlags p), .ok)
        | none => (o, .ok)
      | some r => r
      | none => defineNew host k false d o
    else (o.write k (d.setFlags { prev with slot := .value v }), .ok)
  | .data (some v'), .value v =>
    if o.kind.isArray ∧ k = N.length then
      if prev.configurable = false ∧ prev.writable = false ∧ host.strictEqual v v' = false then
        (o, .error (.cannotRedefine k))
      else
        let writable := d.writable.getD prev.writable
        njsArrayLengthSet N host (.value v) writable v' (o.write k { prev with writable })
    else (o.write k (d.setFlags { prev with slot := .value v' }), .ok)
  | .data (some v), _ => (o.write k (d.setFlags { prev with slot := .value v }), .ok)

/-- `njs_object_prop_define`, until it is done or starts again. -/
def defineOnce [DecidableEq F] (k : UInt32) (type : DefineType V F) (o : Obj H V) : Defined H V F :=
  match njsObjectPropertyQuery N host .set true k o [] with
  | .error e => .done (o, .error e)
  | .ok (o, _, answer) =>
    match type.definition host with
    | .error e => .done (o, .error e)
    | .ok d =>
      match answer.found with
      | none => .done (defineNew host k answer.whiteout d o)
      | some (.ref index placed) =>
        if placed = false ∧ d.isAccessor = false ∧ d.configurable ≠ some false ∧
            d.enumerable ≠ some false ∧ d.writable ≠ some false then
          match d.given with
          | .data (some v) => .done (o.setElement index (some v), .ok)
          | _ => .done (o, .ok)
        else slowAgain N host o
      | some (.scratch p) =>
        -- What is written into the scratch property is lost.
        match validate host d p with
        | none => .done (o, .error (.cannotRedefine k))
        | some _ => .done (o, .ok)
      | some (.prop p) =>
        match validate host d p with
        | none => .done (o, .error (.cannotRedefine k))
        | some (prev, d) =>
          match o.kind with
          | .fast _ =>
            if k = N.length ∧ d.writable = some false then slowAgain N host o
            else .done (applyDefinition N host k prev d o)
          | _ => .done (applyDefinition N host k prev d o)

/-- `njs_object_prop_define`. It starts again at most once: the array is slow then. -/
def njsObjectPropDefine [DecidableEq F] (k : UInt32) (type : DefineType V F) (o : Obj H V) :
    Obj H V × Outcome F :=
  match defineOnce N host k type o with
  | .done r => r
  | .again o =>
    match defineOnce N host k type o with
    | .done r => r
    | .again o => (o, .ok)

end Operations

end Njs.Object

/-!
## Enumeration

The keys that `Object.keys`, `Object.values`, `Object.entries` and `for-in` list, and the values.
-/

namespace Njs.Object

open Atom PropHash

/-- A sort, such as `njs_qsort`: nothing is said of elements that the comparison does not tell
apart. -/
structure Sorter (α : Type) where
  sort : (α → α → Bool) → List α → List α
  perm (le : α → α → Bool) (l : List α) : (sort le l).Perm l
  pairwise {le : α → α → Bool} (htrans : ∀ a b c, le a b = true → le b c = true → le a c = true)
    (htotal : ∀ a b, (le a b || le b a) = true) (l : List α) : (sort le l).Pairwise (le · ·)

def Sorter.insertion {α : Type} : Sorter α where
  sort le l := l.insertionSort fun a b => le a b = true
  perm le l := List.perm_insertionSort _ l
  pairwise {le} htrans htotal l := by
    have : Std.Total fun a b => le a b = true := ⟨fun a b => Bool.or_eq_true_iff.mp (htotal a b)⟩
    have : IsTrans α fun a b => le a b = true := ⟨htrans⟩
    exact List.pairwise_insertionSort (fun a b => le a b = true) l

/-- The flags of an enumeration. -/
structure EnumFlags where
  string : Bool
  symbol : Bool
  enumerableOnly : Bool
  nonSharedOnly : Bool

/-- What a property reads as. -/
inductive Read (V F : Type)
  | value (v : V)
  | call (getter : F)
  | handler (h : Handler)
  | undefined
  /-- `NJS_DECLINED`. -/
  | declined
  | error (e : Error)
  deriving DecidableEq

/-- `njs_value_property`, of the property that the query has found. -/
def Property.read {V F : Type} (p : Property V F) : Read V F :=
  match p.slot with
  | .value v => .value v
  | .accessor (some getter) _ => .call getter
  | .accessor none _ => .undefined
  | .handler h => .handler h
  | .whiteout => .undefined

section Enumerate

variable {ν H V F : Type} [PropHash H (Property V F)] (N : Names ν) (host : Host V F)

def njsValueProperty (k : UInt32) (o : Obj H V) (protos : List (Obj H V)) :
    Obj H V × List (Obj H V) × Read V F :=
  match njsObjectPropertyQuery N host .get false k o protos with
  | .error e => (o, protos, .error e)
  | .ok (o, protos, answer) =>
    match answer.found with
    | some (.prop p) | some (.scratch p) => (o, protos, p.read)
    | some (.ref _ _) => (o, protos, .undefined)
    | none => (o, protos, .declined)

/-! ### The keys -/

def njsIsEnumerable (flags : EnumFlags) (k : UInt32) : Bool :=
  if (N.text k).isSome then flags.string else flags.symbol

/-- `njs_object_exist_in_proto`: one of the objects before another has the property. -/
def njsObjectExistInProto (before : List (Obj H V)) (k : UInt32) : Bool :=
  before.any fun o =>
    match find o.hash k with
    | some p => !p.isWhiteout
    | none => (find o.sharedHash k).isSome

/-- A key of the shared table is listed with the private property in mind. -/
def sharedListed (flags : EnumFlags) (before : List (Obj H V)) (o : Obj H V) (k : UInt32) : Bool :=
  njsIsEnumerable N flags k && !njsObjectExistInProto before k &&
    match find o.hash k with
    | none => (find o.sharedHash k).any fun p => p.enumerable || !flags.enumerableOnly
    | some p =>
      (p.enumerable || !flags.enumerableOnly) && (N.listedIndex k).isNone && !p.isWhiteout

/-- A key of the private table is listed unless it has been with the shared ones. -/
def localListed (flags : EnumFlags) (before : List (Obj H V)) (o : Obj H V) (k : UInt32) : Bool :=
  njsIsEnumerable N flags k &&
    ((find o.hash k).any fun p => (p.enumerable || !flags.enumerableOnly) && !p.isWhiteout) &&
    !njsObjectExistInProto before k &&
    ((N.listedIndex k).isSome || (find o.sharedHash k).isNone)

/-- `njs_array_indices_handler_nums`, for keys that are integer indices. -/
def Names.indexLe (a b : UInt32) : Bool := (N.listedIndex a).getD 0 ≤ (N.listedIndex b).getD 0

theorem Names.indexLe_trans (a b c : UInt32) (hab : N.indexLe a b = true)
    (hbc : N.indexLe b c = true) : N.indexLe a c = true := by
  simp only [Names.indexLe, decide_eq_true_eq] at *
  omega

theorem Names.indexLe_total (a b : UInt32) : (N.indexLe a b || N.indexLe b a) = true := by
  simp only [Names.indexLe, Bool.or_eq_true, decide_eq_true_eq]
  omega

def njsGetOwnOrderedKeys (qsort : Sorter UInt32) (flags : EnumFlags) (before : List (Obj H V))
    (o : Obj H V) : List UInt32 :=
  let shared :=
    if flags.nonSharedOnly then []
    else (keys o.sharedHash).filter (sharedListed N flags before o)
  let listed := shared ++ (keys o.hash).filter (localListed N flags before o)
  let isSymbol (k : UInt32) : Bool := flags.symbol && (N.text k).isNone
  qsort.sort N.indexLe (listed.filter fun k => (N.listedIndex k).isSome) ++
    (listed.filter fun k => (N.listedIndex k).isNone && !isSymbol k) ++
    listed.filter fun k => (N.listedIndex k).isNone && isSymbol k

/-! ### The lists -/

/-- `NJS_ENUM_STRING | NJS_ENUM_ENUMERABLE_ONLY`. -/
def enumerableStrings : EnumFlags := ⟨true, false, true, false⟩

/-- The string of a key. -/
def Names.name (k : UInt32) : Bytes := (N.text k).getD []

/-- `njs_object_enumerate_array` and `njs_object_enumerate_string`: the elements' keys. -/
def elementNames (o : Obj H V) : List Bytes :=
  match o.kind with
  | .fast start =>
    ((List.range start.length).filter fun i => start[i]?.join.isSome).map decimal
  | .string chars => (List.range chars.length).map decimal
  | _ => []

/-- `njs_object_own_enumerate_value` of keys, `before` being the objects that inherit. -/
def ownNames (qsort : Sorter UInt32) (before : List (Obj H V)) (o : Obj H V) : List Bytes :=
  elementNames o ++ (njsGetOwnOrderedKeys N qsort enumerableStrings before o).map N.name

def njsObjectKeys (qsort : Sorter UInt32) (o : Obj H V) : List Bytes := ownNames N qsort [] o

/-- The loop of `njs_object_enumerate_object`. -/
def foreachLoop (qsort : Sorter UInt32) (before : List (Obj H V)) : List (Obj H V) → List Bytes
  | [] => []
  | o :: protos => ownNames N qsort before o ++ foreachLoop qsort (before ++ [o]) protos

/-- `njs_vmcode_property_foreach`: what `for-in` goes through. -/
def njsPropertyForeach (qsort : Sorter UInt32) (o : Obj H V) (protos : List (Obj H V)) :
    List Bytes :=
  foreachLoop N qsort [] (o :: protos)

/-- The value of a property; `call` is what a getter returns and `handle` what a handler does. -/
def Read.eval (call : F → Except Error V) (handle : Handler → V) : Read V F → Except Error V
  | .value v => pure v
  | .call getter => call getter
  | .handler h => pure (handle h)
  | .undefined => pure host.undefined
  | .declined => throw .thrown
  | .error e => throw e

/-- The loop of `njs_object_own_enumerate_object` over the keys, for the values. -/
def valuesLoop (call : F → Except Error V) (handle : Handler → V) :
    List UInt32 → Obj H V → List (Obj H V) → Except Error (List V)
  | [], _, _ => pure []
  | k :: ks, o, protos => do
    let (o, protos, r) := njsValueProperty N host k o protos
    let v ← r.eval host call handle
    let vs ← valuesLoop call handle ks o protos
    pure (v :: vs)

/-- `njs_object_values` of an object that has no elements. -/
def njsObjectValues (qsort : Sorter UInt32) (call : F → Except Error V) (handle : Handler → V)
    (o : Obj H V) (protos : List (Obj H V)) : Except Error (List V) :=
  valuesLoop N host call handle (njsGetOwnOrderedKeys N qsort enumerableStrings [] o) o protos

/-- `njs_object_entries` of an object that has no elements. -/
def njsObjectEntries (qsort : Sorter UInt32) (call : F → Except Error V) (handle : Handler → V)
    (o : Obj H V) (protos : List (Obj H V)) : Except Error (List (Bytes × V)) := do
  let ks := njsGetOwnOrderedKeys N qsort enumerableStrings [] o
  let vs ← valuesLoop N host call handle ks o protos
  pure ((ks.map N.name).zip vs)

end Enumerate

end Njs.Object
