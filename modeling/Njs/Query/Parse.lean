import Mathlib.Data.List.AList
import Njs.Query.Codec

/-!
# Query strings

The module is written once for each engine. A string is split at the separators, and each part adds
a value to an object.
-/

namespace Njs.Query

open Text

/-! ### The object -/

/-- A value of a property. Functions and other objects have a name. -/
inductive PropValue
  | undefined
  | string (s : Bytes)
  | array (values : List PropValue)
  | other (name : Bytes)

/-- The properties of `Object.prototype`, apart from `__proto__`, and of `Array.prototype`. -/
structure Realm where
  object : Bytes → Option PropValue
  array : Bytes → Option PropValue
  object_ne_string : ∀ name s, object name ≠ some (.string s)

/-- `"__proto__"`. -/
def protoName : Bytes := lit "__proto__"

/-- The object that is built: its own properties, the array that has been assigned to `__proto__`
and the properties that it inherits from built-in prototypes. -/
structure Obj where
  own : AList fun _ : Bytes => PropValue
  proto : Option (List PropValue)
  inherited : Bytes → Option PropValue

namespace Obj

def new (realm : Realm) : Obj := ⟨∅, none, realm.object⟩

/-- An element of the array that has been assigned to `__proto__`, or its length. -/
def protoElement (values : List PropValue) (name : Bytes) : Option PropValue :=
  if name = lit "length" then some (.other (lit "number"))
  else (values.zipIdx.find? fun p => lit (Nat.repr p.2) = name).map Prod.fst

/-- A property that is inherited. -/
def lookup (obj : Obj) (name : Bytes) : Option PropValue :=
  match (obj.proto.bind fun values => protoElement values name) with
  | some value => some value
  | none =>
    if name = protoName then
      some (match obj.proto with
        | some values => .array values
        | none => .other (lit "Object.prototype"))
    else obj.inherited name

/-- An own or inherited property. -/
def get (obj : Obj) (name : Bytes) : Option PropValue :=
  match obj.own.lookup name with
  | some value => some value
  | none => obj.lookup name

/-- A property is assigned. An assignment to `__proto__` that the object does not own sets the
prototype. -/
def set (realm : Realm) (obj : Obj) (name : Bytes) (value : PropValue) : Obj :=
  if name = protoName ∧ obj.own.lookup name = none then
    match value with
    | .array values =>
      { obj with
        proto := some values
        inherited := fun name => (realm.array name).orElse fun _ => obj.inherited name }
    | _ => obj
  else { obj with own := obj.own.insert name value }

/-- A value is added to the array that a property holds. -/
def push (obj : Obj) (name : Bytes) (values : List PropValue) (value : PropValue) : Obj :=
  let values := values ++ [value]
  if obj.own.lookup name = none then
    if name = protoName then { obj with proto := some values }
    else { obj with inherited := Function.update obj.inherited name (some (.array values)) }
  else { obj with own := obj.own.insert name (.array values) }

end Obj

/-- A value is added to an object. Whether a property counts as missing if it is `undefined` depends
on the engine. -/
def append (realm : Realm) (undefinedIsMissing : Bool) (obj : Obj) (key val : Bytes) : Obj :=
  let name := njsQueryStringDecode key
  let value := PropValue.string (njsQueryStringDecode val)
  match obj.get name with
  | none => obj.set realm name value
  | some (.array values) => obj.push name values value
  | some .undefined =>
    if undefinedIsMissing then obj.set realm name value
    else obj.set realm name (.array [.undefined, value])
  | some prev => obj.set realm name (.array [prev, value])

def njsQueryStringAppend (realm : Realm) : Obj → Bytes → Bytes → Obj := append realm false

def qjsQueryStringAppend (realm : Realm) : Obj → Bytes → Bytes → Obj := append realm true

/-! ### The parser -/

/-- `njs_query_string_match` and `qjs_query_string_match`: the bytes before a separator, or all. -/
def separatorMatch (v : Bytes) : Bytes → ℕ
  | [] => 0
  | c :: p => if v.isPrefixOf (c :: p) then 0 else separatorMatch v p + 1

/-- `njs_query_string_parser` and `qjs_query_string_parser`, which count with `width` bits. A pass
takes at least a separator. -/
def parser (append : Obj → Bytes → Bytes → Obj) (width : ℕ) (sep eq : Bytes) (maxKeys : ℕ) :
    ℕ → ℕ → Bytes → Obj → Obj
  | 0, _, _, obj => obj
  | passes + 1, count, key, obj =>
    if key = [] then obj
    else if count = maxKeys then obj
    else
      let part := separatorMatch sep key
      let obj :=
        if part = 0 then obj
        else
          let val := separatorMatch eq (key.take part)
          let value := if val ≠ part then (key.take part).drop (val + eq.length) else []
          append obj (key.take val) value
      parser append width sep eq maxKeys passes ((count + 1) % 2 ^ width)
        (key.drop (part + sep.length)) obj

/-- `sep` or `eq`, which is the default if it is omitted or empty. -/
def separator (default : UInt8) : Option Bytes → Bytes
  | none => [default]
  | some s => if s = [] then [default] else s

/-- `INT64_MAX`. -/
def int64Max : ℤ := 2 ^ 63 - 1

/-- `max_keys` of `njs_query_string_parse`, as an `njs_uint_t`. -/
def njsMaxKeys : Option ℤ → ℕ
  | none => 1000
  | some maxKeys => ((if maxKeys = 0 then int64Max else maxKeys) % 2 ^ 64).toNat

/-- `max_keys` of `qjs_query_string_parse`, as an `unsigned`. -/
def qjsMaxKeys : Option ℤ → ℕ
  | none => 1000
  | some maxKeys => ((if maxKeys < 0 then int64Max else maxKeys) % 2 ^ 32).toNat

/-- `njs_query_string_parse`, with the default decoder. -/
def njsQueryStringParse (realm : Realm) (str : Bytes) (sep eq : Option Bytes)
    (maxKeys : Option ℤ) : Obj :=
  parser (njsQueryStringAppend realm) 64 (separator (chr '&') sep) (separator (chr '=') eq)
    (njsMaxKeys maxKeys) str.length 0 str (.new realm)

/-- `qjs_query_string_parse`, with the default decoder. -/
def qjsQueryStringParse (realm : Realm) (str : Bytes) (sep eq : Option Bytes)
    (maxKeys : Option ℤ) : Obj :=
  parser (qjsQueryStringAppend realm) 32 (separator (chr '&') sep) (separator (chr '=') eq)
    (qjsMaxKeys maxKeys) str.length 0 str (.new realm)

end Njs.Query

/-!
## `querystring.stringify`
-/

namespace Njs.Query

open Text

/-- A value that is no array. A finite number is given by its text. -/
inductive Scalar
  | string (s : Bytes)
  | number (text : Bytes)
  | nan
  | infinity (negative : Bool)
  | boolean (b : Bool)
  | other
  deriving DecidableEq

/-- A value of a property. -/
inductive Item
  | scalar (value : Scalar)
  | array (values : List Scalar)
  deriving DecidableEq

/-- A value as a string. -/
def Scalar.toText : Scalar → Bytes
  | string s => s
  | number text => text
  | nan => lit "NaN"
  | infinity negative => if negative then lit "-Infinity" else lit "Infinity"
  | boolean b => if b then lit "true" else lit "false"
  | other => []

/-- The values that `njs_query_string_push` prints: valid numbers, booleans and strings. -/
def njsPrinted : Scalar → Bool
  | .string _ | .number _ | .boolean _ => true
  | .nan | .infinity _ | .other => false

/-- The values that `qjs_query_string_push` prints: numbers, booleans and strings. -/
def qjsPrinted : Scalar → Bool
  | .string _ | .number _ | .nan | .infinity _ | .boolean _ => true
  | .other => false

section Writing

variable (printed : Scalar → Bool) (sep eq : Bytes)

/-- `njs_query_string_push` and `qjs_query_string_push`, with the default encoder. -/
def push (chain key : Bytes) (value : Scalar) : Bytes :=
  let chain := chain ++ njsQueryStringEncode key ++ eq
  if printed value then chain ++ njsQueryStringEncode value.toText else chain

/-- The elements of an array. A separator is put if something has been written. -/
def pushArray (key : Bytes) (values : List Scalar) (chain : Bytes) : Bytes :=
  values.foldl
    (fun chain value => push printed eq (if chain ≠ [] then chain ++ sep else chain) key value)
    chain

/-- The property with number `n`. -/
def pushItem (chain : Bytes) : (Bytes × Item) × ℕ → Bytes
  | ((key, .array values), _) => pushArray printed sep eq key values chain
  | ((key, .scalar value), n) => push printed eq (if n ≠ 0 then chain ++ sep else chain) key value

/-- The properties in the order in which they are enumerated. -/
def stringify (object : List (Bytes × Item)) : Bytes :=
  object.zipIdx.foldl (pushItem printed sep eq) []

end Writing

/-- `njs_query_string_stringify`, with the default encoder. -/
def njsQueryStringStringify (object : List (Bytes × Item)) (sep eq : Option Bytes) : Bytes :=
  stringify njsPrinted (separator (chr '&') sep) (separator (chr '=') eq) object

/-- `qjs_query_string_stringify_internal`, with the default encoder. -/
def qjsQueryStringStringify (object : List (Bytes × Item)) (sep eq : Option Bytes) : Bytes :=
  stringify qjsPrinted (separator (chr '&') sep) (separator (chr '=') eq) object

/-! ### Pairs -/

def pairsOfItem (key : Bytes) : Item → List (Bytes × Scalar)
  | .scalar value => [(key, value)]
  | .array values => values.map fun value => (key, value)

def pairsOf (object : List (Bytes × Item)) : List (Bytes × Scalar) :=
  object.flatMap fun p => pairsOfItem p.1 p.2

variable {printed : Scalar → Bool} {sep eq : Bytes}

def pairText (printed : Scalar → Bool) (eq : Bytes) (p : Bytes × Scalar) : Bytes :=
  push printed eq [] p.1 p.2

theorem push_eq (chain key : Bytes) (value : Scalar) :
    push printed eq chain key value = chain ++ pairText printed eq (key, value) := by
  rw [pairText, push, push]
  split_ifs
  · simp only [List.nil_append, List.append_assoc]
  · simp only [List.nil_append, List.append_assoc]

/-- Pairs that are written after others. -/
def addPairs (printed : Scalar → Bool) (sep eq : Bytes) (chain : Bytes)
    (pairs : List (Bytes × Scalar)) : Bytes :=
  pairs.foldl
    (fun chain p => (if chain ≠ [] then chain ++ sep else chain) ++ pairText printed eq p) chain

theorem pushArray_eq (key : Bytes) (values : List Scalar) (chain : Bytes) :
    pushArray printed sep eq key values chain =
      addPairs printed sep eq chain (values.map fun value => (key, value)) := by
  induction values generalizing chain with
  | nil => rfl
  | cons value values ih =>
    rw [pushArray, List.foldl_cons, push_eq]
    exact ih _

theorem pairText_ne_nil (heq : eq ≠ []) (p : Bytes × Scalar) : pairText printed eq p ≠ [] := by
  rw [pairText, push]
  split_ifs
  · simp [heq]
  · simp [heq]

def NoEmptyArray (object : List (Bytes × Item)) : Prop := ∀ p ∈ object, p.2 ≠ .array []

theorem stringify_eq (heq : eq ≠ []) {object : List (Bytes × Item)} (h : NoEmptyArray object) :
    stringify printed sep eq object = addPairs printed sep eq [] (pairsOf object) := by
  have hadd : ∀ (pairs : List (Bytes × Scalar)) (chain : Bytes), chain ≠ [] ∨ pairs ≠ [] →
      addPairs printed sep eq chain pairs ≠ [] := by
    intro pairs
    induction pairs with
    | nil => exact fun chain hor => hor.resolve_right fun hnil => hnil rfl
    | cons p pairs ih =>
      intro chain _
      refine ih _ (.inl ?_)
      exact fun hnil => pairText_ne_nil heq p (List.append_eq_nil_iff.1 hnil).2
  have hloop : ∀ (object : List (Bytes × Item)) (n : ℕ) (chain : Bytes), NoEmptyArray object →
      (chain = [] ↔ n = 0) → (object.zipIdx n).foldl (pushItem printed sep eq) chain =
        addPairs printed sep eq chain (pairsOf object) := by
    intro object
    induction object with
    | nil => exact fun _ _ _ _ => rfl
    | cons p object ih =>
      intro n chain h hchain
      obtain ⟨key, item⟩ := p
      have hrest : NoEmptyArray object := fun q hq => h q (List.mem_cons_of_mem _ hq)
      have hitem : pushItem printed sep eq chain ((key, item), n) =
          addPairs printed sep eq chain (pairsOfItem key item) := by
        cases item with
        | scalar value =>
          rw [pushItem, push_eq]
          have hif : (if n ≠ 0 then chain ++ sep else chain) =
              if chain ≠ [] then chain ++ sep else chain := by
            simp only [ne_eq, hchain]
          rw [hif]
          rfl
        | array values => exact pushArray_eq key values chain
      have hpairs : pairsOfItem key item ≠ [] := by
        cases item with
        | scalar value => exact nofun
        | array values =>
          intro hnil
          have hvalues := List.map_eq_nil_iff.1 hnil
          exact h (key, .array values) List.mem_cons_self (by rw [hvalues])
      rw [List.zipIdx_cons, List.foldl_cons, hitem, ih (n + 1) _ hrest]
      · have hcons : pairsOf ((key, item) :: object) = pairsOfItem key item ++ pairsOf object :=
          List.flatMap_cons
        rw [hcons, addPairs, addPairs, addPairs, List.foldl_append]
      · exact iff_of_false (hadd _ chain (.inr hpairs)) (Nat.succ_ne_zero n)
  exact hloop object 0 [] h (iff_of_true rfl rfl)

end Njs.Query
