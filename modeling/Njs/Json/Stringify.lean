import Njs.Atom.Table
import Njs.Json.Parser

/-!
# The writer of JSON texts

`JSON.stringify` of `njs_json.c` without a replacer, on values that are not functions, symbols or
undefined and have no `toJSON` method: an iterator over a stack of arrays and objects that appends
to a chain of buffers.

A chain is the bytes in its buffers, or nothing after an overflow; characters are never cut
between two buffers. Memory is not limited. `njs_qsort` is taken as a sort.
-/

namespace Njs.Json

open Text
open SharedDict (mustEscape escape njsUtf8Copy isContinuation)

variable {ν : Type}

/-- What the writer asks of numbers. -/
structure Numbers (ν : Type) extends Atom.Numbers ν where
  /-- `njs_number_to_integer`. -/
  toInteger : ν → ℤ
  /-- `num1 == num2`. -/
  equal : ν → ν → Bool

/-- Why the writer stops. -/
inductive StringifyError
  /-- `RangeError: invalid string length`. -/
  | rangeError
  /-- `TypeError: Nested too deep or a cyclic structure`. -/
  | typeError
  /-- A write past the end of a buffer; never reached. -/
  | overflow
  /-- More rounds than there are values; never reached. -/
  | rounds
  deriving DecidableEq

/-! ### Chains of buffers -/

/-- The bytes of a chain; nothing stands for `NJS_CHB_ERR_OVERFLOW`. -/
abbrev Chain : Type := Option Bytes

/-- `NJS_STRING_MAX_LENGTH`. -/
def njsStringMaxLength : ℕ := 0x7fffffff

/-- `njs_chb_reserve`; no limit is 0. -/
def njsChbReserve (maxSize size : ℕ) (chain : Chain) : Chain :=
  chain.bind fun s => if maxSize ≠ 0 ∧ s.length + size > maxSize then none else some s

/-- `njs_chb_append0`. -/
def njsChbAppend (maxSize : ℕ) (msg : Bytes) (chain : Chain) : Chain :=
  if msg.length ≠ 0 then (njsChbReserve maxSize msg.length chain).map (· ++ msg) else chain

def njsChbDrain (drain : ℕ) (chain : Chain) : Chain := chain.map (·.drop drain)

def njsChbDrop (drop : ℕ) (chain : Chain) : Chain := chain.map fun s => s.take (s.length - drop)

/-! ### Values that are no objects -/

/-- The loop of `njs_json_append_string`; `room` is `dst_end - dst`. Every round consumes a byte at
least. -/
def appendStringLoop (maxSize : ℕ) (utf8 : Bool) : ℕ → ℕ → Bytes → Chain → Option Chain
  | _, _, [], chain => some chain
  | 0, _, _ :: _, _ => none
  | rounds + 1, room, b :: p, chain =>
    let (room, chain) :=
      if room ≤ 6 then
        let size := max (p.length + 2) 6
        (size, njsChbReserve maxSize size chain)
      else (room, chain)
    match chain with
    | none => some none
    | some s =>
      if mustEscape b then
        let dst := chr '\\' :: escape b
        if dst.length ≤ room then
          appendStringLoop maxSize utf8 rounds (room - dst.length) p (some (s ++ dst))
        else none
      else
        match if utf8 then njsUtf8Copy b p else some ([b], p) with
        | none => none
        | some (dst, p) =>
          if dst.length ≤ room then
            appendStringLoop maxSize utf8 rounds (room - dst.length) p (some (s ++ dst))
          else none

def stringLength (s : Bytes) : ℕ := s.countP fun b => !isContinuation b

def njsJsonAppendString (maxSize : ℕ) (string : Bytes) (chain : Chain) : Option Chain :=
  let length := stringLength string
  let utf8 := length ≠ 0 && length ≠ string.length
  let size := max (string.length + 2) 7
  match njsChbReserve maxSize size chain with
  | none => some none
  | some s =>
    (appendStringLoop maxSize utf8 string.length (size - 1) string (some (s ++ [chr '"']))).map
      (njsChbAppend maxSize [chr '"'])

def njsJsonAppendNumber (f : Numbers ν) (maxSize : ℕ) (num : ν) (chain : Chain) : Option Chain :=
  if f.isNan num || f.isInf num then some (njsChbAppend maxSize (lit "null") chain)
  else
    match njsChbReserve maxSize 64 chain with
    | none => some none
    | some s => if (f.dtoa num).length ≤ 64 then some (some (s ++ f.dtoa num)) else none

def njsJsonAppendValue (f : Numbers ν) (maxSize : ℕ) (value : Value ν) (chain : Chain) :
    Option Chain :=
  match value with
  | .string s => njsJsonAppendString maxSize s chain
  | .number num => njsJsonAppendNumber f maxSize num chain
  | .boolean true => some (njsChbAppend maxSize (lit "true") chain)
  | .boolean false => some (njsChbAppend maxSize (lit "false") chain)
  | _ => some (njsChbAppend maxSize (lit "null") chain)

/-! ### The iterator -/

/-- `njs_string_to_index`, if it is an integer index. -/
def integerIndex (f : Numbers ν) (name : Bytes) : Option ℕ :=
  ((Atom.njsStringToIndex f.toNumbers name).bind f.uint32).filter (· ≠ 0xffffffff)

/-- `njs_get_own_ordered_keys` of a plain object: the integer indices in their order, then the
other names. -/
def njsGetOwnOrderedKeys (f : Numbers ν) (members : List (Bytes × Value ν)) : List Bytes :=
  let names := members.map Prod.fst
  (names.filter fun name => (integerIndex f name).isSome).mergeSort
      (fun a b => (integerIndex f a).getD 0 ≤ (integerIndex f b).getD 0) ++
    names.filter fun name => !(integerIndex f name).isSome

/-- The fields of `njs_json_state_t`. -/
structure State (ν : Type) where
  value : Value ν
  written : Bool
  index : ℕ
  keys : List Bytes

/-- What is at the index: a value, with its name in an object. -/
def State.item (state : State ν) : Option (Option Bytes × Value ν) :=
  match state.value with
  | .array elements => elements[state.index]?.map (none, ·)
  | .object members => do
    let key ← state.keys[state.index]?
    let m ← members.find? (·.1 = key)
    some (some key, m.2)
  | _ => none

/-- `state->array`. -/
def State.array (state : State ν) : Bool :=
  match state.value with
  | .array _ => true
  | _ => false

def njsJsonIsObject : Value ν → Bool
  | .array _ | .object _ => true
  | _ => false

/-- A new state of `njs_json_push_stringify_state`. -/
def pushState (f : Numbers ν) (value : Value ν) : State ν where
  value := value
  written := false
  index := 0
  keys :=
    match value with
    | .object members => njsGetOwnOrderedKeys f members
    | _ => []

def njsJsonStringifyIndent (maxSize : ℕ) (space : Bytes) (depth : ℕ) (times : ℤ) (chain : Chain) :
    Chain :=
  if space.length ≠ 0 then
    (njsChbAppend maxSize space)^[(times + depth - 1).toNat] (njsChbAppend maxSize (lit "\n") chain)
  else chain

def beforeItem (maxSize : ℕ) (space : Bytes) (depth : ℕ) (written : Bool) (key : Option Bytes)
    (chain : Chain) : Option Chain :=
  let chain :=
    if written then
      njsJsonStringifyIndent maxSize space depth 0 (njsChbAppend maxSize (lit ",") chain)
    else chain
  match key with
  | none => some chain
  | some key =>
    (njsJsonAppendString maxSize key chain).map fun chain =>
      let chain := njsChbAppend maxSize (lit ":") chain
      if space.length ≠ 0 then njsChbAppend maxSize (lit " ") chain else chain

/-- The loop of `njs_json_stringify_iterator`; the stack is the list of its states. -/
def iteratorLoop (f : Numbers ν) (maxSize : ℕ) (space : Bytes) :
    ℕ → List (State ν) → Chain → Except StringifyError Chain
  | 0, _, _ => .error .rounds
  | _ + 1, [], chain => .ok chain
  | rounds + 1, state :: states, chain =>
    let depth := states.length + 1
    let chain :=
      if state.index = 0 then
        njsJsonStringifyIndent maxSize space depth 0
          (njsChbAppend maxSize (if state.array then lit "[" else lit "\x7b") chain)
      else chain
    match state.item with
    | none =>
      let chain :=
        njsChbAppend maxSize (if state.array then lit "]" else lit "\x7d")
          (njsJsonStringifyIndent maxSize space depth (-1) chain)
      match states with
      | [] => .ok chain
      | parent :: states =>
        iteratorLoop f maxSize space rounds ({ parent with written := true } :: states) chain
    | some (key, value) =>
      match beforeItem maxSize space depth state.written key chain with
      | none => .error .overflow
      | some chain =>
        let state := { state with index := state.index + 1, written := true }
        if njsJsonIsObject value then
          if depth ≥ njsJsonMaxDepth then .error .typeError
          else iteratorLoop f maxSize space rounds (pushState f value :: state :: states) chain
        else
          match njsJsonAppendValue f maxSize value chain with
          | none => .error .overflow
          | some chain => iteratorLoop f maxSize space rounds (state :: states) chain

mutual

def Value.rounds : Value ν → ℕ
  | .array elements => elementsRounds elements + 1
  | .object members => membersRounds members + 1
  | _ => 0

def elementsRounds : List (Value ν) → ℕ
  | [] => 0
  | v :: l => v.rounds + 1 + elementsRounds l

def membersRounds : List (Bytes × Value ν) → ℕ
  | [] => 0
  | (_, v) :: l => v.rounds + 1 + membersRounds l

end

def njsJsonWrapValue (value : Value ν) : Value ν := .object [([], value)]

/-- `njs_json_stringify_iterator`. Nothing stands for `undefined`. -/
def njsJsonStringifyIterator (f : Numbers ν) (maxSize : ℕ) (space : Bytes) (value : Value ν) :
    Except StringifyError (Option Bytes) :=
  let wrapper := njsJsonWrapValue value
  match iteratorLoop f maxSize space wrapper.rounds [pushState f wrapper] (some []) with
  | .error e => .error e
  | .ok chain =>
    let chain := njsChbDrop 1 (njsChbDrain 4 chain)
    let chain := if space.length ≠ 0 then njsChbDrop 1 (njsChbDrain 2 chain) else chain
    match chain with
    | none => .error .rangeError
    | some s => if s.length = 0 then .ok none else .ok (some s)

/-- The third argument of `JSON.stringify`. -/
inductive SpaceArg (ν : Type)
  | undefined
  | number (num : ν)
  | string (s : Bytes)

/-- What `njs_json_stringify` makes of its third argument; a string is of ASCII. -/
def stringifySpace (f : Numbers ν) : SpaceArg ν → Bytes
  | .undefined => []
  | .number num => List.replicate (min (f.toInteger num) 10).toNat (chr ' ')
  | .string s => s.take 10

/-- `njs_json_stringify` without a replacer. -/
def njsJsonStringify (f : Numbers ν) (maxSize : ℕ) (value : Value ν) (space : SpaceArg ν) :
    Except StringifyError (Option Bytes) :=
  njsJsonStringifyIterator f maxSize (stringifySpace f space) value

end Njs.Json
