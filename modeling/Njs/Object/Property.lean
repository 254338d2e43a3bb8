import Njs.Atom.Keys
import Njs.Object.Hash

/-!
# Properties and objects

`njs_object_prop_t` and `njs_object_t`, for the objects whose lookups differ: plain objects,
functions, arrays with and without a vector of elements, and String objects. What the properties
hold, and what the interpreter does with values and functions, are parameters.
-/

namespace Njs.Object

open Atom Text

/-! ### Atoms -/

/-- What the lookups ask of an atom: its text, if it is not a symbol, and the numbers. -/
structure Names (ν : Type) extends Numbers ν where
  text : UInt32 → Option Bytes
  /-- `njs_array_indices_handler` orders two keys that read as numbers by this. -/
  le : ν → ν → Bool
  /-- `NJS_ATOM_STRING_length`. -/
  length : UInt32

section Names

variable {ν : Type} (N : Names ν)

/-- `njs_string_to_index`; no number stands for a NaN. -/
def Names.stringToIndex (k : UInt32) : Option ν :=
  if njsAtomIsNumber k.toNat then some (N.ofUint32 (njsAtomNumber k.toNat))
  else (N.text k).bind (njsStringToIndex N.toNumbers)

/-- `njs_number_is_integer_index`, with the index. -/
def Names.numberIsIntegerIndex (num : ν) : Option ℕ := (N.uint32 num).filter (· ≠ 0xffffffff)

/-- `njs_key_is_integer_index`, with the index. -/
def Names.keyIsIntegerIndex (num : ν) : Option ℕ :=
  if N.isNegZero num then none else N.numberIsIntegerIndex num

def Names.arrayIndex (k : UInt32) : Option ℕ := (N.stringToIndex k).bind N.keyIsIntegerIndex

/-- The index that an enumeration takes a key for. -/
def Names.listedIndex (k : UInt32) : Option ℕ := (N.stringToIndex k).bind N.numberIsIntegerIndex

end Names

/-! ### Properties -/

/-- The handlers of properties of type `NJS_PROPERTY_HANDLER`. -/
inductive Handler
  /-- `njs_array_length`. -/
  | arrayLength
  /-- `njs_string_instance_length`. -/
  | stringLength
  /-- `njs_function_instance_length`. -/
  | functionLength
  /-- `njs_function_instance_name`. -/
  | functionName
  /-- `njs_function_prototype_create`. -/
  | functionPrototype
  /-- `njs_object_prototype_create`. -/
  | objectPrototype
  /-- `njs_object_prototype_create_constructor`. -/
  | objectConstructor
  /-- `njs_object_prototype_proto`. -/
  | proto
  /-- `njs_primitive_prototype_get_proto`. -/
  | primitiveProto
  deriving DecidableEq

/-- The type of a property and what it holds. -/
inductive Slot (V F : Type)
  /-- `NJS_PROPERTY`. -/
  | value (v : V)
  /-- `NJS_ACCESSOR`. -/
  | accessor (getter setter : Option F)
  /-- `NJS_PROPERTY_HANDLER`. -/
  | handler (h : Handler)
  /-- `NJS_WHITEOUT`: the property has been deleted. -/
  | whiteout
  deriving DecidableEq

/-- `njs_object_prop_t`. -/
structure Property (V F : Type) where
  slot : Slot V F
  enumerable : Bool
  configurable : Bool
  writable : Bool
  deriving DecidableEq

variable {V F : Type}

/-- `prop->type == NJS_WHITEOUT`. -/
def Property.isWhiteout (p : Property V F) : Bool :=
  match p.slot with
  | .whiteout => true
  | _ => false

/-- `njs_is_data_descriptor`. -/
def Property.isData (p : Property V F) : Bool :=
  match p.slot with
  | .value _ | .handler _ => true
  | _ => false

/-- A property that may be enumerated, configured and written. -/
def ecw (v : V) : Property V F := ⟨.value v, true, true, true⟩

/-! ### Objects -/

/-- What distinguishes the objects in a lookup. -/
inductive Kind (V : Type)
  /-- `NJS_OBJECT`. -/
  | object
  /-- `NJS_FUNCTION`, with its number of arguments and its name. -/
  | function (argsCount : ℕ) (name : V)
  /-- `NJS_ARRAY` with `fast_array`: the elements, some of them invalid. -/
  | fast (start : List (Option V))
  /-- `NJS_ARRAY` without `fast_array`; `array->length` is what it was with it. -/
  | slow (length : ℕ)
  /-- `NJS_OBJECT_VALUE` of a string: the code points. -/
  | string (chars : List V)
  deriving DecidableEq

/-- `njs_object_t` without `__proto__`. -/
structure Obj (H V : Type) where
  kind : Kind V
  hash : H
  sharedHash : H
  extensible : Bool

def Kind.isArray : Kind V → Bool
  | .fast _ | .slow _ => true
  | _ => false

/-! ### The rest of the interpreter -/

/-- The errors of the operations on properties. -/
inductive Error
  | readOnly (key : UInt32)
  | onlyGetter (key : UInt32)
  | notExtensible (key : UInt32)
  | cannotDelete (key : UInt32)
  | cannotRedefine (key : UInt32)
  | getterFunction
  | setterFunction
  | accessorsAndValue
  | invalidLength
  /-- A handler of its own declines to set a property. -/
  | unexpectedType
  /-- A conversion of a value throws. -/
  | thrown
  /-- A table has no room. -/
  | insertFailed
  deriving DecidableEq

/-- The text of an error; `name` is the text of an atom and `type` the type of the object. -/
def Error.text (name : UInt32 → Bytes) (type : Bytes) : Error → Bytes
  | .readOnly key =>
    lit "Cannot assign to read-only property \"" ++ name key ++ lit "\" of " ++ type
  | .onlyGetter key =>
    lit "Cannot set property \"" ++ name key ++ lit "\" of " ++ type ++
      lit " which has only a getter"
  | .notExtensible key =>
    lit "Cannot add property \"" ++ name key ++ lit "\", object is not extensible"
  | .cannotDelete key => lit "Cannot delete property \"" ++ name key ++ lit "\" of " ++ type
  | .cannotRedefine key => lit "Cannot redefine property: \"" ++ name key ++ lit "\""
  | .getterFunction => lit "Getter must be a function"
  | .setterFunction => lit "Setter must be a function"
  | .accessorsAndValue =>
    lit "Cannot both specify accessors and a value or writable attribute"
  | .invalidLength => lit "Invalid array length"
  | .unexpectedType => lit "unexpected property type \"property handler\" while setting"
  | .thrown => []
  | .insertFailed => lit "flathsh insert failed"

/-- What the operations ask of values. -/
structure Host (V F : Type) where
  undefined : V
  /-- `njs_set_number` of an unsigned integer. -/
  ofNat : ℕ → V
  /-- `njs_value_to_number`, and the number if it is an unsigned integer of 32 bits. -/
  toUint32 : V → Except Error ℕ
  /-- `njs_value_to_length`. -/
  toLength : V → ℕ
  /-- `njs_values_same`. -/
  same : V → V → Bool
  /-- `njs_values_strict_equal`. -/
  strictEqual : V → V → Bool
  /-- `njs_is_true`. -/
  isTrue : V → Bool
  isUndefined : V → Bool
  /-- `njs_is_function`. -/
  function? : V → Option F
  /-- `njs_object_value_copy` and `njs_function_value_copy`, of the value of a property. -/
  copyValue : UInt32 → V → V
  /-- `njs_function_copy`. -/
  copyFunction : F → F
  sameNative : F → F → Bool

/-! ### Descriptors -/

/-- The fields of a descriptor, as `njs_object_property` reads them. -/
structure Descriptor (V : Type) where
  get : Option V
  set : Option V
  value : Option V
  writable : Option V
  enumerable : Option V
  configurable : Option V

/-- What is to be defined: a value, which may be invalid, or accessors, which may be
`NJS_PROP_PTR_UNSET`. -/
inductive Given (V F : Type)
  | data (value : Option V)
  | accessor (getter setter : Option (Option F))

/-- `prop` of `njs_object_prop_define`, with `set_writable`, `set_enumerable` and
`set_configurable`. -/
structure Definition (V F : Type) where
  given : Given V F
  writable : Option Bool
  enumerable : Option Bool
  configurable : Option Bool

/-- A getter or a setter of a descriptor. -/
def Host.accessor (host : Host V F) (e : Error) (field : Option V) :
    Except Error (Option (Option F)) :=
  match field with
  | none => pure none
  | some v =>
    match host.function? v with
    | some f => pure (some (some f))
    | none => if host.isUndefined v then pure (some none) else throw e

def njsDescriptorProp (host : Host V F) (desc : Descriptor V) : Except Error (Definition V F) := do
  let getter ← host.accessor .getterFunction desc.get
  let setter ← host.accessor .setterFunction desc.set
  let accessor := desc.get.isSome || desc.set.isSome
  let data := desc.value.isSome || desc.writable.isSome
  if accessor && data then throw .accessorsAndValue
  else
    pure
      { given := if accessor then .accessor getter setter else .data desc.value
        writable := desc.writable.map host.isTrue
        enumerable := desc.enumerable.map host.isTrue
        configurable := desc.configurable.map host.isTrue }

/-! ### Numbers as values -/

/-- The values and the functions are numbers. -/
def plainHost : Host ℕ ℕ where
  undefined := 0
  ofNat n := n
  toUint32 n := if n < 2 ^ 32 then pure n else throw .invalidLength
  toLength n := n
  same a b := a = b
  strictEqual a b := a = b
  isTrue n := n ≠ 0
  isUndefined n := n = 0
  function? _ := none
  copyValue _ n := n
  copyFunction f := f
  sameNative f g := f = g

/-- What the memory of a new table holds. -/
def plainJunk : ℕ → FlatHash.Elt Unit (Property ℕ ℕ) := fun _ => ⟨0, .free, 0, (), ecw 0⟩

def plainDescriptor (v : ℕ) : Descriptor ℕ where
  get := none
  set := none
  value := some v
  writable := some 1
  enumerable := some 1
  configurable := some 1

end Njs.Object

/-!
## Keys that are indices

What the table of atoms and the conversions of numbers promise, and the keys that the lookups and
the enumerations take for indices.
-/

namespace Njs.Object

open Atom

section Names

variable {ν : Type} (N : Names ν)

/-- What the table of atoms and the conversions of numbers promise. -/
structure Names.Lawful : Prop where
  numbers : N.toNumbers.Lawful
  text_number : ∀ k : UInt32, njsAtomIsNumber k.toNat = true →
    N.text k = some (decimal (njsAtomNumber k.toNat))
  text_length : N.text N.length = some (Text.lit "length")
  text_inj : ∀ {k k' : UInt32} {s : Bytes}, N.text k = some s → N.text k' = some s → k = k'
  uint32_lt : ∀ {num n}, N.uint32 num = some n → n < 2 ^ 32
  uint32_atod : ∀ n < 2 ^ 32, N.uint32 (N.atod (decimal n)) = some n
  isNegZero_atod : ∀ n < 2 ^ 32, N.isNegZero (N.atod (decimal n)) = false
  isNegZero_ofUint32 : ∀ n < 2 ^ 31, N.isNegZero (N.ofUint32 n) = false

/-- An array index in canonical form. -/
def Names.IsIndex (k : UInt32) (n : ℕ) : Prop := N.text k = some (decimal n) ∧ n < 2 ^ 32 - 1

variable {N}

variable {n : ℕ} {k : UInt32}

theorem Names.numberIsIntegerIndex_eq_some {num : ν} :
    N.numberIsIntegerIndex num = some n ↔ N.uint32 num = some n ∧ n ≠ 0xffffffff := by
  simp [Names.numberIsIntegerIndex, Option.filter_eq_some_iff]

theorem njsAtomNumber_lt (id : ℕ) : njsAtomNumber id < 2 ^ 31 := by
  have : id &&& 0x7fffffff ≤ 0x7fffffff := Nat.and_le_right
  rw [njsAtomNumber]
  omega

theorem Names.Lawful.stringToIndex_of_isIndex (hN : N.Lawful) (hk : N.IsIndex k n) :
    ∃ num, N.stringToIndex k = some num ∧ N.uint32 num = some n ∧ N.isNegZero num = false := by
  obtain ⟨htext, hn⟩ := hk
  rw [Names.stringToIndex]
  split_ifs with hatom
  · have hlt := njsAtomNumber_lt k.toNat
    obtain rfl : n = njsAtomNumber k.toNat :=
      decimal_inj (Option.some.inj (htext.symm.trans (hN.text_number k hatom)))
    exact ⟨_, rfl, hN.numbers.uint32_ofUint32 _ hlt, hN.isNegZero_ofUint32 _ hlt⟩
  · have huint := hN.uint32_atod n (by omega)
    refine ⟨N.atod (decimal n), ?_, huint, hN.isNegZero_atod n (by omega)⟩
    rw [htext, Option.bind_some, njsStringToIndex, if_neg fun h => ne_decimal (by decide) n h.symm]
    exact if_pos (hN.numbers.dtoa_of_uint32 _ _ huint).symm

/-- A key that reads as an integer index is one, or `-0`. -/
theorem Names.Lawful.isIndex_of_stringToIndex (hN : N.Lawful) {num : ν}
    (hnum : N.stringToIndex k = some num) (hn : N.numberIsIntegerIndex num = some n) :
    N.IsIndex k n ∨ N.text k = some (Text.lit "-0") ∧ num = N.negZero := by
  obtain ⟨huint, hmax⟩ := Names.numberIsIntegerIndex_eq_some.mp hn
  have hlt := hN.uint32_lt huint
  rw [Names.stringToIndex] at hnum
  split_ifs at hnum with hatom
  · left
    obtain rfl := Option.some.inj hnum
    have hm := hN.numbers.uint32_ofUint32 _ (njsAtomNumber_lt k.toNat)
    rw [huint, Option.some.injEq] at hm
    exact ⟨hm ▸ hN.text_number k hatom, by omega⟩
  obtain ⟨s, hs, hread⟩ := Option.bind_eq_some_iff.mp hnum
  rw [njsStringToIndex] at hread
  split_ifs at hread with hzero
  · exact .inr ⟨hzero ▸ hs, (Option.some.inj hread).symm⟩
  simp only at hread
  split_ifs at hread with hdtoa
  · left
    obtain rfl := Option.some.inj hread
    refine ⟨?_, by omega⟩
    rw [hs, ← hN.numbers.dtoa_of_uint32 _ _ huint, ← hdtoa]

/-- A key other than `-0` is listed as an index just if it is one. -/
theorem Names.Lawful.listedIndex_iff (hN : N.Lawful) (hk : N.text k ≠ some (Text.lit "-0")) :
    N.listedIndex k = some n ↔ N.IsIndex k n := by
  constructor
  · intro h
    obtain ⟨num, hnum, hn⟩ := Option.bind_eq_some_iff.mp h
    exact (hN.isIndex_of_stringToIndex hnum hn).resolve_right fun h => hk h.1
  · intro h
    obtain ⟨num, hnum, huint, -⟩ := hN.stringToIndex_of_isIndex h
    rw [Names.listedIndex, hnum, Option.bind_some]
    exact Names.numberIsIntegerIndex_eq_some.mpr ⟨huint, by have := h.2; omega⟩

theorem Names.Lawful.arrayIndex_iff (hN : N.Lawful) : N.arrayIndex k = some n ↔ N.IsIndex k n := by
  constructor
  · intro h
    obtain ⟨num, hnum, hn⟩ := Option.bind_eq_some_iff.mp h
    rw [Names.keyIsIntegerIndex] at hn
    split_ifs at hn with hzero
    refine (hN.isIndex_of_stringToIndex hnum hn).resolve_right fun h => hzero ?_
    rw [h.2]
    exact hN.numbers.isNegZero_negZero
  · intro h
    obtain ⟨num, hnum, huint, hzero⟩ := hN.stringToIndex_of_isIndex h
    rw [Names.arrayIndex, hnum, Option.bind_some, Names.keyIsIntegerIndex, hzero,
      if_neg Bool.false_ne_true]
    exact Names.numberIsIntegerIndex_eq_some.mpr ⟨huint, by have := h.2; omega⟩

end Names

/-! ### Atoms of numbers -/

theorem toNat_of_njsAtomIsNumber {k : UInt32} (h : njsAtomIsNumber k.toNat = true) :
    k.toNat = 2 ^ 31 + njsAtomNumber k.toNat := by
  have hlt := k.toNat_lt
  have hnot : ¬k.toNat < 2 ^ 31 := fun hlt => by
    rw [njsAtomIsNumber_of_lt hlt] at h
    cases h
  have hmod : k.toNat &&& 0x7fffffff = k.toNat % 2 ^ 31 :=
    Nat.and_two_pow_sub_one_eq_mod k.toNat 31
  rw [njsAtomNumber, hmod]
  omega

/-! ### Integers as numbers -/

/-- The numbers are integers; the text of most atoms that are no numbers begins with one letter. -/
def plainNames : Names (Option (Bool × ℕ)) where
  toNumbers := integers
  text k :=
    if njsAtomIsNumber k.toNat then some (decimal (njsAtomNumber k.toNat))
    else if k = 0 then some (Text.lit "length")
    else some (Text.chr 'a' :: decimal k.toNat)
  le
    | some (false, m), some (false, n) => m ≤ n
    | _, _ => false
  length := 0

theorem lawful_plainNames : plainNames.Lawful where
  numbers := lawful_integers
  text_number k h := by
    simp only [plainNames, h, if_true]
  text_length := rfl
  text_inj {k k' s} hk hk' := by
    have hletter (n m : ℕ) : Text.chr 'a' :: decimal n ≠ decimal m := ne_decimal (by rfl) m
    have hlength (n : ℕ) : Text.lit "length" ≠ decimal n := ne_decimal (by decide) n
    have hhead (n : ℕ) : Text.lit "length" ≠ Text.chr 'a' :: decimal n :=
      fun h => absurd (List.cons.inj h).1 (by decide)
    have heq := hk.trans hk'.symm
    simp only [plainNames] at heq
    split_ifs at heq with h h' h' h h' h' h'
    · have hnum := decimal_inj (Option.some.inj heq)
      have hn := toNat_of_njsAtomIsNumber h
      have hn' := toNat_of_njsAtomIsNumber h'
      exact UInt32.toNat_inj.mp (by omega)
    · exact absurd (Option.some.inj heq).symm (hlength _)
    · exact absurd (Option.some.inj heq).symm (hletter _ _)
    · exact absurd (Option.some.inj heq) (hlength _)
    · rw [h, h']
    · exact absurd (Option.some.inj heq) (hhead _)
    · exact absurd (Option.some.inj heq) (hletter _ _)
    · exact absurd (Option.some.inj heq).symm (hhead _)
    · exact UInt32.toNat_inj.mp (decimal_inj (List.cons.inj (Option.some.inj heq)).2)
  uint32_lt {num n} h := by
    rcases num with _ | ⟨neg, m⟩
    · cases h
    · change (if neg = true ∧ m ≠ 0 ∨ 2 ^ 32 ≤ m then none else some m) = some n at h
      split_ifs at h with hcond
      have := Option.some.inj h
      omega
  uint32_atod n hn := by
    change integers.uint32 (integers.atod (decimal n)) = some n
    rw [atod_decimal]
    simp [integers]
    omega
  isNegZero_atod n hn := by
    change integers.isNegZero (integers.atod (decimal n)) = false
    rw [atod_decimal]
    simp [integers]
  isNegZero_ofUint32 n hn := by
    simp [plainNames, integers]

end Njs.Object
