import Njs.FlatHash.Table
import Njs.Lib.Decimal
import Njs.Lib.Text

/-!
# Atoms

The list of `njs_atom_defs.h`. The places in it are the ids of `njs_atom.h`.
-/

namespace Njs.Atom

open Text (lit)

/-- `NJS_DEF_STRING` and `NJS_DEF_SYMBOL`. -/
inductive Def
  | string (s : Bytes)
  | symbol (description : Bytes)
  deriving DecidableEq

/-- `njs_atom`, without the kinds and ids of tokens. -/
def njsAtom : List Def :=
  .string (lit "\xff\xff") ::
    ["Symbol.asyncIterator", "Symbol.hasInstance", "Symbol.isConcatSpreadable", "Symbol.iterator",
      "Symbol.match", "Symbol.matchAll", "Symbol.replace", "Symbol.search", "Symbol.species",
      "Symbol.split", "Symbol.toPrimitive", "Symbol.toStringTag",
      "Symbol.unscopables"].map (.symbol ∘ lit) ++
    ["arguments", "async", "await", "break", "case", "catch", "class", "const", "continue",
      "debugger", "default", "delete", "do", "else", "enum", "eval", "export", "extends", "false",
      "finally", "for", "from", "function", "if", "implements", "import", "in", "instanceof",
      "interface", "let", "meta", "new", "null", "of", "package", "private", "protected", "public",
      "return", "static", "super", "switch", "target", "this", "throw", "true", "try", "typeof",
      "undefined", "var", "void", "while", "with", "yield", "(?:)", "", "$262", "-Infinity",
      "AggregateError", "All promises were rejected", "Array", "Array Iterator", "ArrayBuffer",
      "AsyncFunction", "Boolean", "Buffer", "BYTES_PER_ELEMENT", "DataView", "Date", "E", "EPSILON",
      "Error", "EvalError", "Float32Array", "Float64Array", "Function", "Infinity", "Int16Array",
      "Int32Array", "Int8Array", "InternalError", "Invalid Date", "JSON", "LN10", "LN2", "LOG10E",
      "LOG2E", "MAX_LENGTH", "MAX_SAFE_INTEGER", "MAX_STRING_LENGTH", "MAX_VALUE",
      "MIN_SAFE_INTEGER", "MIN_VALUE", "Math", "MemoryError", "NEGATIVE_INFINITY", "NaN", "Number",
      "Object", "PI", "POSITIVE_INFINITY", "Promise", "RangeError", "ReferenceError", "RegExp",
      "SQRT1_2", "SQRT2", "String", "Symbol", "SyntaxError", "TextDecoder", "TextEncoder",
      "TypeError", "TypedArray", "URIError", "UTC", "Uint16Array", "Uint32Array", "Uint8Array",
      "Uint8ClampedArray", "[Getter]", "[Setter]", "[Getter/Setter]", "[object Array]",
      "[object Arguments]", "[object Boolean]", "[object Date]", "[object Error]",
      "[object Function]", "[object Null]", "[object Number]", "[object Object]", "[object RegExp]",
      "[object String]", "[object Undefined]", "__proto__", "abs", "acos", "acosh", "all", "alloc",
      "allocUnsafe", "allocUnsafeSlow", "allSettled", "anonymous", "any", "apply", "argv", "asin",
      "asinh", "assign", "asyncIterator", "atan", "atan2", "atanh", "atob", "bind", "boolean",
      "btoa", "buffer", "byteLength", "byteOffset", "call", "callee", "caller", "cbrt", "ceil",
      "charAt", "charCodeAt", "cluster_size", "clz32", "codePointAt", "compare", "concat",
      "configurable", "constructor", "copy", "copyWithin", "cos", "cosh", "create", "data",
      "decode", "decodeURI", "decodeURIComponent", "defineProperty", "defineProperties",
      "description", "done", "dump", "encode", "encodeInto", "encodeURI", "encodeURIComponent",
      "encoding", "endsWith", "engine", "enumerable", "entries", "env", "equals", "errors", "every",
      "exec", "exp", "expm1", "external", "fatal", "fileName", "fill", "filter", "find",
      "findIndex", "flags", "floor", "forEach", "freeze", "fromCharCode", "fromCodePoint", "fround",
      "fulfilled", "get", "getDate", "getDay", "getFloat32", "getFloat64", "getFullYear",
      "getHours", "getInt16", "getInt32", "getInt8", "getMilliseconds", "getMinutes",
      "getOwnPropertyDescriptor", "getOwnPropertyDescriptors", "getOwnPropertyNames",
      "getOwnPropertySymbols", "getPrototypeOf", "getSeconds", "getTime", "getTimezoneOffset",
      "getUTCDate", "getUTCDay", "getUTCFullYear", "getUTCHours", "getUTCMilliseconds",
      "getUTCMinutes", "getUTCMonth", "getUTCSeconds", "getUint16", "getUint32", "getUint8",
      "getMonth", "global", "globalThis", "groups", "hasOwn", "hasOwnProperty", "hasInstance",
      "hypot", "ignoreBOM", "ignoreCase", "imul", "includes", "index", "indexOf", "input", "is",
      "isArray", "isBuffer", "isConcatSpreadable", "isEncoding", "isExtensible", "isFinite",
      "isFrozen", "isInteger", "isNaN", "isPrototypeOf", "isSafeInteger", "isSealed", "isView",
      "iterator", "join", "keyFor", "keys", "kill", "lastIndex", "lastIndexOf", "length",
      "lineNumber", "log", "log10", "log1p", "log2", "map", "matchAll", "match", "max", "min",
      "memoryStats", "message", "multiline", "name", "nblocks", "next", "njs", "now", "number",
      "object", "on", "padEnd", "padStart", "page_size", "parse", "parseFloat", "parseInt", "pid",
      "pop", "pow", "ppid", "preventExtensions", "process", "propertyIsEnumerable", "prototype",
      "push", "race", "random", "read", "readDoubleBE", "readDoubleLE", "readFloatBE",
      "readFloatLE", "readInt16BE", "readInt16LE", "readInt32BE", "readInt32LE", "readInt8",
      "readIntBE", "readIntLE", "readUInt16BE", "readUInt16LE", "readUInt32BE", "readUInt32LE",
      "readUInt8", "readUIntBE", "readUIntLE", "reason", "reduce", "reduceRight", "reject",
      "rejected", "repeat", "replace", "replaceAll", "require", "resolve", "reverse", "round",
      "seal", "search", "set", "setDate", "setFloat32", "setFloat64", "setFullYear", "setHours",
      "setInt16", "setInt32", "setInt8", "setMilliseconds", "setMinutes", "setMonth",
      "setPrototypeOf", "setSeconds", "setTime", "setUint16", "setUint32", "setUint8", "setUTCDate",
      "setUTCFullYear", "setUTCHours", "setUTCMilliseconds", "setUTCMinutes", "setUTCMonth",
      "setUTCSeconds", "shift", "sign", "sin", "sinh", "size", "slice", "some", "sort", "source",
      "species", "splice", "split", "sqrt", "stack", "startsWith", "status", "sticky", "stream",
      "string", "stringify", "subarray", "substr", "substring", "symbol", "swap16", "swap32",
      "swap64", "tan", "tanh", "test", "then", "times", "toDateString", "toExponential", "toFixed",
      "toISOString", "toJSON", "toLocaleDateString", "toLocaleString", "toLocaleTimeString",
      "toLowerCase", "toPrimitive", "toPrecision", "toReversed", "toSorted", "toSpliced",
      "toStringTag", "toString", "toTimeString", "toUpperCase", "toUTCString", "trimEnd",
      "trimStart", "trim", "trunc", "type", "usec", "unscopables", "unshift", "utf-8", "value",
      "valueOf", "values", "version", "version_number", "write", "writable", "writeDoubleBE",
      "writeDoubleLE", "writeFloatBE", "writeFloatLE", "writeIntBE", "writeIntLE", "writeInt16BE",
      "writeInt16LE", "writeInt32BE", "writeInt32LE", "writeInt8", "writeUIntBE", "writeUIntLE",
      "writeUInt16BE", "writeUInt16LE", "writeUInt32BE", "writeUInt32LE", "writeUInt8",
      "written"].map (.string ∘ lit)

/-- `NJS_ATOM_SIZE`. -/
def njsAtomSize : ℕ := njsAtom.length

def Def.text? : Def → Option Bytes
  | .string s => some s
  | .symbol _ => none

/-! ### The strings are distinct -/

/-- A number that tells the predefined strings apart. -/
def fingerprint (s : Bytes) : ℕ := s.foldl (fun n b => (257 * n + b.toNat) % 1000003) 1

/-- No two numbers of a list are equal; they are told apart by so many of their lowest bits. -/
def apart : ℕ → List ℕ → Bool
  | 0, l => l.length ≤ 1
  | _ + 1, [] => true
  | _ + 1, [_] => true
  | bits + 1, l =>
    apart bits ((l.filter (· % 2 = 0)).map (· / 2)) &&
      apart bits ((l.filter (· % 2 = 1)).map (· / 2))

theorem nodup_of_apart (bits : ℕ) : ∀ l : List ℕ, apart bits l = true → l.Nodup := by
  induction bits with
  | zero =>
    rintro (_ | ⟨n, _ | ⟨m, l⟩⟩) h
    · exact List.nodup_nil
    · exact List.nodup_singleton n
    · simp [apart] at h
  | succ bits ih =>
    rintro (_ | ⟨n, _ | ⟨m, l⟩⟩) h
    · exact List.nodup_nil
    · exact List.nodup_singleton n
    obtain ⟨heven, hodd⟩ := Bool.and_eq_true_iff.mp h
    have heven := (ih _ heven).of_map _
    have hodd := (ih _ hodd).of_map _
    -- Equal numbers are on the same side.
    rw [List.nodup_iff_count_le_one] at heven hodd ⊢
    intro k
    rcases Nat.mod_two_eq_zero_or_one k with hk | hk
    · have := heven k
      rwa [List.count_filter (by simpa using hk)] at this
    · have := hodd k
      rwa [List.count_filter (by simpa using hk)] at this

set_option maxRecDepth 10000 in
theorem apart_njsAtom : apart 20 ((njsAtom.filterMap Def.text?).map fingerprint) = true := by
  unfold njsAtom
  rw [Text.lit_eq_litUndecoded]
  decide

theorem nodup_njsAtom : (njsAtom.filterMap Def.text?).Nodup :=
  (nodup_of_apart 20 _ apart_njsAtom).of_map _

theorem mem_njsAtom : Def.string (lit "NaN") ∈ njsAtom ∧ Def.string (lit "-Infinity") ∈ njsAtom ∧
    Def.string (lit "Infinity") ∈ njsAtom := by
  unfold njsAtom
  rw [Text.lit_eq_litUndecoded]
  decide

set_option maxRecDepth 2000 in
theorem length_njsAtom : njsAtom.length = 485 := rfl

end Njs.Atom

/-!
## The atom table

The table of `njs_atom.c` and `njs_atom.h`: a flat hash that gives every string and every symbol
used as a property key a number, its atom. The numbers below `0x80000000` are the places of the
elements in the order of insertion, in the table of a machine and after it in the table of its
clone; the others are integer keys. Strings and symbols are put into one hash, their hashes told
apart by the highest bit.

What is known of the numbers of the language is a parameter: the conversions of `njs_dtoa.c` and the
comparison of a number with its conversion to 32 bits.
-/

namespace Njs.Atom

open FlatHash Text

/-- What the table asks of numbers. -/
structure Numbers (ν : Type) where
  /-- `njs_dtoa`. -/
  dtoa : ν → Bytes
  /-- `njs_atod(start, NULL, 10, 0)`. -/
  atod : Bytes → ν
  /-- `(uint32_t) num`, if it is equal to `num`. -/
  uint32 : ν → Option ℕ
  /-- The number that is equal to an unsigned integer of 32 bits. -/
  ofUint32 : ℕ → ν
  /-- `-0.0`. -/
  negZero : ν
  /-- `num == 0 && signbit(num)`. -/
  isNegZero : ν → Bool
  isNan : ν → Bool
  isInf : ν → Bool
  /-- `num < 0`. -/
  isNegative : ν → Bool

/-- The value of an element: a string, or a symbol with its description. -/
inductive Value
  | string (atomId : ℕ) (data : Bytes)
  | symbol (atomId : ℕ) (description : Option Bytes)
  deriving DecidableEq

/-- A table. What `njs_lexer_hash_test` looks at is the text of a string. -/
abbrev AtomHash : Type := Flathsh (Option Bytes) Value

/-- What the memory holds when a table gets more of it. -/
abbrev Junk : Type := ℕ → Elt (Option Bytes) Value

/-- A property key. -/
inductive Key (ν : Type)
  | string (s : Bytes)
  | number (num : ν)

/-- `vm->atom_hash_current`. -/
inductive Current
  /-- `&vm->atom_hash_shared`. -/
  | shared
  /-- `&vm->atom_hash`. -/
  | own

/-- The fields of `njs_vm_t`. -/
structure Vm where
  atomHashShared : AtomHash
  atomHash : AtomHash
  atomHashCurrent : Current
  sharedAtomCount : ℕ
  atomIdGenerator : ℕ

/-- `*vm->atom_hash_current`. -/
def Vm.current (vm : Vm) : AtomHash :=
  match vm.atomHashCurrent with
  | .shared => vm.atomHashShared
  | .own => vm.atomHash

/-- A write through `vm->atom_hash_current`. -/
def Vm.setCurrent (vm : Vm) (fh : AtomHash) : Vm :=
  match vm.atomHashCurrent with
  | .shared => { vm with atomHashShared := fh }
  | .own => { vm with atomHash := fh }

/-- `vm->atom_id_generator++`. -/
def Vm.advance (vm : Vm) : Vm :=
  { vm with atomIdGenerator := (vm.atomIdGenerator + 1) % 2 ^ 32 }

/-! ### Ids and hashes -/

def njsAtomIsNumber (atomId : ℕ) : Bool := atomId &&& 0x80000000 ≠ 0

def njsAtomNumber (atomId : ℕ) : ℕ := atomId &&& 0x7fffffff

def njsNumberAtom (n : ℕ) : ℕ := n ||| 0x80000000

def njsAtomSymbolKey (hash : UInt32) : UInt32 := hash ||| 0x80000000

def njsAtomStringKey (hash : UInt32) : UInt32 := hash &&& 0x7fffffff

def njsDjbHashAdd (hash : UInt32) (val : UInt8) : UInt32 :=
  ((hash <<< 5) + hash) ^^^ val.toUInt32

def njsDjbHash (data : Bytes) : UInt32 := data.foldl njsDjbHashAdd 5381

/-! ### The operations -/

def stringQuery (key : Bytes) (hash : UInt32) : Query (Option Bytes) where
  keyHash := njsAtomStringKey hash
  key := some key
  replace := false

def symbolQuery (atomId : ℕ) : Query (Option Bytes) where
  keyHash := njsAtomSymbolKey (UInt32.ofNat atomId)
  key := none
  replace := false

def njsAtomFind (vm : Vm) (key : Bytes) (hash : UInt32) : Option Value :=
  match njsFlathshFind (stringQuery key hash) vm.current with
  | some elt => some elt.value
  | none => (njsFlathshFind (stringQuery key hash) vm.atomHashShared).map Elt.value

def njsAtomAdd (mem : Bool) (junk : Junk) (vm : Vm) (data : Bytes) (hash : UInt32) :
    Vm × Option Value :=
  match njsFlathshInsert junk mem (stringQuery data hash) vm.current with
  | (some h, .ok, some elt) =>
    let value := Value.string vm.atomIdGenerator data
    let vm' := (vm.setCurrent (some (h.store elt (some data) value))).advance
    -- "too many atoms"
    if njsAtomIsNumber vm.atomIdGenerator then (vm', none) else (vm', some value)
  | (fh, _, _) => (vm.setCurrent fh, none)

/-- `njs_atom_symbol_add`: the id of the new symbol. -/
def njsAtomSymbolAdd (mem : Bool) (junk : Junk) (vm : Vm) (description : Option Bytes) :
    Vm × Option ℕ :=
  match njsFlathshUniqueInsert junk mem (symbolQuery vm.atomIdGenerator) vm.current with
  | (some h, .ok, some elt) =>
    let value := Value.symbol vm.atomIdGenerator description
    -- "too many atoms"
    if vm.advance.atomIdGenerator ≥ 0x80000000 then ((vm.setCurrent (some h)).advance, none)
    else ((vm.setCurrent (some (h.store elt none value))).advance, some vm.atomIdGenerator)
  | (fh, _, _) => (vm.setCurrent fh, none)

/-- One round of `njs_atom_hash_init`. -/
def hashInitStep (mem : Bool) (junk : Junk) (fh : AtomHash) (n : ℕ) : Def → Option AtomHash
  | .symbol description =>
    match njsFlathshUniqueInsert junk mem (symbolQuery n) fh with
    | (some h, .ok, some elt) => some (some (h.store elt none (.symbol n (some description))))
    | _ => none
  | .string s =>
    match njsFlathshInsert junk mem (stringQuery s (njsDjbHash s)) fh with
    | (some h, .ok, some elt) => some (some (h.store elt (some s) (.string n s)))
    | _ => none

/-- The loop of `njs_atom_hash_init`, over the atoms from the `n`-th on. -/
def hashInitLoop (mem : Bool) (junk : Junk) : ℕ → List Def → AtomHash → Option AtomHash
  | _, [], fh => some fh
  | n, d :: defs, fh => (hashInitStep mem junk fh n d).bind (hashInitLoop mem junk (n + 1) defs)

/-- `njs_atom_hash_init`, in the zeroed memory of a new machine. -/
def njsAtomHashInit (mem : Bool) (junk : Junk) : Option Vm :=
  (hashInitLoop mem junk 0 njsAtom none).map fun fh =>
    { atomHashShared := fh, atomHash := none, atomHashCurrent := .shared, sharedAtomCount := 0,
      atomIdGenerator := njsAtomSize }

def njsVmClone (vm : Vm) : Vm :=
  { vm with sharedAtomCount := vm.atomIdGenerator, atomHash := none, atomHashCurrent := .own }

section Numbers

variable {ν : Type} (f : Numbers ν)

/-- `njs_string_to_index` of a string that has no atom yet; no number stands for a NaN. -/
def njsStringToIndex (s : Bytes) : Option ν :=
  if s = lit "-0" then some f.negZero
  else
    let num := f.atod s
    if s = f.dtoa num then some num else none

/-- `njs_number_to_string`: the text, and the atom that the string has already. -/
def njsNumberToString (num : ν) : Bytes × Option ℕ :=
  if f.isNan num then (lit "NaN", some (njsAtom.idxOf (.string (lit "NaN"))))
  else if f.isInf num then
    if f.isNegative num then
      (lit "-Infinity", some (njsAtom.idxOf (.string (lit "-Infinity"))))
    else (lit "Infinity", some (njsAtom.idxOf (.string (lit "Infinity"))))
  else (f.dtoa num, none)

/-- The id of a string that is looked for in the table and put into it. -/
def atomizeString (mem : Bool) (junk : Junk) (vm : Vm) (s : Bytes) : Vm × Option ℕ :=
  match njsAtomFind vm s (njsDjbHash s) with
  | some (.string atomId _) => (vm, some atomId)
  | some (.symbol atomId _) => (vm, some atomId)
  | none =>
    match njsAtomAdd mem junk vm s (njsDjbHash s) with
    | (vm, some (.string atomId _)) => (vm, some atomId)
    | (vm, some (.symbol atomId _)) => (vm, some atomId)
    | (vm, none) => (vm, none)

/-- The unsigned integer of 31 bits that a number is equal to. -/
def Numbers.index (num : ν) : Option ℕ := (f.uint32 num).filter (· < 0x80000000)

/-- `njs_atom_atomize_key`: the id that the key gets. -/
def njsAtomAtomizeKey (mem : Bool) (junk : Junk) (vm : Vm) : Key ν → Vm × Option ℕ
  | .string s =>
    match (njsStringToIndex f s).bind fun num =>
      if f.isNegZero num then none else f.index num
    with
    | some u32 => (vm, some (njsNumberAtom u32))
    | none => atomizeString mem junk vm s
  | .number num =>
    match f.index num with
    | some u32 => (vm, some (njsNumberAtom u32))
    | none =>
      match njsNumberToString f num with
      | (s, none) => atomizeString mem junk vm s
      | (_, some atomId) => (vm, some atomId)

/-- The value of the `i`-th element of a table. -/
def eltValue (fh : AtomHash) (i : ℕ) : Option Value :=
  match fh with
  | some h => if i < h.eltsCount then some (h.elts i).value else none
  | none => none

def njsAtomToValue (vm : Vm) (atomId : ℕ) : Option Value :=
  if njsAtomIsNumber atomId then
    some (.string atomId (f.dtoa (f.ofUint32 (njsAtomNumber atomId))))
  else if atomId < vm.sharedAtomCount then eltValue vm.atomHashShared atomId
  else eltValue vm.current (atomId - vm.sharedAtomCount)

end Numbers

end Njs.Atom
