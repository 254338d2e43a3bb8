import Mathlib.Data.Int.Log
import Mathlib.Data.Rat.Floor
import Njs.Buffer.Heap
import Njs.Indices.Keys
import Njs.Lib.TwosComplement

/-!
# Elements of typed arrays

The bytes of an element are those of an integer in two's complement or of a double or a single of
IEEE 754. Elements are compared as numbers, negative zero before positive zero and a NaN last.
-/

namespace Njs.TypedArrays

open Buffer (ObjectType TypedArray Heap njsTypedArrayElementSize)
open Indices (Number)
open TwosComplement

/-- A number, where a NaN is `none`. -/
abbrev Num : Type := Option Number

/-! ### Numbers in memory -/

def loadUnsigned (l : Bytes) : ℤ := leValue l

def loadSigned (l : Bytes) : ℤ := ofBits true (8 * l.length) (leValue l)

/-- The number of a sign bit, an exponent and a mantissa of so many bits. -/
def readFloat (exponent mantissa n : ℕ) : Num :=
  let negative := n / 2 ^ (exponent + mantissa) % 2 = 1
  let e := n / 2 ^ mantissa % 2 ^ exponent
  let f := n % 2 ^ mantissa
  let bias := 2 ^ (exponent - 1) - 1
  if e = 2 ^ exponent - 1 then
    if f ≠ 0 then none else some (if negative then .negInfinity else .infinity)
  else
    let q : ℚ := if e = 0 then f * 2 ^ (1 - bias - mantissa : ℤ)
      else (2 ^ mantissa + f) * 2 ^ (e - bias - mantissa : ℤ)
    if q = 0 ∧ negative then some .negZero else some (.finite (if negative then -q else q))

def loadFloat (l : Bytes) : Num := readFloat 8 23 (leValue l)

def loadDouble (l : Bytes) : Num := readFloat 11 52 (leValue l)

/-- The functions `njs_typed_array_get_u8` to `njs_typed_array_get_f64`, by the types. -/
def njsTypedArrayGet : ObjectType → Bytes → Num
  | .uint8Array | .uint8ClampedArray | .uint16Array | .uint32Array =>
    fun v => some (.finite (loadUnsigned v))
  | .int8Array | .int16Array | .int32Array => fun v => some (.finite (loadSigned v))
  | .float32Array => loadFloat
  | .float64Array => loadDouble

/-! ### Comparisons -/

/-- The value of a number that is not a NaN. Both zeros have one value. -/
def extended : Number → WithBot (WithTop ℚ)
  | .finite q => ((q : WithTop ℚ) : WithBot (WithTop ℚ))
  | .negZero => ((0 : WithTop ℚ) : WithBot (WithTop ℚ))
  | .infinity => ((⊤ : WithTop ℚ) : WithBot (WithTop ℚ))
  | .negInfinity => ⊥

def signbit : Number → Bool
  | .finite q => q < 0
  | .negZero | .negInfinity => true
  | .infinity => false

/-- The difference that is the result for integers of 8 or 16 bits. -/
def compareSmall (a b : ℤ) : ℤ := a - b

/-- The difference of two tests that is the result for integers of 32 bits. -/
def compareLarge (a b : ℤ) : ℤ := (if b < a then 1 else 0) - if a < b then 1 else 0

def njsTypedArrayCompareI8 (a b : Bytes) : ℤ := compareSmall (loadSigned a) (loadSigned b)

def njsTypedArrayCompareU8 (a b : Bytes) : ℤ := compareSmall (loadUnsigned a) (loadUnsigned b)

def njsTypedArrayCompareI16 (a b : Bytes) : ℤ := compareSmall (loadSigned a) (loadSigned b)

def njsTypedArrayCompareU16 (a b : Bytes) : ℤ := compareSmall (loadUnsigned a) (loadUnsigned b)

def njsTypedArrayCompareI32 (a b : Bytes) : ℤ := compareLarge (loadSigned a) (loadSigned b)

def njsTypedArrayCompareU32 (a b : Bytes) : ℤ := compareLarge (loadUnsigned a) (loadUnsigned b)

def njsTypedArrayCompare : Num → Num → ℤ
  | none, none => 0
  | none, some _ => 1
  | some _, none => -1
  | some a, some b =>
    if extended a < extended b then -1
    else if extended b < extended a then 1
    else (signbit b).toNat - (signbit a).toNat

def njsTypedArrayCompareF32 (a b : Bytes) : ℤ := njsTypedArrayCompare (loadFloat a) (loadFloat b)

def njsTypedArrayCompareF64 (a b : Bytes) : ℤ := njsTypedArrayCompare (loadDouble a) (loadDouble b)

/-- The function that compares elements of a type. -/
def njsTypedArrayComparator : ObjectType → Bytes → Bytes → ℤ
  | .uint8Array | .uint8ClampedArray => njsTypedArrayCompareU8
  | .int8Array => njsTypedArrayCompareI8
  | .uint16Array => njsTypedArrayCompareU16
  | .int16Array => njsTypedArrayCompareI16
  | .uint32Array => njsTypedArrayCompareU32
  | .int32Array => njsTypedArrayCompareI32
  | .float32Array => njsTypedArrayCompareF32
  | .float64Array => njsTypedArrayCompareF64

/-! ### The order of numbers -/

/-- The order of numbers: negative zero is before positive zero, and a NaN is the last one. -/
def numericLE : Num → Num → Bool
  | _, none => true
  | none, some _ => false
  | some a, some b =>
    extended a < extended b ∨ extended a = extended b ∧ (signbit b = true → signbit a = true)

theorem numericLE_some {a b : Number} : numericLE (some a) (some b) = true ↔
    extended a < extended b ∨ extended a = extended b ∧ (signbit b = true → signbit a = true) := by
  rw [numericLE, decide_eq_true_eq]

theorem numericLE_total (x y : Num) : (numericLE x y || numericLE y x) = true := by
  rw [Bool.or_eq_true]
  obtain _ | a := x
  · exact .inr (by cases y <;> rfl)
  obtain _ | b := y
  · exact .inl rfl
  rw [numericLE_some, numericLE_some]
  obtain hlt | heq | hgt := lt_trichotomy (extended a) (extended b)
  · exact .inl (.inl hlt)
  · by_cases hb : signbit b = true
    · exact .inr (.inr ⟨heq.symm, fun _ => hb⟩)
    · exact .inl (.inr ⟨heq, fun h => absurd h hb⟩)
  · exact .inr (.inl hgt)

theorem numericLE_trans (x y z : Num) (hxy : numericLE x y = true) (hyz : numericLE y z = true) :
    numericLE x z = true := by
  obtain _ | c := z
  · cases x <;> rfl
  obtain _ | b := y
  · exact absurd hyz Bool.false_ne_true
  obtain _ | a := x
  · exact absurd hxy Bool.false_ne_true
  rw [numericLE_some] at hxy hyz ⊢
  obtain hab | ⟨hab, hsign⟩ := hxy
  · exact .inl (hab.trans_le (hyz.elim le_of_lt fun h => h.1.le))
  · obtain hbc | ⟨hbc, hsign'⟩ := hyz
    · exact .inl (hab ▸ hbc)
    · exact .inr ⟨hab.trans hbc, hsign ∘ hsign'⟩

theorem numericLE_antisymm {x y : Num} (hxy : numericLE x y = true) (hyx : numericLE y x = true) :
    x = y := by
  obtain _ | a := x <;> obtain _ | b := y
  · rfl
  · exact absurd hxy Bool.false_ne_true
  · exact absurd hyx Bool.false_ne_true
  rw [numericLE_some] at hxy hyx
  obtain hab | ⟨hab, hsign⟩ := hxy
  · obtain hba | ⟨hba, -⟩ := hyx
    · exact absurd hba hab.asymm
    · exact absurd hab hba.not_gt
  obtain hba | ⟨-, hsign'⟩ := hyx
  · exact absurd hba hab.not_gt
  -- numbers of one value and one sign
  cases a <;> cases b <;> simp_all [extended, signbit]

theorem numericLE_integer {m n : ℤ} :
    numericLE (some (.finite m)) (some (.finite n)) = true ↔ m ≤ n := by
  rw [numericLE_some, extended, extended, WithBot.coe_lt_coe, WithTop.coe_lt_coe, Int.cast_lt,
    WithBot.coe_inj, WithTop.coe_inj, Int.cast_inj]
  constructor
  · rintro (hlt | ⟨rfl, -⟩)
    · exact hlt.le
    · exact le_rfl
  · intro hle
    exact hle.lt_or_eq.imp id fun h => ⟨h, by rw [h]; exact id⟩

/-- The sign of a result says how two numbers are ordered. -/
def Agrees (le : Num → Num → Bool) (r : ℤ) (x y : Num) : Prop :=
  (r ≤ 0 ↔ le x y = true) ∧ (0 ≤ r ↔ le y x = true)

theorem agrees_small (m n : ℤ) :
    Agrees numericLE (compareSmall m n) (some (.finite m)) (some (.finite n)) := by
  rw [Agrees, numericLE_integer, numericLE_integer, compareSmall]
  omega

theorem agrees_large (m n : ℤ) :
    Agrees numericLE (compareLarge m n) (some (.finite m)) (some (.finite n)) := by
  rw [Agrees, numericLE_integer, numericLE_integer, compareLarge]
  split_ifs <;> omega

theorem agrees_njsTypedArrayCompare (x y : Num) : Agrees numericLE (njsTypedArrayCompare x y) x y
    := by
  obtain _ | a := x <;> obtain _ | b := y
  · exact ⟨iff_of_true le_rfl rfl, iff_of_true le_rfl rfl⟩
  · exact ⟨iff_of_false Int.one_pos.not_ge Bool.false_ne_true, iff_of_true Int.one_nonneg rfl⟩
  · have hneg : (-1 : ℤ) < 0 := by decide
    exact ⟨iff_of_true hneg.le rfl, iff_of_false hneg.not_ge Bool.false_ne_true⟩
  rw [Agrees, numericLE_some, numericLE_some, njsTypedArrayCompare]
  split_ifs with hlt hgt
  · exact ⟨iff_of_true (by decide) (.inl hlt),
      iff_of_false (by decide) fun h => h.elim hlt.asymm fun h => hlt.ne' h.1⟩
  · exact ⟨iff_of_false (by decide) fun h => h.elim hlt fun h => hgt.ne' h.1,
      iff_of_true (by decide) (.inl hgt)⟩
  · have heq : extended a = extended b := le_antisymm (not_lt.1 hgt) (not_lt.1 hlt)
    simp only [heq, lt_irrefl, false_or, true_and]
    cases signbit a <;> cases signbit b <;> decide

theorem agrees_njsTypedArrayComparator (type : ObjectType) (a b : Bytes) :
    Agrees numericLE (njsTypedArrayComparator type a b) (njsTypedArrayGet type a)
      (njsTypedArrayGet type b) := by
  cases type with
  | uint8Array | uint8ClampedArray | int8Array | uint16Array | int16Array => exact agrees_small _ _
  | uint32Array | int32Array => exact agrees_large _ _
  | float32Array | float64Array => exact agrees_njsTypedArrayCompare _ _

/-! ### Elements of a view -/

def chunks (m : Memory) (p k n : ℕ) : List Bytes := (List.range n).map fun i => m.read (p + i * k) k

@[simp] theorem length_chunks (m : Memory) (p k n : ℕ) : (chunks m p k n).length = n := by
  rw [chunks, List.length_map, List.length_range]

theorem length_of_mem_chunks {m : Memory} {p k n : ℕ} {l : Bytes} (h : l ∈ chunks m p k n) :
    l.length = k := by
  obtain ⟨i, -, rfl⟩ := List.mem_map.1 h
  exact Memory.length_read _ _ _

variable {ls : List Bytes}

theorem length_flatten {k : ℕ} (h : ∀ l ∈ ls, l.length = k) :
    ls.flatten.length = ls.length * k := by
  induction ls with
  | nil => simp
  | cons l ls ih =>
    obtain ⟨hl, hls⟩ := List.forall_mem_cons.1 h
    rw [List.flatten_cons, List.length_append, hl, ih hls, List.length_cons, Nat.succ_mul,
      Nat.add_comm]

theorem take_drop_flatten {k : ℕ} (h : ∀ l ∈ ls, l.length = k) {i : ℕ} (hi : i < ls.length) :
    (ls.flatten.drop (i * k)).take k = ls[i] := by
  induction ls generalizing i with
  | nil => exact absurd hi (Nat.not_lt_zero i)
  | cons l ls ih =>
    obtain ⟨hl, hls⟩ := List.forall_mem_cons.1 h
    rw [List.flatten_cons]
    cases i with
    | zero => rw [Nat.zero_mul, List.drop_zero, ← hl, List.take_left, List.getElem_cons_zero]
    | succ i =>
      have hdrop : (l ++ ls.flatten).drop ((i + 1) * k) = ls.flatten.drop (i * k) := by
        rw [Nat.succ_mul, Nat.add_comm, ← List.drop_drop, ← hl, List.drop_left]
      rw [hdrop, ih hls (Nat.lt_of_succ_lt_succ hi), List.getElem_cons_succ]

theorem chunks_write (m : Memory) (p : ℕ) {k : ℕ} (h : ∀ l ∈ ls, l.length = k) :
    chunks (m.write p ls.flatten) p k ls.length = ls := by
  refine List.ext_getElem (length_chunks _ _ _ _) fun i hi hi' => ?_
  have hfits : i * k + k ≤ ls.flatten.length := by
    rw [length_flatten h, ← Nat.succ_mul]
    exact Nat.mul_le_mul_right k hi'
  simp only [chunks, List.getElem_map, List.getElem_range]
  rw [← Memory.take_drop_read hfits, Memory.read_write, take_drop_flatten h hi']

def njsTypedArrayLength (array : TypedArray) : ℕ :=
  array.byteLength / njsTypedArrayElementSize array.type

def elementBytes (h : Heap) (array : TypedArray) : List Bytes :=
  match (h.buffer array.buffer).data with
  | none => []
  | some d => chunks (h.block d) array.start (njsTypedArrayElementSize array.type)
      (njsTypedArrayLength array)

/-- The numbers of a view. -/
def elements (h : Heap) (array : TypedArray) : List Num :=
  (elementBytes h array).map (njsTypedArrayGet array.type)

variable {h h' : Heap} {array : TypedArray} {d : ℕ}

theorem elementBytes_of_data (hdata : (h.buffer array.buffer).data = some d) :
    elementBytes h array = chunks (h.block d) array.start (njsTypedArrayElementSize array.type)
      (njsTypedArrayLength array) := by
  rw [elementBytes, hdata]

theorem length_elementBytes (hdata : (h.buffer array.buffer).data ≠ none) :
    (elementBytes h array).length = njsTypedArrayLength array := by
  obtain ⟨d, hd⟩ := Option.ne_none_iff_exists'.1 hdata
  rw [elementBytes_of_data hd, length_chunks]

theorem length_of_mem_elementBytes {l : Bytes} (hl : l ∈ elementBytes h array) :
    l.length = njsTypedArrayElementSize array.type := by
  rw [elementBytes] at hl
  split at hl
  · exact absurd hl List.not_mem_nil
  · exact length_of_mem_chunks hl

theorem length_mul_le (array : TypedArray) :
    njsTypedArrayLength array * njsTypedArrayElementSize array.type ≤ array.byteLength :=
  Nat.div_mul_le_self _ _

theorem elementBytes_congr (hwithin : array.Within h)
    (hdata : (h.buffer array.buffer).data ≠ none) (hdata' : (h'.buffer array.buffer).data ≠ none)
    (hsame : ∀ i, array.start ≤ i → i < array.start + array.byteLength →
      h'.get array.buffer i = h.get array.buffer i) :
    elementBytes h' array = elementBytes h array := by
  obtain ⟨d, hd⟩ := Option.ne_none_iff_exists'.1 hdata
  obtain ⟨d', hd'⟩ := Option.ne_none_iff_exists'.1 hdata'
  have hfits := hwithin.fits hdata
  rw [elementBytes_of_data hd, elementBytes_of_data hd', chunks, chunks]
  refine List.map_congr_left fun i hi => Memory.read_congr fun j hj => ?_
  have hplace : i * njsTypedArrayElementSize array.type + j < array.byteLength := by
    have hi := Nat.mul_le_mul_right (njsTypedArrayElementSize array.type)
      (Nat.succ_le_of_lt (List.mem_range.1 hi))
    rw [Nat.succ_mul] at hi
    have := length_mul_le array
    omega
  have hget := hsame (array.start + i * njsTypedArrayElementSize array.type + j) (by omega)
    (by omega)
  rw [Heap.get_of_data hd, if_pos (by rw [TypedArray.start]; omega)] at hget
  exact Heap.get_eq_some hd' hget

theorem elementBytes_store (hdata : (h.buffer array.buffer).data = some d)
    (hlength : ls.length = njsTypedArrayLength array)
    (hls : ∀ l ∈ ls, l.length = njsTypedArrayElementSize array.type) :
    elementBytes (h.store d ((h.block d).write array.start ls.flatten)) array = ls := by
  have hdata' : ((h.store d ((h.block d).write array.start ls.flatten)).buffer array.buffer).data =
      some d := hdata
  rw [elementBytes_of_data hdata', Heap.store]
  dsimp only
  rw [if_pos rfl, ← hlength, chunks_write _ _ hls]

end Njs.TypedArrays

/-!
## Numbers that are stored

A number is stored as an element of the type of a typed array: as an integer modulo a power of two,
as an integer that is held to the range of a byte, or rounded to a single or a double of IEEE 754.
-/

namespace Njs.TypedArrays

open Buffer (ObjectType njsTypedArrayElementSize)
open Indices (Number)
open TwosComplement

/-- `lrint`: the nearest integer, and the even one of two. -/
def lrint (q : ℚ) : ℤ :=
  let n := ⌊q⌋
  if q - n < 1 / 2 then n
  else if 1 / 2 < q - n then n + 1
  else if n % 2 = 0 then n else n + 1

/-- The bits of a positive number, from the exponent on. What is too large is infinite. -/
def writeMagnitude (exponent mantissa : ℕ) (q : ℚ) : ℕ :=
  let bias : ℤ := 2 ^ (exponent - 1) - 1
  let e := max (Int.log 2 q) (1 - bias)
  let m := lrint (q / 2 ^ (e - mantissa))
  min ((e + bias - 1) * 2 ^ mantissa + m).toNat ((2 ^ exponent - 1) * 2 ^ mantissa)

def writeFloat (exponent mantissa : ℕ) : Num → ℕ
  | none => (2 ^ exponent - 1) * 2 ^ mantissa + 2 ^ (mantissa - 1)
  | some .infinity => (2 ^ exponent - 1) * 2 ^ mantissa
  | some .negInfinity => 2 ^ (exponent + mantissa) + (2 ^ exponent - 1) * 2 ^ mantissa
  | some .negZero => 2 ^ (exponent + mantissa)
  | some (.finite q) =>
    if q = 0 then 0
    else if q < 0 then 2 ^ (exponent + mantissa) + writeMagnitude exponent mantissa (-q)
    else writeMagnitude exponent mantissa q

/-- `njs_number_to_int32`, before it is cut to 32 bits. -/
def njsNumberToInt32 : Num → ℤ
  | some (.finite q) => if 0 ≤ q then ⌊q⌋ else -⌊-q⌋
  | _ => 0

/-- The byte of a number in an array that is clamped. -/
def clamped : Num → ℤ
  | none | some .negInfinity | some .negZero => 0
  | some .infinity => 255
  | some (.finite q) => if q < 0 then 0 else if 255 < q then 255 else lrint q

/-- What `njs_typed_array_prop_set` stores, by the types. -/
def njsTypedArrayPropBytes : ObjectType → Num → Bytes
  | .uint8ClampedArray => fun v => bytesOf 1 (clamped v)
  | .uint8Array | .int8Array => fun v => bytesOf 1 (njsNumberToInt32 v)
  | .uint16Array | .int16Array => fun v => bytesOf 2 (njsNumberToInt32 v)
  | .uint32Array | .int32Array => fun v => bytesOf 4 (njsNumberToInt32 v)
  | .float32Array => fun v => leBytes 4 (writeFloat 8 23 v)
  | .float64Array => fun v => leBytes 8 (writeFloat 11 52 v)

/-! A single is rounded, and a number is taken modulo 256. -/

example : njsTypedArrayPropBytes .uint8Array (some (.finite (-3 / 2))) = [255] := by decide +kernel

example : loadFloat (njsTypedArrayPropBytes .float32Array (some (.finite (-3 / 2)))) =
    some (.finite (-3 / 2)) := by decide +kernel

end Njs.TypedArrays
