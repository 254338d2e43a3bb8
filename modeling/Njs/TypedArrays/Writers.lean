import Njs.Decoding.Stream
import Njs.Sorting.Machine
import Njs.TypedArrays.Creation

/-!
# Functions that write

Most functions ask for a block that may be written before they write to an array buffer. Some write
to the block that the array buffer has.
-/

namespace Njs.TypedArrays.Native

open Buffer (TypedArray ObjectType njsTypedArrayElementSize)
open Decoding (njsUtf8Size passesFor)
open Query (UnicodeDecode njsUtf8Decode njsUtf8DecodeInit njsUnicodeMaxCodepoint)
open Simulation (exec)
open Reentrant (Ends ends_forM ends_get ends_ite ends_modify ends_pure ends_test ends_throw)
open Sorting (Answer)

section

variable (overflow : BitVec 64)

/-! ### Elements -/

/-- `njs_typed_array_set_value`, for an index that is in the array. -/
def njsTypedArraySetValue (array : TypedArray) (index : ℕ) (setval : Script Num) : Native Unit := do
  let num ← script setval
  if ((← get).heap.buffer array.buffer).data = none then return ⟨⟩
  else do
    let _ ← writable array.buffer
    njsTypedArrayPropSet array index num

/-- The tests of `njs_typed_array_prototype_set` before the source is looked at. -/
def setOffset (self : TypedArray) (offset : Integer) : Native ℕ := do
  let offset ← njsValueToInteger overflow offset
  if offset < 0 then raise (.rangeError "offset is out of bounds")
  else do
    let _ ← writable self.buffer
    return offset.toNat

/-- `njs_typed_array_prototype_set`, for a typed array. Each element is read just before it is
stored. -/
def njsTypedArrayPrototypeSetTyped (self src : TypedArray) (offset : Integer) : Native Unit := do
  let offset ← setOffset overflow self offset
  let length := njsTypedArrayLength self
  let _ ← attached src.buffer
  let srcLength := njsTypedArrayLength src
  if length < srcLength ∨ length - srcLength < offset then
    raise (.rangeError "source is too large")
  else
    forM (List.range (min srcLength (length - offset))) fun i => do
      njsTypedArrayPropSet self (offset + i) (← load src i)

/-- `njs_typed_array_prototype_set`, for another object. -/
def njsTypedArrayPrototypeSetObject (self : TypedArray) (srcLength : Integer)
    (item : ℕ → Script Num) (offset : Integer) : Native Unit := do
  let offset ← setOffset overflow self offset
  let length := njsTypedArrayLength self
  let srcLength ← njsValueToLength srcLength
  if length < srcLength ∨ length - srcLength < offset then
    raise (.rangeError "source is too large")
  else
    forM (List.range (min srcLength (length - offset))) fun i => do
      let num ← script (item i)
      let _ ← attached self.buffer
      njsTypedArrayPropSet self (offset + i) num

def njsTypedArrayPrototypeFill (array : TypedArray) (value : Script Num) (start stop : Integer) :
    Native Unit := do
  let _ ← attached array.buffer
  let length ← uint32 (njsTypedArrayLength array)
  let num ← script value
  let start ← relativeTo length (← njsValueToInteger overflow start)
  let stop ← if stop.isSome then njsValueToInteger overflow stop else pure (length : ℤ)
  let stop ← relativeTo length stop
  let _ ← writable array.buffer
  forM (List.range (stop - start)) fun i => njsTypedArrayPropSet array (start + i) num

def njsTypedArrayPrototypeCopyWithin (array : TypedArray) (target start stop : Integer) :
    Native Unit := do
  let _ ← attached array.buffer
  let length ← uint32 (njsTypedArrayLength array)
  let target ← relativeTo length (← njsValueToInteger overflow target)
  let start ← relativeTo length (← njsValueToInteger overflow start)
  let final ← if stop.isSome then njsValueToInteger overflow stop else pure (length : ℤ)
  let final ← relativeTo length final
  let count := min (final - start) (length - target)
  if count = 0 then return ⟨⟩
  else do
    let d ← writable array.buffer
    let elementSize := njsTypedArrayElementSize array.type
    put array.buffer ((target + array.offset) * elementSize)
      (((← get).heap.block d).read ((start + array.offset) * elementSize) (count * elementSize))

/-! ### Whole arrays -/

def njsTypedArrayCopy (self : TypedArray) : Native TypedArray := do
  let length ← uint32 (njsTypedArrayLength self)
  let array ← njsTypedArrayAlloc overflow (.index (number length)) false self.type
  let d ← attached self.buffer
  put array.buffer 0 (((← get).heap.block d).read self.start self.byteLength)
  return array

/-- `njs_swap_u8` and the like. -/
def njsSwap (array : TypedArray) (i j : ℕ) : Native Unit := do
  let elementSize := njsTypedArrayElementSize array.type
  let d ← attached array.buffer
  let m := (← get).heap.block d
  put array.buffer ((array.offset + i) * elementSize)
    (m.read ((array.offset + j) * elementSize) elementSize)
  put array.buffer ((array.offset + j) * elementSize)
    (m.read ((array.offset + i) * elementSize) elementSize)

/-- `njs_typed_array_prototype_reverse`, from the length on. -/
def reverseArray (array : TypedArray) : Native Unit := do
  let length := njsTypedArrayLength array
  let _ ← writable array.buffer
  forM (List.range (length / 2)) fun i => njsSwap array i (length - i - 1)

def njsTypedArrayPrototypeReverse (array : TypedArray) : Native Unit := do
  let _ ← attached array.buffer
  reverseArray array

/-- `njs_typed_array_prototype_reverse` for `toReversed`. -/
def njsTypedArrayPrototypeToReversed (self : TypedArray) : Native TypedArray := do
  let _ ← attached self.buffer
  let array ← njsTypedArrayCopy overflow self
  reverseArray array
  return array

/-- A function of script that compares numbers. -/
abbrev Compare : Type := Num → Num → Script Answer

/-- `njs_typed_array_generic_compare`. After an exception script is not called any more. -/
def genericCompare (array : TypedArray) (f : Compare) (ctx : World × Option Exception)
    (a b : Bytes) : ℤ × World × Option Exception :=
  match ctx with
  | (w, some e) => (0, w, some e)
  | (w, none) =>
    let get := njsTypedArrayGet array.type
    match exec (f (get a) (get b)) w with
    | (.error e, w) => (0, w, some e)
    | (.ok num, w) =>
      if (w.heap.buffer array.buffer).data = none then
        (0, w, some (.thrown (.typeError "detached buffer")))
      else (sign num, w, none)

/-- `njs_typed_array_prototype_sort`, from `njs_typed_array_writable` on. With a function a copy of
the elements is sorted. -/
def sortElements (array : TypedArray) (function : Option Compare) : Native Unit := do
  let d ← writable array.buffer
  let length := njsTypedArrayLength array
  let elementSize := njsTypedArrayElementSize array.type
  let w ← get
  match function with
  | none => do
    let cmp := fun (_ : Unit) a b => (njsTypedArrayComparator array.type a b, ())
    match (Sorting.Machine.njsQsort ⟨array.start, length, elementSize, cmp⟩ (3 * length + 3)
        fun _ => ⟨0, 0⟩).run (w.heap.block d, ()) with
    | .error _ => throw .crash
    | .ok (_, m, _) =>
      put array.buffer array.start (m.read array.start (length * elementSize))
  | some f => do
    let base := fun i => w.heap.block d (array.start + i)
    match (Sorting.Machine.njsQsort ⟨0, length, elementSize, genericCompare array f⟩
        (3 * length + 3) fun _ => ⟨0, 0⟩).run (base, w, none) with
    | .error _ => throw .crash
    | .ok (_, m, w, exception) => do
      modify fun _ => w
      match exception with
      | some e => throw (.exception e)
      | none =>
        if (w.heap.buffer array.buffer).data = some d then
          put array.buffer array.start (m.read 0 (length * elementSize))
        else return ⟨⟩

def njsTypedArrayPrototypeSort (array : TypedArray) (comparefn : Option Compare) : Native Unit := do
  let _ ← attached array.buffer
  sortElements array comparefn

/-- `njs_typed_array_prototype_sort` for `toSorted`. -/
def njsTypedArrayPrototypeToSorted (self : TypedArray) (comparefn : Option Compare) :
    Native TypedArray := do
  let _ ← attached self.buffer
  let array ← njsTypedArrayCopy overflow self
  sortElements array comparefn
  return array

/-- `njs_typed_array_prototype_iterator` for `map`. -/
def njsTypedArrayPrototypeMap (array : TypedArray) (callback : ℕ → Num → Script (Script Num))
    (constructor : Constructor) : Native TypedArray := do
  let length := njsTypedArrayLength array
  let dst ← njsTypedArrayCreate overflow constructor (.index (number length)) (some length)
  forM (List.range length) fun i => do
    let _ ← attached array.buffer
    let retval ← script (callback i (← load array i))
    njsTypedArraySetValue dst i retval
  return dst

/-- The loop of `njs_typed_array_prototype_iterator` for `filter`. -/
def filterLoop (array : TypedArray) (callback : ℕ → Num → Script Bool) : List ℕ → Native (List Num)
  | [] => return []
  | i :: l => do
    let _ ← attached array.buffer
    let val ← load array i
    let keep ← script (callback i val)
    let results ← filterLoop array callback l
    return if keep then val :: results else results

/-- `njs_typed_array_prototype_iterator` for `filter`. -/
def njsTypedArrayPrototypeFilter (array : TypedArray) (callback : ℕ → Num → Script Bool)
    (constructor : Constructor) : Native TypedArray := do
  let results ← filterLoop array callback (List.range (njsTypedArrayLength array))
  let dst ← njsTypedArrayCreate overflow constructor (.index (number results.length))
    (some results.length)
  forM results.zipIdx fun r => njsTypedArraySetValue dst r.2 (pure r.1)
  return dst

/-! ### DataViews and other functions -/

/-- `njs_data_view_prototype_set`, up to the store. -/
def dataViewSetTarget (view : DataView) (type : ObjectType) (index : Integer)
    (value : Script Num) : Native (ℕ × Num) := do
  let index ← njsValueToIndex overflow index
  let v ← script value
  let _ ← attached view.buffer
  if view.byteLength < njsTypedArrayElementSize type + index then
    raise (.rangeError ("index " ++ toString index ++ " is outside the bound of the buffer"))
  else return (index, v)

/-- `njs_data_view_prototype_set`. No block is asked for that may be written. -/
def njsDataViewPrototypeSet (view : DataView) (type : ObjectType) (index : Integer)
    (value : Script Num) (littleEndian : Bool) : Native Unit := do
  let (index, v) ← dataViewSetTarget overflow view type index value
  let bytes := njsTypedArrayPropBytes type v
  put view.buffer (index + view.offset) (if littleEndian then bytes else bytes.reverse)

/-- The bytes that `njs_text_encoder_encode_into` writes to some room. -/
def encodeIntoLoop : ℕ → UnicodeDecode → Bytes → ℕ → Bytes
  | 0, _, _, _ => []
  | passes + 1, ctx, start, room =>
    if start = [] then []
    else
      let (cp, ctx, start) := njsUtf8Decode ctx start
      let cp := if njsUnicodeMaxCodepoint < cp then 0xfffd else cp
      let size := njsUtf8Size cp
      if room < size then []
      else SharedDict.njsUtf8Encode (UInt32.ofNat cp) ++ encodeIntoLoop passes ctx start (room -
        size)

/-- `njs_text_encoder_encode_into`, up to the stores. -/
def encodeIntoTarget (dest : TypedArray) (input : Script Bytes) : Native Bytes := do
  let str ← script input
  if dest.type ≠ .uint8Array then
    raise (.typeError "The \"destination\" argument must be an instance of Uint8Array")
  else do
    let _ ← attached dest.buffer
    return encodeIntoLoop (passesFor str) njsUtf8DecodeInit str dest.byteLength

def njsTextEncoderEncodeInto (dest : TypedArray) (input : Script Bytes) : Native Unit := do
  let bytes ← encodeIntoTarget dest input
  if bytes = [] then return ⟨⟩ else put dest.buffer dest.start bytes

/-- The array buffer of a value, the place and the length that `njs_vm_value_to_bytes` finds there.
The offset of a typed array is taken for one in bytes. -/
def valueToBytes : View ⊕ ℕ → World → ℕ × ℕ × ℕ
  | .inl (.typedArray array), _ => (array.buffer, array.offset, array.byteLength)
  | .inl (.dataView view), _ => (view.buffer, view.offset, view.byteLength)
  | .inr b, w => (b, 0, (w.heap.buffer b).size)

/-- `njs_ext_get_random_values`, for random bytes. -/
def njsExtGetRandomValues (value : View ⊕ ℕ) (random : ℕ → Bytes) : Native Unit := do
  let (b, offset, length) := valueToBytes value (← get)
  if ((← get).heap.buffer b).data = none then
    if length = 0 then return ⟨⟩ else raise (.typeError "detached buffer")
  else if 65536 < length then raise (.typeError "requested length exceeds 65536 bytes")
  else if length = 0 then return ⟨⟩
  else put b offset (random length)

/-- `njs_value_buffer_get`: the block, the place and the length. -/
def njsValueBufferGet (value : View) : Native (ℕ × ℕ × ℕ) := do
  let (b, offset, length) := valueToBytes (.inl value) (← get)
  let d ← writable b
  return (d, offset, length)

/-- `njs_fs_read`. Bytes that are read are stored where the value was at first. -/
def njsFsRead (value : View) (offset length position : Integer)
    (read : ℤ → ℕ → Option Bytes) : Native Unit := do
  let b := (valueToBytes (.inl value) (← get)).1
  let (d, start, dataLength) ← njsValueBufferGet value
  let offset ← njsValueToInteger overflow offset
  if offset < 0 ∨ (dataLength : ℤ) < offset then
    raise (.rangeError ("offset is out of range (must be <= " ++ toString dataLength ++ ")"))
  else do
    let rest := dataLength - offset.toNat
    let length ← if length.isSome then njsValueToInteger overflow length else pure (rest : ℤ)
    if length < 0 ∨ (rest : ℤ) < length then
      raise (.rangeError ("length is out of range (must be <= " ++ toString rest ++ ")"))
    else do
      let pos ← if position.isSome then njsValueToInteger overflow position else pure (-1)
      match read pos length.toNat with
      | none => throw (.exception .script)
      | some bytes => poke b d (start + offset.toNat) bytes

end

/-! ### What the functions keep -/

section

variable {lent : ℕ → Memory} {w : World} {overflow : BitVec 64}
  {array self src : TypedArray} {offset start stop : Integer}

theorem ends_njsTypedArraySetValue {index : ℕ} {setval : Script Num}
    (hw : (frame lent).Inv w) (hb : array.buffer < w.count)
    (hsetval : GoodScript lent setval) :
    Ends (frame lent) (njsTypedArraySetValue array index setval) w fun _ _ => True := by
  refine (ends_script hsetval hw).bind fun num t _ ht hlater _ => ?_
  refine ends_get (ends_ite (fun _ => ends_pure ht trivial)
    fun _ => ?_)
  refine (ends_writable ht).bind fun d t' _ ht' hlater' ho => ?_
  exact ends_put ht' (ho.2.mayWrite (hb.trans_le (hlater.trans hlater').count_le))

theorem ends_setOffset (hw : (frame lent).Inv w) (hb : self.buffer < w.count)
    (hoffset : GoodInteger lent offset) :
    Ends (frame lent) (setOffset overflow self offset) w fun _ t => MayWrite t self.buffer := by
  refine (ends_njsValueToInteger hoffset hw).bind fun n t _ ht hlater _ => ?_
  refine ends_test ht fun _ => ?_
  refine (ends_writable ht).bind fun d t' _ ht' hlater' ho => ?_
  exact ends_pure ht' (ho.2.mayWrite (hb.trans_le (hlater.trans hlater').count_le))

theorem ends_njsTypedArrayPrototypeSetTyped (hw : (frame lent).Inv w)
    (hb : self.buffer < w.count) (hoffset : GoodInteger lent offset) :
    Ends (frame lent) (njsTypedArrayPrototypeSetTyped overflow self src offset) w
      fun _ _ => True := by
  refine (ends_setOffset hw hb hoffset).bind fun offset t _ ht _ hb => ?_
  refine (ends_attached ht).bind ?_
  rintro d t' - ht - ⟨rfl, -⟩
  refine ends_test ht fun _ => ?_
  exact ends_storeItems ht hb (fun i w hw => (ends_load hw).mono fun _ _ _ _ _ _ => trivial)
    (fun i v w hw hb => ends_njsTypedArrayPropSet hw hb _ v) _

theorem ends_njsTypedArrayPrototypeSetObject {srcLength : Integer} {item : ℕ → Script Num}
    (hw : (frame lent).Inv w) (hb : self.buffer < w.count)
    (hlength : GoodInteger lent srcLength) (hitem : ∀ i, GoodScript lent (item i))
    (hoffset : GoodInteger lent offset) :
    Ends (frame lent) (njsTypedArrayPrototypeSetObject overflow self srcLength item offset) w
      fun _ _ => True := by
  refine (ends_setOffset hw hb hoffset).bind fun offset t _ ht _ hb => ?_
  refine (ends_njsValueToLength hlength ht).bind fun n t' _ ht' hlater _ => ?_
  refine ends_test ht' fun _ => ?_
  refine ends_storeItems (g := fun i num => do
    let _ ← attached self.buffer
    njsTypedArrayPropSet self (offset + i) num) ht' (hb.later hlater)
    (fun i w hw => (ends_script (hitem i) hw).mono fun _ _ _ _ _ _ => trivial)
    (fun i v w hw hb => ?_) _
  refine (ends_attached hw).bind ?_
  rintro d t' - ht - ⟨rfl, -⟩
  exact ends_njsTypedArrayPropSet ht hb _ v

theorem ends_optional {α : Type} {Q : α → World → Prop} {arg : Integer} {n : ℤ} {f : ℤ → Native α}
    (hw : (frame lent).Inv w) (harg : GoodInteger lent arg) (hn : -2 ^ 63 ≤ n)
    (hf : ∀ k t, (frame lent).Inv t → Later w t → -2 ^ 63 ≤ k → Ends (frame lent) (f k) t Q) :
    Ends (frame lent) (do
      let k ← if arg.isSome then njsValueToInteger overflow arg else pure n
      f k) w Q := by
  refine ends_ite (fun _ => ?_) fun _ => ?_
  · exact (ends_njsValueToInteger harg hw).bind fun k t _ ht hlater hk => hf k t ht hlater hk.1
  · exact (ends_pure (Q := fun k _ => -2 ^ 63 ≤ k) hw hn).bind
      fun k t _ ht hlater hk => hf k t ht hlater hk

theorem ends_stop {α : Type} {Q : α → World → Prop} {length : ℕ} {f : ℕ → Native α}
    (hw : (frame lent).Inv w) (hlength : length < 2 ^ 32) (hstop : GoodInteger lent stop)
    (hf : ∀ k t, (frame lent).Inv t → Later w t → Ends (frame lent) (f k) t Q) :
    Ends (frame lent) (do
      let stop ← if stop.isSome then njsValueToInteger overflow stop else pure (length : ℤ)
      f (← relativeTo length stop)) w Q := by
  refine ends_optional hw hstop (by omega) fun n t ht hlater hn => ?_
  refine (ends_relativeTo ht hn hlength).bind ?_
  rintro k t' - ht' - ⟨-, rfl⟩
  exact hf k t' ht' hlater

theorem ends_njsTypedArrayPrototypeFill {value : Script Num} (hw : (frame lent).Inv w)
    (harray : (View.typedArray array).Within w) (hvalue : GoodScript lent value)
    (hstart : GoodInteger lent start) (hstop : GoodInteger lent stop) :
    Ends (frame lent) (njsTypedArrayPrototypeFill overflow array value start stop) w
      fun _ _ => True := by
  have hlength := length_lt harray
  refine (ends_attached hw).bind ?_
  rintro d t - ht - ⟨rfl, -⟩
  refine (ends_uint32 ht hlength).bind ?_
  rintro n t' - ht - ⟨rfl, rfl⟩
  refine (ends_script hvalue ht).bind fun num t₁ _ ht hlater _ => ?_
  refine (ends_njsValueToInteger hstart ht).bind fun n t₂ _ ht hlater₂ hn => ?_
  refine (ends_relativeTo ht hn.1 hlength).bind ?_
  rintro start t₃ - ht - ⟨-, rfl⟩
  refine ends_stop ht hlength hstop fun stop t₄ ht hlater₃ => ?_
  refine (ends_writable ht).bind fun d t₅ _ ht hlater₄ ho => ?_
  have hlater := ((hlater.trans hlater₂).trans hlater₃).trans hlater₄
  exact ends_storeItems (f := fun _ => pure num) ht
    (ho.2.mayWrite (harray.1.trans_le hlater.count_le))
    (fun _ _ hw => ends_pure hw trivial)
    (fun i v w hw hb => ends_njsTypedArrayPropSet hw hb _ v) _

theorem ends_njsTypedArrayPrototypeCopyWithin {target : Integer} (hw : (frame lent).Inv w)
    (harray : (View.typedArray array).Within w) (htarget : GoodInteger lent target)
    (hstart : GoodInteger lent start) (hstop : GoodInteger lent stop) :
    Ends (frame lent) (njsTypedArrayPrototypeCopyWithin overflow array target start stop) w
      fun _ _ => True := by
  have hlength := length_lt harray
  refine (ends_attached hw).bind ?_
  rintro d t - ht - ⟨rfl, -⟩
  refine (ends_uint32 ht hlength).bind ?_
  rintro n t' - ht - ⟨rfl, rfl⟩
  refine (ends_njsValueToInteger htarget ht).bind fun n t₁ _ ht hlater hn => ?_
  refine (ends_relativeTo ht hn.1 hlength).bind ?_
  rintro target t₂ - ht - ⟨-, rfl⟩
  refine (ends_njsValueToInteger hstart ht).bind fun n t₃ _ ht hlater₂ hn => ?_
  refine (ends_relativeTo ht hn.1 hlength).bind ?_
  rintro start t₄ - ht - ⟨-, rfl⟩
  refine ends_stop ht hlength hstop fun stop t₅ ht hlater₃ => ?_
  refine ends_ite (fun _ => ends_pure ht trivial) fun _ => ?_
  refine (ends_writable ht).bind fun d t₆ _ ht hlater₄ ho => ?_
  have hlater := ((hlater.trans hlater₂).trans hlater₃).trans hlater₄
  exact ends_get (ends_put ht (ho.2.mayWrite (harray.1.trans_le hlater.count_le)))

/-! #### Whole arrays -/

theorem ends_njsTypedArrayCopy (hw : (frame lent).Inv w) (hself : (View.typedArray self).Within w) :
    Ends (frame lent) (njsTypedArrayCopy overflow self) w fun array t =>
      (View.typedArray array).Within t ∧ MayWrite t array.buffer := by
  refine (ends_uint32 hw (length_lt hself)).bind ?_
  rintro n t - ht - ⟨rfl, rfl⟩
  have hargs : (Source.index (number (njsTypedArrayLength self))).Good lent t :=
    goodInteger_number _
  refine (ends_njsTypedArrayAlloc ht hargs).bind fun array t₁ _ ht hlater ⟨hwithin, hnew⟩ => ?_
  have hb : MayWrite t₁ array.buffer := ⟨hwithin.1, fun _ _ => hnew trivial⟩
  refine (ends_attached ht).bind ?_
  rintro d t₂ - ht - ⟨rfl, -⟩
  refine ends_get ((ends_put ht hb).bind fun _ t₃ _ ht hlater _ => ?_)
  exact ends_pure ht ⟨hwithin.later hlater, hb.later hlater⟩

theorem ends_njsSwap (hw : (frame lent).Inv w) (hb : MayWrite w array.buffer) (i j : ℕ) :
    Ends (frame lent) (njsSwap array i j) w fun _ t => MayWrite t array.buffer := by
  refine (ends_attached hw).bind ?_
  rintro d t - ht - ⟨rfl, -⟩
  refine ends_get ((ends_put ht hb).bind fun _ t₁ _ ht hlater _ => ?_)
  exact (ends_put ht (hb.later hlater)).mono fun _ _ _ _ hlater' _ =>
    (hb.later hlater).later hlater'

theorem ends_reverseArray (hw : (frame lent).Inv w) (hb : array.buffer < w.count) :
    Ends (frame lent) (reverseArray array) w fun _ _ => True := by
  refine (ends_writable hw).bind fun d t _ ht hlater ho => ?_
  refine (ends_forM (I := fun t => MayWrite t array.buffer) _
    (fun i _ t ht hb => ends_njsSwap ht hb _ _) ht
    (ho.2.mayWrite (hb.trans_le hlater.count_le))).mono fun _ _ _ _ _ _ => trivial

theorem ends_njsTypedArrayPrototypeReverse (hw : (frame lent).Inv w) (hb : array.buffer < w.count) :
    Ends (frame lent) (njsTypedArrayPrototypeReverse array) w fun _ _ => True := by
  refine (ends_attached hw).bind ?_
  rintro d t - ht - ⟨rfl, -⟩
  exact ends_reverseArray ht hb

theorem ends_njsTypedArrayPrototypeToReversed (hw : (frame lent).Inv w)
    (hself : (View.typedArray self).Within w) :
    Ends (frame lent) (njsTypedArrayPrototypeToReversed overflow self) w fun array t =>
      (View.typedArray array).Within t := by
  refine (ends_attached hw).bind ?_
  rintro d t - ht - ⟨rfl, -⟩
  refine (ends_njsTypedArrayCopy ht hself).bind fun array t₁ _ ht _ ⟨hwithin, _⟩ => ?_
  refine (ends_reverseArray ht hwithin.1).bind fun _ t₂ _ ht hlater _ => ?_
  exact ends_pure ht (hwithin.later hlater)

theorem genericCompare_keeps {f : Compare} (hf : ∀ a b, GoodScript lent (f a b))
    (ctx : World × Option Exception) (a b : Bytes)
    (hctx : (frame lent).Inv ctx.1 ∧ Later w ctx.1) :
    (frame lent).Inv (genericCompare array f ctx a b).2.1 ∧
      Later w (genericCompare array f ctx a b).2.1 := by
  obtain ⟨u, _ | e⟩ := ctx
  · have hscript : (frame lent).Inv (exec (f (njsTypedArrayGet array.type a)
        (njsTypedArrayGet array.type b)) u).2 ∧ Later u (exec (f (njsTypedArrayGet array.type a)
        (njsTypedArrayGet array.type b)) u).2 := hf _ _ u hctx.1
    rw [genericCompare]
    generalize exec (f (njsTypedArrayGet array.type a) (njsTypedArrayGet array.type b)) u = r
      at hscript ⊢
    have hlater : Later w r.2 := hctx.2.trans hscript.2
    have hinv := hscript.1
    clear hscript
    obtain ⟨e | num, t⟩ := r
    · exact ⟨hinv, hlater⟩
    · dsimp only
      split_ifs
      · exact ⟨hinv, hlater⟩
      · exact ⟨hinv, hlater⟩
  · exact hctx

theorem ends_sortElements {function : Option Compare} (hw : (frame lent).Inv w)
    (hb : array.buffer < w.count)
    (hfunction : ∀ f ∈ function, ∀ a b, GoodScript lent (f a b)) :
    Ends (frame lent) (sortElements array function) w fun _ _ => True := by
  refine (ends_writable hw).bind fun d t _ ht hlater ho => ?_
  have hb : MayWrite t array.buffer := ho.2.mayWrite (hb.trans_le hlater.count_le)
  refine ends_get ?_
  cases function with
  | none =>
    dsimp only
    split
    · exact ends_throw ht
    · exact ends_put ht hb
  | some f =>
    have hkeeps := @Sorting.Machine.keepsContext_njsQsort _
      ⟨0, njsTypedArrayLength array, njsTypedArrayElementSize array.type, genericCompare array f⟩
      (fun ctx => (frame lent).Inv ctx.1 ∧ Later t ctx.1)
      (fun ctx a b hctx => genericCompare_keeps (hfunction f rfl) ctx a b hctx)
      (3 * njsTypedArrayLength array + 3) (fun _ => ⟨0, 0⟩)
      (fun i => t.heap.block d (array.start + i), t, none) ⟨ht, later_refl t⟩
    dsimp only
    split
    · exact ends_throw ht
    rename_i m u exception hrun
    obtain ⟨hu, hlater'⟩ := hkeeps.of_run hrun
    refine (ends_modify (Q := fun _ v => v = u) hu hlater' rfl).bind ?_
    rintro _ v - hv - rfl
    cases exception with
    | some e => exact ends_throw hv
    | none =>
      exact ends_ite (fun _ => ends_put hv (hb.later hlater'))
        fun _ => ends_pure hv trivial

theorem ends_njsTypedArrayPrototypeSort {comparefn : Option Compare} (hw : (frame lent).Inv w)
    (hb : array.buffer < w.count)
    (hcompare : ∀ f ∈ comparefn, ∀ a b, GoodScript lent (f a b)) :
    Ends (frame lent) (njsTypedArrayPrototypeSort array comparefn) w fun _ _ => True := by
  refine (ends_attached hw).bind ?_
  rintro d t - ht - ⟨rfl, -⟩
  exact ends_sortElements ht hb hcompare

theorem ends_njsTypedArrayPrototypeToSorted {comparefn : Option Compare}
    (hw : (frame lent).Inv w) (hself : (View.typedArray self).Within w)
    (hcompare : ∀ f ∈ comparefn, ∀ a b, GoodScript lent (f a b)) :
    Ends (frame lent) (njsTypedArrayPrototypeToSorted overflow self comparefn) w
      fun array t => (View.typedArray array).Within t := by
  refine (ends_attached hw).bind ?_
  rintro d t - ht - ⟨rfl, -⟩
  refine (ends_njsTypedArrayCopy ht hself).bind fun array t₁ _ ht _ ⟨hwithin, _⟩ => ?_
  refine (ends_sortElements ht hwithin.1 hcompare).bind fun _ t₂ _ ht hlater _ => ?_
  exact ends_pure ht (hwithin.later hlater)

theorem ends_njsTypedArrayPrototypeMap {callback : ℕ → Num → Script (Script Num)}
    {constructor : Constructor} (hw : (frame lent).Inv w)
    (hconstructor : constructor.Good lent)
    (hcallback : ∀ i v, GoodScript lent (callback i v) ∧
      ∀ t r t', exec (callback i v) t = (.ok r, t') → GoodScript lent r) :
    Ends (frame lent) (njsTypedArrayPrototypeMap overflow array callback constructor) w
      fun dst t => (View.typedArray dst).Within t := by
  have hargs : (Source.index (number (njsTypedArrayLength array))).Good lent w :=
    goodInteger_number _
  refine (ends_njsTypedArrayCreate hw hconstructor hargs).bind fun dst t _ ht _ ⟨hwithin, _⟩ => ?_
  refine (ends_forM (I := fun t => (View.typedArray dst).Within t) _
    (fun i _ t ht hwithin => ?_) ht hwithin).bind fun _ t₁ _ ht _ hwithin => ?_
  · refine (ends_attached ht).bind ?_
    rintro d t₁ - ht - ⟨rfl, -⟩
    refine (ends_load ht).bind ?_
    rintro v t₂ - ht - rfl
    refine (ends_script (hcallback i v).1 ht).bind fun r t₃ hexec ht hlater hr => ?_
    have hsetval := (hcallback i v).2 _ _ _ hr
    refine (ends_njsTypedArraySetValue ht (hwithin.1.trans_le hlater.count_le) hsetval).mono ?_
    exact fun _ _ _ _ hlater' _ => hwithin.later (hlater.trans hlater')
  · exact ends_pure ht hwithin

theorem ends_filterLoop {callback : ℕ → Num → Script Bool} (hw : (frame lent).Inv w)
    (hcallback : ∀ i v, GoodScript lent (callback i v)) (l : List ℕ) :
    Ends (frame lent) (filterLoop array callback l) w fun _ _ => True := by
  induction l generalizing w with
  | nil => exact ends_pure hw trivial
  | cons i l ih =>
    refine (ends_attached hw).bind ?_
    rintro d t₁ - ht - ⟨rfl, -⟩
    refine (ends_load ht).bind ?_
    rintro v t₂ - ht - rfl
    refine (ends_script (hcallback i v) ht).bind fun r t₃ _ ht _ _ => ?_
    exact (ih ht).bind fun _ t₄ _ ht _ _ => ends_pure ht trivial

theorem ends_njsTypedArrayPrototypeFilter {callback : ℕ → Num → Script Bool}
    {constructor : Constructor} (hw : (frame lent).Inv w)
    (hconstructor : constructor.Good lent)
    (hcallback : ∀ i v, GoodScript lent (callback i v)) :
    Ends (frame lent) (njsTypedArrayPrototypeFilter overflow array callback constructor) w
      fun dst t => (View.typedArray dst).Within t := by
  refine (ends_filterLoop hw hcallback _).bind fun results t _ ht _ _ => ?_
  have hargs : (Source.index (number results.length)).Good lent t := goodInteger_number _
  refine (ends_njsTypedArrayCreate ht hconstructor hargs).bind fun dst t _ ht _ ⟨hwithin, _⟩ => ?_
  refine (ends_forM (I := fun t => (View.typedArray dst).Within t) _
    (fun r _ t ht hwithin => ?_) ht hwithin).bind fun _ t₁ _ ht _ hwithin => ?_
  · exact (ends_njsTypedArraySetValue ht hwithin.1 (goodScript_pure r.1)).mono
      fun _ _ _ _ hlater _ => hwithin.later hlater
  · exact ends_pure ht hwithin

/-! #### Functions that ask for no block that may be written -/

theorem ends_njsDataViewPrototypeSet {view : DataView} {type : ObjectType} {index : Integer}
    {value : Script Num} {littleEndian : Bool} (hw : (frame lent).Inv w)
    (hb : view.buffer < w.count) (hindex : GoodInteger lent index)
    (hvalue : GoodScript lent value)
    (hguard : w.guarded → ∀ r t, exec (dataViewSetTarget overflow view type index value) w =
      (.ok r, t) → (t.heap.buffer view.buffer).shared = false) :
    Ends (frame lent) (njsDataViewPrototypeSet overflow view type index value littleEndian) w
      fun _ _ => True := by
  have htarget : Ends (frame lent) (dataViewSetTarget overflow view type index value) w
      fun _ _ => True := by
    refine (ends_njsValueToIndex hindex hw).bind fun index t₁ _ ht _ _ => ?_
    refine (ends_script hvalue ht).bind fun v t₂ _ ht _ _ => ?_
    refine (ends_attached ht).bind ?_
    rintro d t₃ - ht - ⟨rfl, -⟩
    exact ends_test ht fun _ => ends_pure ht trivial
  refine htarget.bind fun r t hexec ht hlater _ => ?_
  exact ends_put ht ⟨hb.trans_le hlater.count_le, fun hguarded _ =>
    hguard (hlater.guarded hguarded) r t hexec⟩

theorem ends_njsTextEncoderEncodeInto {dest : TypedArray} {input : Script Bytes}
    (hw : (frame lent).Inv w) (hb : dest.buffer < w.count)
    (hinput : GoodScript lent input)
    (hguard : w.guarded → ∀ bytes t, exec (encodeIntoTarget dest input) w = (.ok bytes, t) →
      bytes ≠ [] → (t.heap.buffer dest.buffer).shared = false) :
    Ends (frame lent) (njsTextEncoderEncodeInto dest input) w fun _ _ => True := by
  have htarget : Ends (frame lent) (encodeIntoTarget dest input) w fun _ _ => True := by
    refine (ends_script hinput hw).bind fun str t₁ _ ht _ _ => ?_
    refine ends_test ht fun _ => ?_
    refine (ends_attached ht).bind ?_
    rintro d t₂ - ht - ⟨rfl, -⟩
    exact ends_pure ht trivial
  refine htarget.bind fun bytes t hexec ht hlater _ => ?_
  refine ends_ite (fun _ => ends_pure ht trivial) fun hbytes => ?_
  exact ends_put ht ⟨hb.trans_le hlater.count_le, fun hguarded _ =>
    hguard (hlater.guarded hguarded) bytes t hexec hbytes⟩

theorem ends_njsExtGetRandomValues {value : View ⊕ ℕ} {random : ℕ → Bytes}
    (hw : (frame lent).Inv w) (hb : (valueToBytes value w).1 < w.count)
    (hguard : w.guarded → (valueToBytes value w).2.2 ≠ 0 → (valueToBytes value w).2.2 ≤ 65536 →
      (w.heap.buffer (valueToBytes value w).1).data ≠ none →
      (w.heap.buffer (valueToBytes value w).1).shared = false) :
    Ends (frame lent) (njsExtGetRandomValues value random) w fun _ _ => True := by
  refine ends_get (ends_get ?_)
  refine ends_ite (fun _ => ends_ite
    (fun _ => ends_pure hw trivial) fun _ => ends_raise hw) fun _ => ?_
  refine ends_test hw fun hle => ?_
  refine ends_ite (fun _ => ends_pure hw trivial) fun hne => ?_
  exact ends_put hw ⟨hb, fun hguarded => hguard hguarded hne (not_lt.1 hle)⟩

/-! #### Functions that are given memory -/

theorem ends_njsValueBufferGet {value : View} (hw : (frame lent).Inv w)
    (hb : (valueToBytes (.inl value) w).1 < w.count) :
    Ends (frame lent) (njsValueBufferGet value) w fun r t =>
      Owned t (valueToBytes (.inl value) w).1 r.1 ∧ (valueToBytes (.inl value) w).1 < t.count := by
  refine ends_get ((ends_writable hw).bind fun d t _ ht hlater ho => ?_)
  exact ends_pure ht ⟨ho.2, hb.trans_le hlater.count_le⟩

theorem ends_njsFsRead {value : View} {length position : Integer} {read : ℤ → ℕ → Option Bytes}
    (hw : (frame lent).Inv w) (hb : (valueToBytes (.inl value) w).1 < w.count)
    (hoffset : GoodInteger lent offset) (hlength : GoodInteger lent length)
    (hposition : GoodInteger lent position) :
    Ends (frame lent) (njsFsRead overflow value offset length position read) w fun _ _ => True := by
  refine ends_get ((ends_njsValueBufferGet hw hb).bind ?_)
  rintro ⟨d, start, dataLength⟩ t₁ - ht - ⟨ho, hcount⟩
  refine (ends_njsValueToInteger hoffset ht).bind fun offset t₂ _ ht hlater₂ _ => ?_
  refine ends_test ht fun _ => ?_
  refine ends_optional ht hlength (by omega) fun length t₃ ht hlater₃ _ => ?_
  refine ends_test ht fun _ => ?_
  refine ends_optional ht hposition (by omega) fun pos t₄ ht hlater₄ _ => ?_
  cases read pos length.toNat with
  | none => exact ends_throw ht
  | some bytes =>
    exact ends_poke ht fun _ => ho.later hcount ((hlater₂.trans hlater₃).trans hlater₄)

end

end Njs.TypedArrays.Native
