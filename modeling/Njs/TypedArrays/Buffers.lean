import Njs.Buffer.Fill
import Njs.Buffer.Integers
import Njs.TypedArrays.Writers

/-!
# Buffers

Buffers are typed arrays of bytes with functions of their own, which create them and write to them.
-/

namespace Njs.TypedArrays.Native

open Arrays (IntegerOrInfinity)
open Buffer (TypedArray Thrown FillValue uint32Max njsBufferDecodeString njsBufferEncoding
  njsBufferSlot)
open Decoding (njsUtf8StreamEncode)
open Indices (njsUtf8Next)
open Query (njsUtf8DecodeInit)
open Simulation (exec)
open Reentrant (Ends ends_forM ends_get ends_ite ends_modify ends_pure ends_test ends_throw)
open Strings (StringProp)

def ofExcept {α : Type} : Except Thrown α → Native α
  | .ok a => return a
  | .error e => raise e

/-! ### Arguments -/

/-- An argument that may be a string, and that script converts to a number if it is an object. -/
inductive Arg
  | argument (a : Buffer.Argument)
  | object (x : Script IntegerOrInfinity)

namespace Arg

def isUndefined : Arg → Bool
  | .argument .undefined => true
  | _ => false

def isString : Arg → Bool
  | .argument (.string _ _) => true
  | _ => false

def integer : Arg → Integer
  | .argument a => a.integer.map pure
  | .object x => some x

/-- An argument as the name of an encoding. No object is one. -/
def encode : Arg → Buffer.Argument
  | .argument a => a
  | .object _ => .number .infinity

end Arg

section

variable (overflow : BitVec 64)

def rangeArguments (isString : Bool) (array : TypedArray) (valueOffset valueEnd encode : Arg) :
    Native (ℕ × ℕ × Arg) := do
  if isString ∧ valueOffset.isString then return (0, array.byteLength, valueOffset)
  else do
    let offset ← njsValueToIndex overflow valueOffset.integer
    if valueEnd.isUndefined then return (offset, array.byteLength, encode)
    else if isString ∧ valueEnd.isString then return (offset, array.byteLength, valueEnd)
    else return (offset, ← njsValueToIndex overflow valueEnd.integer, encode)

/-- `njs_buffer_array_range`: the block, if there is one, and the range in it. -/
def njsBufferArrayRange (array : TypedArray) (start stop : Integer) (name : String) :
    Native (Option ℕ × ℕ × ℕ) := do
  let _ ← attached array.buffer
  let numStart ← njsValueToIndex overflow start
  if array.byteLength < numStart then
    raise (.rangeError ("\"" ++ name ++ "Start\" is out of range: " ++ toString numStart))
  else do
    let numEnd ← if stop.isSome then njsValueToIndex overflow stop else pure array.byteLength
    if array.byteLength < numEnd then
      raise (.rangeError ("\"" ++ name ++ "End\" is out of range: " ++ toString numEnd))
    else
      return (((← get).heap.buffer array.buffer).data, array.offset + numStart,
        array.offset + max numStart numEnd)

/-! ### Numbers -/

/-- `(uint64_t) size`, for a number that is not negative, or is none. -/
def doubleToUint64 : Num → ℕ
  | some (.finite q) => ⌊q⌋.toNat
  | some .negZero => 0
  | _ => overflow.toNat

/-- `(int64_t) njs_number(length)`. -/
def doubleToInt64 : Num → ℤ
  | some (.finite q) =>
    let n := if 0 ≤ q then ⌊q⌋ else -⌊-q⌋
    if -2 ^ 63 ≤ n ∧ n < 2 ^ 63 then n else overflow.toInt
  | some .negZero => 0
  | _ => overflow.toInt

/-- The sizes that `njs_buffer_alloc_safe` refuses. -/
def isInvalidSize : Num → Bool
  | some (.finite q) => q < 0 ∨ 0x7fffffff < q
  | some .infinity | some .negInfinity => true
  | _ => false

/-! ### Buffers that are written -/

/-- What a range of a buffer is filled with. -/
inductive Fill
  | string (s : StringProp)
  | typedArray (src : TypedArray)
  | value (x : Script IntegerOrInfinity)

def Fill.isString : Fill → Bool
  | .string _ => true
  | _ => false

/-- What is filled with, as far as script is called for it. -/
def Fill.converted (array : TypedArray) : Fill → Native FillValue
  | .string s => return .string s
  | .typedArray src => return .typedArray src
  | .value x => do
    let num ← script x
    let _ ← attached array.buffer
    return .number num

def njsBufferFill (array : TypedArray) (fill : Fill) (encode : Arg) (offset stop : ℕ) :
    Native Unit := do
  let d ← writable array.buffer
  if array.byteLength < offset then raise (.rangeError "\"offset\" is out of range")
  else if array.byteLength < stop then raise (.rangeError "\"end\" is out of range")
  else if stop ≤ offset then return ⟨⟩
  else do
    let fill ← fill.converted array
    let start := array.offset + offset
    match Buffer.fillRange (← get).heap d fill encode.encode start (array.offset + stop) with
    | .error (.thrown e) => raise e
    | .error _ => throw .crash
    | .ok m => poke array.buffer d start (m.read start (stop - offset))

def njsBufferPrototypeFill (this : TypedArray) (value : Option Fill)
    (valueOffset valueEnd encode : Arg) : Native Unit := do
  match value with
  | none => return ⟨⟩
  | some value => do
    let array ← ofExcept (njsBufferSlot this)
    let (offset, stop, encode) ←
      rangeArguments overflow value.isString array valueOffset valueEnd encode
    njsBufferFill array value encode offset stop

def njsBufferPrototypeWriteInt (haveLittleEndian : Bool) (this : TypedArray)
    (value offset : Integer) (byteLength : Option IntegerOrInfinity) (magic : UInt8) :
    Native ℕ := do
  let array ← ofExcept (njsBufferSlot this)
  let i64 ← njsValueToInteger overflow value
  let index ← njsValueToIndex overflow offset
  let size ← ofExcept (Buffer.intSize overflow magic.toNat byteLength)
  let stop ← uint64 (size + index)
  if array.byteLength < stop then
    raise (.rangeError ("index " ++ toString index ++ " is outside the bound of the buffer"))
  else do
    let little := magic &&& 1 = 1
    let sign := (magic >>> 1) &&& 1 = 1
    let d ← writable array.buffer
    let u8 := index + array.offset
    let m ← ofExcept
      (Buffer.writeSwitch haveLittleEndian sign little ((← get).heap.block d) u8 i64 size)
    put array.buffer u8 (m.read u8 size)
    return index + size

def njsBufferPrototypeWriteFloat (this : TypedArray) (value : Script Num) (offset : Integer)
    (magic : UInt8) : Native ℕ := do
  let array ← ofExcept (njsBufferSlot this)
  let v ← script value
  let index ← njsValueToIndex overflow offset
  let size := magic.toNat >>> 2
  let stop ← uint64 (size + index)
  if array.byteLength < stop then
    raise (.rangeError ("index " ++ toString index ++ " is outside the bound of the buffer"))
  else do
    let little := magic &&& 1 = 1
    let _ ← writable array.buffer
    let bytes := njsTypedArrayPropBytes (if size = 4 then .float32Array else .float64Array) v
    put array.buffer (index + array.offset) (if little then bytes else bytes.reverse)
    return index + size

/-- The loop of `njs_buffer_write_string` that leaves the last character out if it does not fit. -/
def wholeCharacters (s : Bytes) (stop : ℕ) : ℕ → ℕ → ℕ → ℕ
  | 0, _, prev => prev
  | passes + 1, p, prev =>
    if p < stop then
      let p := njsUtf8Next s p
      wholeCharacters s stop passes p (if p ≤ stop then p else prev)
    else prev

def njsBufferWriteString (value : StringProp) (array : TypedArray) (encoding : Buffer.Encoding)
    (offset length : ℕ) : Native ℕ := do
  let str := njsBufferDecodeString value encoding
  let length := min length (array.byteLength - offset)
  if str.length = 0 then return 0
  else do
    let length := min str.length length
    let length := if encoding = .utf8 then wholeCharacters str length length 0 0 else length
    put array.buffer (array.offset + offset) (str.take length)
    return length

def njsBufferPrototypeWrite (this : TypedArray) (value : Option StringProp)
    (valueOffset valueLength enc : Arg) : Native ℕ := do
  let array ← ofExcept (njsBufferSlot this)
  match value with
  | none => raise (.typeError "first argument must be a string")
  | some value => do
    let (offset, length, enc) ← rangeArguments overflow true array valueOffset valueLength enc
    let encoding ← ofExcept (njsBufferEncoding enc.encode)
    let _ ← writable array.buffer
    if array.byteLength < offset then raise (.rangeError "\"offset\" is out of range")
    else njsBufferWriteString value array encoding offset length

/-- `njs_buffer_prototype_swap`, for 2, 4 or 8 bytes. -/
def njsBufferPrototypeSwap (this : TypedArray) (size : ℕ) : Native Unit := do
  let array ← ofExcept (njsBufferSlot this)
  if array.byteLength % size ≠ 0 then
    raise (.rangeError ("Buffer size must be a multiple of " ++ toString (size <<< 3) ++ "-bits"))
  else do
    let d ← writable array.buffer
    forM (List.range (array.byteLength / size)) fun k => do
      let p := array.offset + k * size
      put array.buffer p (((← get).heap.block d).read p size).reverse

/-- `njs_buffer_prototype_copy`, up to the ranges. -/
def copyRanges (source target : TypedArray) (targetStart sourceStart sourceEnd : Integer) :
    Native ((Option ℕ × ℕ × ℕ) × Option ℕ × ℕ × ℕ) := do
  let source ← ofExcept (njsBufferSlot source)
  let target ← ofExcept (njsBufferSlot target)
  let trg ← njsBufferArrayRange overflow target targetStart none "target"
  let src ← njsBufferArrayRange overflow source sourceStart sourceEnd "source"
  return (trg, src)

/-- `njs_buffer_prototype_copy`. A block is asked for that may be written when the place of the
bytes is known. -/
def njsBufferPrototypeCopy (source target : TypedArray)
    (targetStart sourceStart sourceEnd : Integer) : Native ℕ := do
  let ((trg, start, stop), (src, srcStart, srcEnd)) ←
    copyRanges overflow source target targetStart sourceStart sourceEnd
  let _ ← writable target.buffer
  let size := min (stop - start) (srcEnd - srcStart)
  if size = 0 then return 0
  else
    match trg, src with
    | some d, some e => do
      poke target.buffer d start (((← get).heap.block e).read srcStart size)
      return size
    | _, _ => throw .crash

/-! ### Buffers that are created -/

def njsBufferAlloc (size : ℕ) (zeroing : Bool) : Native TypedArray :=
  njsTypedArrayAlloc overflow (.index (number size)) zeroing .uint8Array

/-- `njs_buffer_new`, and what other functions do with bytes that they have. -/
def njsBufferNew (bytes : Bytes) : Native TypedArray := do
  let buffer ← njsBufferAlloc overflow bytes.length false
  put buffer.buffer 0 bytes
  return buffer

def njsBufferAllocSafe (safe : Bool) (nargs : ℕ) (size : Option Num) (fill : Option Fill)
    (encode : Arg) : Native TypedArray := do
  match size with
  | none => raise (.typeError "\"size\" argument must be of type number")
  | some size =>
    if isInvalidSize size then raise (.rangeError "invalid size")
    else do
      let array ← njsBufferAlloc overflow (doubleToUint64 overflow size) (safe || nargs ≤ 2)
      match safe, fill with
      | true, some fill => njsBufferFill array fill encode 0 array.byteLength
      | _, _ => pure ⟨⟩
      return array

/-- `njs_buffer_from_object`, from the length on. -/
def njsBufferFromObject (length : Integer) (item : ℕ → Script Num) : Native TypedArray := do
  let len ← njsValueToLength length
  let buffer ← njsBufferAlloc overflow len false
  forM (List.range len) fun i => do
    put buffer.buffer i (njsTypedArrayPropBytes .uint8Array (← script (item i)))
  return buffer

def njsBufferFromArrayBuffer (b : ℕ) (offset length : Integer) : Native TypedArray := do
  let off ← njsValueToIndex overflow offset
  let size := ((← get).heap.buffer b).size
  if size < off then raise (.rangeError "\"offset\" is outside of buffer bounds")
  else do
    let len ← if length.isSome then njsValueToLength length else pure (size - off)
    let stop ← uint64 (off + len)
    if ((← get).heap.buffer b).size < stop then
      raise (.rangeError "\"length\" is outside of buffer bounds")
    else do
      let buffer ← njsTypedArrayAlloc overflow (.arrayBuffer b none none) false .uint8Array
      return { buffer with offset := off, byteLength := len }

def njsBufferFromTypedArray (array : TypedArray) : Native TypedArray := do
  let _ ← attached array.buffer
  let length ← uint32 (njsTypedArrayLength array)
  let buffer ← njsBufferAlloc overflow length false
  forM (List.range length) fun i => do
    put buffer.buffer i (njsTypedArrayPropBytes .uint8Array (← load array i))
  return buffer

def njsBufferFromString (value : StringProp) (encode : Arg) : Native TypedArray := do
  let encoding ← ofExcept (njsBufferEncoding encode.encode)
  njsBufferNew overflow (njsBufferDecodeString value encoding)

/-- `njs_text_encoder_encode`, for a string. -/
def njsTextEncoderEncode (prop : StringProp) : Native TypedArray :=
  njsBufferNew overflow (if prop.length ≠ 0 then prop.start
    else (njsUtf8StreamEncode njsUtf8DecodeInit prop.start true false).2.getD [])

/-- A list of values, of which some are typed arrays. Script gives those of a list that is not
fast, as numbers of views. -/
inductive ConcatList
  | fast (list : List (Option TypedArray))
  | slow (length : ℕ) (item : ℕ → Script (Option ℕ))

namespace ConcatList

def length : ConcatList → ℕ
  | .fast list => list.length
  | .slow length _ => length

def notBuffer (i : ℕ) : Thrown :=
  .typeError ("\"list[" ++ toString i ++ "]\" argument must be an instance of Buffer or Uint8Array")

def get (i : ℕ) : ConcatList → Native TypedArray
  | .fast list =>
    match list.getD i none with
    | none => raise (notBuffer i)
    | some arr =>
      if arr.type ≠ .uint8Array then raise (notBuffer i)
      else do
        let _ ← attached arr.buffer
        return arr
  | .slow _ item => do
    match ← script (item i) with
    | none => raise (notBuffer i)
    | some v =>
      match (← MonadState.get).views[v]? with
      | some (.typedArray arr) => do
        let _ ← attached arr.buffer
        return arr
      | _ => raise (notBuffer i)

def sum (list : ConcatList) : List ℕ → ℕ → Native ℕ
  | [], len => return len
  | i :: l, len => do
    let arr ← list.get i
    if 2 ^ 64 - 1 - len < arr.byteLength then raise (.typeError "Invalid length")
    else do sum list l (← uint64 (len + arr.byteLength))

/-- The bytes are copied, until there is no room, and the rest is set to zeros. -/
def copy (list : ConcatList) (buffer : TypedArray) : List ℕ → ℕ → ℕ → Native Unit
  | [], p, len => put buffer.buffer p (List.replicate len 0)
  | i :: l, p, len =>
    if len = 0 then return ⟨⟩
    else do
      let arr ← list.get i
      let n := min len arr.byteLength
      let d ← attached arr.buffer
      put buffer.buffer p (((← MonadState.get).heap.block d).read arr.offset n)
      copy list buffer l (p + n) (len - n)

end ConcatList

/-- `njs_buffer_concat`. A length that is given may be no number. -/
def njsBufferConcat (list : ConcatList) (length : Option (Option Num)) : Native TypedArray := do
  let total ← list.sum (List.range list.length) 0
  let len ← match length with
    | none => pure total
    | some none => raise (.typeError "\"length\" argument must be of type number")
    | some (some n) =>
      if doubleToInt64 overflow n < 0 then raise (.rangeError "\"length\" is out of range")
      else pure (doubleToInt64 overflow n).toNat
  let buffer ← njsBufferAlloc overflow len false
  list.copy buffer (List.range list.length) 0 len
  return buffer

end

/-! ### Memory of the host -/

def njsBufferSet (start size : ℕ) : Native TypedArray := do
  let w ← get
  modify fun w =>
    { w with
      heap := { w.heap with buffer := fun c =>
        if c = w.count then ⟨some start, size, true⟩ else w.heap.buffer c }
      count := w.count + 1
      contents := Function.update w.contents w.count (w.heap.block start) }
  return ⟨w.count, 0, size, .uint8Array⟩

/-! ### What the functions keep -/

section

variable {lent : ℕ → Memory} {w : World} {overflow : BitVec 64}
  {array this source target : TypedArray} {start stop offset length : Integer}

theorem ends_ofExcept {α : Type} {x : Except Thrown α} (hw : (frame lent).Inv w) :
    Ends (frame lent) (ofExcept x) w fun a t => x = .ok a ∧ t = w := by
  cases x with
  | ok a => exact ends_pure hw ⟨rfl, rfl⟩
  | error e => exact ends_raise hw

theorem ends_njsBufferSlot (hw : (frame lent).Inv w) :
    Ends (frame lent) (ofExcept (njsBufferSlot this)) w fun array t =>
      array = this ∧ array.type = .uint8Array ∧ t = w := by
  refine (ends_ofExcept hw).mono ?_
  rintro array t - - - ⟨hslot, rfl⟩
  rw [njsBufferSlot] at hslot
  split_ifs at hslot with htype
  obtain rfl := Except.ok.inj hslot
  exact ⟨rfl, htype, rfl⟩

/-- Script that an argument calls keeps the invariant. -/
def Arg.Good (lent : ℕ → Memory) : Arg → Prop
  | .argument _ => True
  | .object x => GoodScript lent x

theorem Arg.Good.integer {arg : Arg} (h : arg.Good lent) : GoodInteger lent arg.integer := by
  rintro x hx
  cases arg with
  | argument a =>
    obtain ⟨n, -, rfl⟩ := Option.map_eq_some_iff.1 hx
    exact goodScript_pure n
  | object y => exact Option.some.inj hx ▸ h

def Fill.Good (lent : ℕ → Memory) : Fill → Prop
  | .value x => GoodScript lent x
  | _ => True

variable {valueOffset : Arg} {size : ℕ}

theorem ends_rangeArguments {isString : Bool} {valueEnd encode : Arg} (hw : (frame lent).Inv w)
    (hoffset : valueOffset.Good lent) (hend : valueEnd.Good lent) :
    Ends (frame lent) (rangeArguments overflow isString array valueOffset valueEnd encode) w
      fun _ _ => True := by
  refine ends_ite (fun _ => ends_pure hw trivial) fun _ => ?_
  refine (ends_njsValueToIndex hoffset.integer hw).bind fun offset t _ ht _ _ => ?_
  refine ends_ite (fun _ => ends_pure ht trivial) fun _ => ?_
  refine ends_ite (fun _ => ends_pure ht trivial) fun _ => ?_
  exact (ends_njsValueToIndex hend.integer ht).bind fun _ t _ ht _ _ =>
    ends_pure ht trivial

theorem ends_njsBufferArrayRange {name : String} (hw : (frame lent).Inv w)
    (hstart : GoodInteger lent start) (hstop : GoodInteger lent stop) :
    Ends (frame lent) (njsBufferArrayRange overflow array start stop name) w fun _ _ => True := by
  refine (ends_attached hw).bind ?_
  rintro d t - ht - ⟨rfl, -⟩
  refine (ends_njsValueToIndex hstart ht).bind fun numStart t _ ht _ _ => ?_
  refine ends_test ht fun _ => ?_
  have htail : ∀ numEnd t, (frame lent).Inv t → Ends (frame lent) (do
      if array.byteLength < numEnd then
        raise (.rangeError ("\"" ++ name ++ "End\" is out of range: " ++ toString numEnd))
      else
        return (((← get).heap.buffer array.buffer).data, array.offset + numStart,
          array.offset + max numStart numEnd)) t fun _ _ => True :=
    fun numEnd t ht => ends_test ht fun _ =>
      ends_get (ends_pure ht trivial)
  refine ends_ite (fun _ => ?_) fun _ => ?_
  · exact (ends_njsValueToIndex hstop ht).bind fun n t _ ht _ _ => htail n t ht
  · exact htail _ t ht

/-! #### Buffers that are written -/

theorem ends_converted {fill : Fill} (hw : (frame lent).Inv w) (hfill : fill.Good lent) :
    Ends (frame lent) (fill.converted array) w fun _ _ => True := by
  cases fill with
  | string s => exact ends_pure hw trivial
  | typedArray src => exact ends_pure hw trivial
  | value x =>
    refine (ends_script hfill hw).bind fun num t _ ht _ _ => ?_
    refine (ends_attached ht).bind ?_
    rintro d t - ht - ⟨rfl, -⟩
    exact ends_pure ht trivial

theorem ends_njsBufferFill {fill : Fill} {encode : Arg} {offset stop : ℕ}
    (hw : (frame lent).Inv w) (hb : array.buffer < w.count) (hfill : fill.Good lent) :
    Ends (frame lent) (njsBufferFill array fill encode offset stop) w fun _ _ => True := by
  refine (ends_writable hw).bind fun d t _ ht hlater ho => ?_
  refine ends_test ht fun _ => ends_test ht fun _ => ?_
  refine ends_ite (fun _ => ends_pure ht trivial) fun _ => ?_
  refine (ends_converted ht hfill).bind fun value t' _ ht' hlater' _ => ?_
  refine ends_get ?_
  split
  · exact ends_raise ht'
  · exact ends_throw ht'
  · exact ends_poke ht' fun _ => ho.2.later (hb.trans_le hlater.count_le) hlater'

theorem ends_njsBufferPrototypeFill {value : Option Fill} {valueEnd encode : Arg}
    (hw : (frame lent).Inv w) (hb : this.buffer < w.count)
    (hvalue : ∀ fill ∈ value, fill.Good lent) (hoffset : valueOffset.Good lent)
    (hend : valueEnd.Good lent) :
    Ends (frame lent)
      (njsBufferPrototypeFill overflow this value valueOffset valueEnd encode) w
      fun _ _ => True := by
  cases value with
  | none => exact ends_pure hw trivial
  | some value =>
    refine (ends_njsBufferSlot hw).bind ?_
    rintro array t - ht - ⟨rfl, -, rfl⟩
    refine (ends_rangeArguments ht hoffset hend).bind ?_
    rintro ⟨offset, stop, encode⟩ t - ht hlater -
    exact ends_njsBufferFill ht (hb.trans_le hlater.count_le) (hvalue value rfl)

theorem intSize_le {magic : UInt8} {byteLength : Option IntegerOrInfinity}
    (h : Buffer.intSize overflow magic.toNat byteLength = .ok size) : size < 2 ^ 8 := by
  have hmagic : magic.toNat >>> 2 < 2 ^ 8 :=
    (Nat.shiftRight_le _ _).trans_lt (UInt8.toNat_lt magic)
  unfold Buffer.intSize at h
  dsimp only at h
  split_ifs at h
  · cases byteLength with
    | none => exact nomatch h
    | some value =>
      dsimp only at h
      split_ifs at h with hsize
      rw [not_or, not_lt] at hsize
      exact (Except.ok.inj h ▸ hsize.2).trans_lt (by decide)
  · exact Except.ok.inj h ▸ hmagic

theorem ends_njsBufferPrototypeWriteInt {haveLittleEndian : Bool} {value : Integer}
    {byteLength : Option IntegerOrInfinity} {magic : UInt8} (hw : (frame lent).Inv w)
    (hb : this.buffer < w.count) (hvalue : GoodInteger lent value)
    (hoffset : GoodInteger lent offset) :
    Ends (frame lent)
      (njsBufferPrototypeWriteInt overflow haveLittleEndian this value offset byteLength magic) w
      fun _ _ => True := by
  refine (ends_njsBufferSlot hw).bind ?_
  rintro array t - ht - ⟨rfl, -, rfl⟩
  refine (ends_njsValueToInteger hvalue ht).bind fun i64 t₁ _ ht hlater₁ _ => ?_
  refine (ends_njsValueToIndex hoffset ht).bind fun index t₂ _ ht hlater₂ hindex => ?_
  refine (ends_ofExcept ht).bind ?_
  rintro size t - ht - ⟨hsize, rfl⟩
  have hsize := intSize_le hsize
  rw [uint32Max] at hindex
  refine (ends_uint64 ht (by omega)).bind ?_
  rintro n t - ht - ⟨rfl, rfl⟩
  refine ends_test ht fun _ => ?_
  refine (ends_writable ht).bind fun d t₃ _ ht hlater₃ ho => ?_
  refine ends_get ((ends_ofExcept ht).bind ?_)
  rintro m t - ht - ⟨-, rfl⟩
  have hlater := (hlater₁.trans hlater₂).trans hlater₃
  refine (ends_put ht (ho.2.mayWrite (hb.trans_le hlater.count_le))).bind fun _ t _ ht _ _ => ?_
  exact ends_pure ht trivial

theorem ends_njsBufferPrototypeWriteFloat {value : Script Num} {magic : UInt8}
    (hw : (frame lent).Inv w) (hb : this.buffer < w.count)
    (hvalue : GoodScript lent value) (hoffset : GoodInteger lent offset) :
    Ends (frame lent) (njsBufferPrototypeWriteFloat overflow this value offset magic) w
      fun _ _ => True := by
  refine (ends_njsBufferSlot hw).bind ?_
  rintro array t - ht - ⟨rfl, -, rfl⟩
  refine (ends_script hvalue ht).bind fun v t₁ _ ht hlater₁ _ => ?_
  refine (ends_njsValueToIndex hoffset ht).bind fun index t₂ _ ht hlater₂ hindex => ?_
  have hmagic : magic.toNat >>> 2 < 2 ^ 8 :=
    (Nat.shiftRight_le _ _).trans_lt (UInt8.toNat_lt magic)
  rw [uint32Max] at hindex
  refine (ends_uint64 ht (by omega)).bind ?_
  rintro n t - ht - ⟨rfl, rfl⟩
  refine ends_test ht fun _ => ?_
  refine (ends_writable ht).bind fun d t₃ _ ht hlater₃ ho => ?_
  have hlater := (hlater₁.trans hlater₂).trans hlater₃
  refine (ends_put ht (ho.2.mayWrite (hb.trans_le hlater.count_le))).bind fun _ t _ ht _ _ => ?_
  exact ends_pure ht trivial

theorem ends_njsBufferWriteString {value : StringProp} {encoding : Buffer.Encoding}
    {offset length : ℕ} (hw : (frame lent).Inv w) (hb : MayWrite w array.buffer) :
    Ends (frame lent) (njsBufferWriteString value array encoding offset length) w
      fun _ _ => True := by
  refine ends_ite (fun _ => ends_pure hw trivial) fun _ => ?_
  exact (ends_put hw hb).bind fun _ t _ ht _ _ => ends_pure ht trivial

theorem ends_njsBufferPrototypeWrite {value : Option StringProp} {valueLength enc : Arg}
    (hw : (frame lent).Inv w) (hb : this.buffer < w.count) (hoffset : valueOffset.Good lent)
    (hlength : valueLength.Good lent) :
    Ends (frame lent)
      (njsBufferPrototypeWrite overflow this value valueOffset valueLength enc) w
      fun _ _ => True := by
  refine (ends_njsBufferSlot hw).bind ?_
  rintro array t - ht - ⟨rfl, -, rfl⟩
  cases value with
  | none => exact ends_raise ht
  | some value =>
    refine (ends_rangeArguments ht hoffset hlength).bind ?_
    rintro ⟨offset, length, enc⟩ t₁ - ht hlater₁ -
    refine (ends_ofExcept ht).bind ?_
    rintro encoding t - ht - ⟨-, rfl⟩
    refine (ends_writable ht).bind fun d t₂ _ ht hlater₂ ho => ?_
    refine ends_test ht fun _ => ?_
    exact ends_njsBufferWriteString ht
      (ho.2.mayWrite (hb.trans_le (hlater₁.trans hlater₂).count_le))

theorem ends_njsBufferPrototypeSwap (hw : (frame lent).Inv w) (hb : this.buffer < w.count) :
    Ends (frame lent) (njsBufferPrototypeSwap this size) w fun _ _ => True := by
  refine (ends_njsBufferSlot hw).bind ?_
  rintro array t - ht - ⟨rfl, -, rfl⟩
  refine ends_test ht fun _ => ?_
  refine (ends_writable ht).bind fun d t _ ht hlater ho => ?_
  refine (ends_forM (I := fun t => MayWrite t array.buffer) _
    (fun k _ t ht hb => ?_) ht (ho.2.mayWrite (hb.trans_le hlater.count_le))).mono
      fun _ _ _ _ _ _ => trivial
  exact ends_get ((ends_put ht hb).mono fun _ _ _ _ hlater _ => hb.later hlater)

theorem ends_copyRanges {targetStart sourceStart sourceEnd : Integer}
    (hw : (frame lent).Inv w) (htarget : GoodInteger lent targetStart)
    (hstart : GoodInteger lent sourceStart) (hend : GoodInteger lent sourceEnd) :
    Ends (frame lent)
      (copyRanges overflow source target targetStart sourceStart sourceEnd) w
      fun _ _ => True := by
  refine (ends_njsBufferSlot hw).bind ?_
  rintro array t - ht - ⟨rfl, -, rfl⟩
  refine (ends_njsBufferSlot ht).bind ?_
  rintro array t - ht - ⟨rfl, -, rfl⟩
  refine (ends_njsBufferArrayRange ht htarget fun x h => absurd h (Option.not_mem_none x)).bind
    fun trg t _ ht _ _ => ?_
  refine (ends_njsBufferArrayRange ht hstart hend).bind fun src t _ ht _ _ => ?_
  exact ends_pure ht trivial

theorem ends_njsBufferPrototypeCopy {targetStart sourceStart sourceEnd : Integer}
    (hw : (frame lent).Inv w) (hb : target.buffer < w.count)
    (htarget : GoodInteger lent targetStart) (hstart : GoodInteger lent sourceStart)
    (hend : GoodInteger lent sourceEnd)
    (hguard : w.guarded → ∀ r t,
      exec (copyRanges overflow source target targetStart sourceStart sourceEnd) w = (.ok r, t) →
        min (r.1.2.2 - r.1.2.1) (r.2.2.2 - r.2.2.1) ≠ 0 →
          (t.heap.buffer target.buffer).data ≠ none → (t.heap.buffer target.buffer).shared = false ∧
              (t.heap.buffer target.buffer).data = r.1.1) :
    Ends (frame lent)
      (njsBufferPrototypeCopy overflow source target targetStart sourceStart sourceEnd) w
      fun _ _ => True := by
  refine (ends_copyRanges hw htarget hstart hend).bind ?_
  rintro ⟨⟨trg, start, stop⟩, ⟨src, srcStart, srcEnd⟩⟩ t hexec ht hlater -
  have hb := hb.trans_le hlater.count_le
  refine (ends_writable ht).bind fun d t' hwritable ht' hlater' ho => ?_
  refine ends_ite (fun _ => ends_pure ht' trivial) fun hsize => ?_
  rcases trg with _ | e
  · exact ends_throw ht'
  rcases src with _ | e'
  · exact ends_throw ht'
  refine ends_get ((ends_poke ht' fun hguarded => ?_).bind fun _ t _ ht _ _ =>
    ends_pure ht trivial)
  -- the block is still the one in which the range was found
  have hdata := hlater'.data _ hb (ho.1 ▸ Option.some_ne_none d)
  obtain ⟨hshared, hblock⟩ := hguard (hlater.guarded (hlater'.guarded hguarded)) _ _ hexec hsize
    hdata.1
  have hd := hlater'.same _ hb hshared d ho.1
  obtain rfl : d = e := Option.some.inj (hd.symm.trans hblock)
  exact ho.2

/-! #### Buffers that are created -/

theorem ends_njsBufferAlloc {zeroing : Bool} (hw : (frame lent).Inv w) :
    Ends (frame lent) (njsBufferAlloc overflow size zeroing) w fun array t =>
      (View.typedArray array).Within t ∧ MayWrite t array.buffer := by
  have hargs : (Source.index (number size)).Good lent w := goodInteger_number _
  refine (ends_njsTypedArrayAlloc hw hargs).mono fun array t _ _ _ h => ?_
  exact ⟨h.1, h.1.1, fun _ _ => h.2 trivial⟩

theorem ends_njsBufferNew {bytes : Bytes} (hw : (frame lent).Inv w) :
    Ends (frame lent) (njsBufferNew overflow bytes) w fun array t =>
      (View.typedArray array).Within t := by
  refine (ends_njsBufferAlloc hw).bind fun buffer t _ ht _ ⟨hwithin, hb⟩ => ?_
  refine (ends_put ht hb).bind fun _ t _ ht hlater _ => ?_
  exact ends_pure ht (hwithin.later hlater)

theorem ends_njsBufferAllocSafe {safe : Bool} {nargs : ℕ} {size : Option Num}
    {fill : Option Fill} {encode : Arg} (hw : (frame lent).Inv w)
    (hfill : ∀ f ∈ fill, f.Good lent) :
    Ends (frame lent) (njsBufferAllocSafe overflow safe nargs size fill encode) w
      fun array t => (View.typedArray array).Within t := by
  cases size with
  | none => exact ends_raise hw
  | some size =>
    refine ends_test hw fun _ => ?_
    refine (ends_njsBufferAlloc hw).bind fun array t _ ht _ ⟨hwithin, hb⟩ => ?_
    split
    · refine (ends_njsBufferFill ht hb.lt (hfill _ rfl)).bind fun _ t _ ht hlater _ => ?_
      exact ends_pure ht (hwithin.later hlater)
    · exact ends_pure ht hwithin

theorem ends_njsBufferFromObject {item : ℕ → Script Num} (hw : (frame lent).Inv w)
    (hlength : GoodInteger lent length) (hitem : ∀ i, GoodScript lent (item i)) :
    Ends (frame lent) (njsBufferFromObject overflow length item) w
      fun array t => (View.typedArray array).Within t := by
  refine (ends_njsValueToLength hlength hw).bind fun len t _ ht _ _ => ?_
  refine (ends_njsBufferAlloc ht).bind fun buffer t _ ht _ ⟨hwithin, hb⟩ => ?_
  refine (ends_storeItems
    (g := fun i v => put buffer.buffer i (njsTypedArrayPropBytes .uint8Array v)) ht hb
    (fun i w hw => (ends_script (hitem i) hw).mono fun _ _ _ _ _ _ => trivial)
    (fun i v w hw hb => ends_put hw hb) _).bind fun _ t _ ht hlater _ => ?_
  exact ends_pure ht (hwithin.later hlater)

theorem ends_njsBufferFromTypedArray (hw : (frame lent).Inv w)
    (harray : (View.typedArray array).Within w) :
    Ends (frame lent) (njsBufferFromTypedArray overflow array) w
      fun array t => (View.typedArray array).Within t := by
  refine (ends_attached hw).bind ?_
  rintro d t - ht - ⟨rfl, -⟩
  refine (ends_uint32 ht (length_lt harray)).bind ?_
  rintro n t - ht - ⟨rfl, rfl⟩
  refine (ends_njsBufferAlloc ht).bind fun buffer t _ ht _ ⟨hwithin, hb⟩ => ?_
  refine (ends_storeItems
    (g := fun i v => put buffer.buffer i (njsTypedArrayPropBytes .uint8Array v)) ht hb
    (fun i w hw => (ends_load hw).mono fun _ _ _ _ _ _ => trivial)
    (fun i v w hw hb => ends_put hw hb) _).bind fun _ t _ ht hlater _ => ?_
  exact ends_pure ht (hwithin.later hlater)

theorem ends_njsBufferFromString {value : StringProp} {encode : Arg} (hw : (frame lent).Inv w) :
    Ends (frame lent) (njsBufferFromString overflow value encode) w
      fun array t => (View.typedArray array).Within t := by
  refine (ends_ofExcept hw).bind ?_
  rintro encoding t - ht - ⟨-, rfl⟩
  exact ends_njsBufferNew ht

theorem ends_wholeBuffer {b : ℕ} {zeroing : Bool} (hw : (frame lent).Inv w) : Ends (frame lent)
      (njsTypedArrayAlloc overflow (.arrayBuffer b none none) zeroing .uint8Array) w
      fun array t => array.buffer = b ∧ array.type = .uint8Array ∧ t = w := by
  refine Ends.bind (R := fun _ t => t = w) ?_ ?_
  · refine (ends_pure (Q := fun offset t => offset = 0 ∧ t = w) hw ⟨rfl, rfl⟩).bind ?_
    rintro _ t - ht - ⟨rfl, rfl⟩
    refine ends_test ht fun _ => ?_
    refine (ends_pure (Q := fun _ t' => t' = t) ht rfl).bind ?_
    rintro _ t' - ht - rfl
    refine (ends_attached ht).bind ?_
    rintro d t - ht - ⟨rfl, -⟩
    refine ends_get (ends_test ht fun _ => ?_)
    exact ends_test ht fun _ => ends_pure ht rfl
  · rintro ⟨offset, size⟩ t - ht - rfl
    exact ends_pure ht ⟨rfl, rfl, rfl⟩

theorem ends_njsBufferFromArrayBuffer {b : ℕ} (hw : (frame lent).Inv w) (hb : b < w.count)
    (hoffset : GoodInteger lent offset) (hlength : GoodInteger lent length) :
    Ends (frame lent) (njsBufferFromArrayBuffer overflow b offset length) w
      fun array t => (View.typedArray array).Within t := by
  refine (ends_njsValueToIndex hoffset hw).bind fun off t _ ht hlater hoff => ?_
  refine ends_get (ends_test ht fun hle => ?_)
  have htail : ∀ len t, (frame lent).Inv t → Later w t → len ≤ njsMaxLength → Ends (frame lent) (do
        let stop ← uint64 (off + len)
        if ((← get).heap.buffer b).size < stop then
          raise (.rangeError "\"length\" is outside of buffer bounds")
        else do
          let buffer ← njsTypedArrayAlloc overflow (.arrayBuffer b none none) false .uint8Array
          return { buffer with offset := off, byteLength := len }) t
        fun array t => (View.typedArray array).Within t := by
    intro len t ht hlater hlen
    rw [uint32Max] at hoff
    rw [njsMaxLength] at hlen
    refine (ends_uint64 ht (by omega)).bind ?_
    rintro _ t' - ht - ⟨rfl, rfl⟩
    refine ends_get (ends_test ht fun hfits => ?_)
    have hsize := ht.1.ok.size_le b
    refine (ends_wholeBuffer ht).bind ?_
    rintro buffer t - ht - ⟨hbuffer, htype, rfl⟩
    rw [uint32Max] at hsize
    have hstart : TypedArray.start { buffer with offset := off, byteLength := len } = off :=
      Buffer.start_uint8 htype
    refine ends_pure ht ⟨?_, ⟨fun _ => ?_, ?_⟩, ?_⟩
    · exact hbuffer ▸ hb.trans_le hlater.count_le
    · change TypedArray.start { buffer with offset := off, byteLength := len } + len ≤ _
      rw [hstart]
      exact hbuffer ▸ not_lt.1 hfits
    · rw [uint32Max]
      dsimp only
      omega
    · rw [hstart, uint32Max]
      omega
  refine ends_ite (fun _ => ?_) fun _ => ?_
  · exact (ends_njsValueToLength hlength ht).bind fun len t' _ ht' hlater' hlen =>
      htail len t' ht' (hlater.trans hlater') hlen
  · have hsize := ht.1.ok.size_le b
    rw [uint32Max] at hsize
    exact htail _ t ht hlater (by rw [njsMaxLength]; omega)

/-- Script that a list calls keeps the invariant. -/
def ConcatList.Good (lent : ℕ → Memory) : ConcatList → Prop
  | .fast _ => True
  | .slow _ item => ∀ i, GoodScript lent (item i)

variable {list : ConcatList}

theorem ConcatList.ends_get {i : ℕ} (hw : (frame lent).Inv w) (hlist : list.Good lent) :
    Ends (frame lent) (list.get i) w fun _ _ => True := by
  cases list with
  | fast list =>
    rw [ConcatList.get]
    rcases list.getD i none with _ | arr
    · exact ends_raise hw
    refine ends_test hw fun _ => (ends_attached hw).bind ?_
    rintro d t - ht - -
    exact ends_pure ht trivial
  | slow length item =>
    refine (ends_script (hlist i) hw).bind fun v t _ ht _ _ => ?_
    rcases v with _ | v
    · exact ends_raise ht
    refine ends_get ?_
    rcases t.views[v]? with _ | (arr | view)
    · exact ends_raise ht
    · refine (ends_attached ht).bind ?_
      rintro d t - ht - -
      exact ends_pure ht trivial
    · exact ends_raise ht

theorem ConcatList.ends_sum (hlist : list.Good lent) (l : List ℕ) (len : ℕ) (hlen : len < 2 ^ 64)
    (hw : (frame lent).Inv w) : Ends (frame lent) (list.sum l len) w fun _ _ => True := by
  induction l generalizing len w with
  | nil => exact ends_pure hw trivial
  | cons i l ih =>
    refine (ConcatList.ends_get hw hlist).bind fun arr t _ ht _ _ => ?_
    refine ends_test ht fun hle => ?_
    have hsum : len + arr.byteLength < 2 ^ 64 := by omega
    refine (ends_uint64 ht hsum).bind ?_
    rintro n t' - ht - ⟨rfl, rfl⟩
    exact ih _ hsum ht

theorem ConcatList.ends_copy {buffer : TypedArray} (hlist : list.Good lent) (l : List ℕ)
    (p len : ℕ) (hw : (frame lent).Inv w) (hb : MayWrite w buffer.buffer) :
    Ends (frame lent) (list.copy buffer l p len) w fun _ _ => True := by
  induction l generalizing p len w with
  | nil => exact ends_put hw hb
  | cons i l ih =>
    refine ends_ite (fun _ => ends_pure hw trivial) fun _ => ?_
    refine (ConcatList.ends_get hw hlist).bind fun arr t₁ _ ht hlater₁ _ => ?_
    refine (ends_attached ht).bind ?_
    rintro d t₂ - ht - ⟨rfl, -⟩
    have hb := hb.later hlater₁
    refine Reentrant.ends_get ((ends_put ht hb).bind fun _ t₃ _ ht hlater₃ _ => ?_)
    exact ih _ _ ht (hb.later hlater₃)

theorem ends_njsBufferConcat {length : Option (Option Num)} (hw : (frame lent).Inv w)
    (hlist : list.Good lent) :
    Ends (frame lent) (njsBufferConcat overflow list length) w
      fun array t => (View.typedArray array).Within t := by
  have htail : ∀ len t, (frame lent).Inv t → Ends (frame lent) (do
      let buffer ← njsBufferAlloc overflow len false
      list.copy buffer (List.range list.length) 0 len
      return buffer) t fun array t => (View.typedArray array).Within t := by
    intro len t ht
    refine (ends_njsBufferAlloc ht).bind fun buffer t _ ht _ ⟨hwithin, hb⟩ => ?_
    refine (ConcatList.ends_copy hlist _ _ _ ht hb).bind fun _ t _ ht hlater _ => ?_
    exact ends_pure ht (hwithin.later hlater)
  refine (ConcatList.ends_sum hlist _ 0 (by decide) hw).bind fun total t _ ht _ _ => ?_
  rcases length with _ | _ | n
  · exact htail total t ht
  · exact ends_raise ht
  · exact ends_test ht fun _ => htail _ t ht

/-! #### Memory of the host -/

theorem ends_njsBufferSet {start : ℕ} (hw : (frame lent).Inv w) (hstart : start < w.external)
    (hsize : (size : ℤ) ≤ uint32Max) :
    Ends (frame lent) (njsBufferSet start size) w fun array t =>
      (View.typedArray array).Within t := by
  obtain ⟨hsound, hfaithful⟩ := hw
  let w' : World := { w with
    heap := { w.heap with buffer := fun c =>
      if c = w.count then ⟨some start, size, true⟩ else w.heap.buffer c }
    count := w.count + 1
    contents := Function.update w.contents w.count (w.heap.block start) }
  have hnew : w'.heap.buffer w.count = ⟨some start, size, true⟩ := if_pos rfl
  have hold : ∀ c ≠ w.count, w'.heap.buffer c = w.heap.buffer c := fun c hc => if_neg hc
  have hblock : ∀ e, w'.heap.block e = w.heap.block e := fun _ => rfl
  have hlater : Later w w' := by
    refine ⟨rfl, Nat.le_succ _, le_rfl, fun c hc hs => ?_, fun c hc hd => ?_,
      fun c hc _ d hd => ?_, fun c d hle hlt hd => ?_, List.prefix_rfl, id⟩
    · rwa [hold c hc.ne]
    · rw [hold c hc.ne] at hd ⊢
      exact ⟨hd, rfl⟩
    · rwa [hold c hc.ne] at hd
    · by_cases hc : c = w.count
      · subst hc
        rw [hnew] at hd
        exact absurd (hle.trans_eq (Option.some.inj hd).symm) hstart.not_ge
      · rwa [hold c hc] at hd
  have hsound' : Sound w' := by
    refine ⟨⟨fun c d hd => ?_, fun c c' d hne hc hc' => ?_, fun c => ?_⟩, fun c hc => ?_,
      hsound.external_le, fun c d hd hlt => ?_, fun v hv => (hsound.views v hv).later hlater,
      hsound.unwrapped⟩
    · by_cases hc : c = w.count
      · subst hc
        rw [hnew] at hd
        exact Option.some.inj hd ▸ hstart.trans_le hsound.external_le
      · rw [hold c hc] at hd
        exact hsound.ok.old c d hd
    · by_cases hcount : c = w.count
      · rw [hcount, hnew]
      rw [hold c hcount] at hc ⊢
      by_cases hcount' : c' = w.count
      · rw [hcount', hnew] at hc'
        exact hsound.shared c d hc (Option.some.inj hc' ▸ hstart)
      · rw [hold c' hcount'] at hc'
        exact hsound.ok.apart c c' d hne hc hc'
    · by_cases hc : c = w.count
      · rw [hc, hnew]
        exact hsize
      · rw [hold c hc]
        exact hsound.ok.size_le c
    · rw [hold c (Nat.lt_of_succ_le hc).ne']
      exact hsound.unborn c (Nat.le_of_succ_le hc)
    · by_cases hc : c = w.count
      · rw [hc, hnew]
      · rw [hold c hc] at hd ⊢
        exact hsound.shared c d hd hlt
  have hfaithful' : w'.guarded → Faithful lent w' := by
    refine fun hguarded => ⟨(hfaithful hguarded).external, fun c d hd i hi => ?_⟩
    change w.heap.block d i = Function.update w.contents w.count (w.heap.block start) c i
    by_cases hc : c = w.count
    · subst hc
      rw [hnew] at hd
      rw [Function.update_self, Option.some.inj hd]
    · rw [hold c hc] at hd hi
      rw [Function.update_of_ne hc]
      exact (hfaithful hguarded).contents c d hd i hi
  have hinv : (frame lent).Inv w' := ⟨hsound', hfaithful'⟩
  refine ends_get ((ends_modify (Q := fun _ t => t = w') hinv hlater rfl).bind
    ?_)
  rintro _ t - ht - rfl
  exact ends_pure ht
    (within_whole _ (Nat.lt_succ_self _) (congrArg Buffer.ArrayBuffer.size hnew) hsize)

end

end Njs.TypedArrays.Native
