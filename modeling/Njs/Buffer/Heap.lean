import Njs.Arrays.Arguments
import Njs.Lib.Memory

/-!
# Array buffers and their views

An array buffer has its bytes in a block of memory, and none when it is detached. Array buffers that
are marked as shared may have one block; a block is copied before it is written.
-/

namespace Njs.Buffer

open Arrays (IntegerOrInfinity)
open Arrays.NjsArray (njsNumberToInteger)

inductive Thrown
  | typeError (msg : String)
  | rangeError (msg : String)
  deriving DecidableEq

/-- The types of typed arrays. -/
inductive ObjectType
  | uint8Array
  | uint8ClampedArray
  | int8Array
  | uint16Array
  | int16Array
  | uint32Array
  | int32Array
  | float32Array
  | float64Array
  deriving DecidableEq

def njsTypedArrayElementSize : ObjectType → ℕ
  | .uint8Array | .uint8ClampedArray | .int8Array => 1
  | .uint16Array | .int16Array => 2
  | .uint32Array | .int32Array | .float32Array => 4
  | .float64Array => 8

/-- `njs_array_buffer_t`, with the block of its bytes. -/
structure ArrayBuffer where
  data : Option ℕ
  size : ℕ
  shared : Bool

/-- `njs_typed_array_t`, whose offset is counted in elements. -/
structure TypedArray where
  buffer : ℕ
  offset : ℕ
  byteLength : ℕ
  type : ObjectType

/-- The blocks, the array buffers, and the block that is allocated next. -/
structure Heap where
  block : ℕ → Memory
  buffer : ℕ → ArrayBuffer
  fresh : ℕ

def njsBufferSlot (array : TypedArray) : Except Thrown TypedArray :=
  if array.type = .uint8Array then .ok array
  else .error (.typeError "\"this\" argument must be an instance of Buffer or Uint8Array")

/-- `UINT32_MAX`. -/
def uint32Max : ℤ := 0xffffffff

def njsValueToIndex (overflow : BitVec 64) : Option IntegerOrInfinity → Except Thrown ℕ
  | none => .ok 0
  | some value =>
    let integerIndex := njsNumberToInteger overflow value
    if integerIndex < 0 ∨ uint32Max < integerIndex then .error (.rangeError "invalid index")
    else .ok integerIndex.toNat

namespace Heap

/-- The bytes of a block are replaced. -/
def store (h : Heap) (d : ℕ) (m : Memory) : Heap :=
  { h with block := fun e => if e = d then m else h.block e }

/-- `njs_array_buffer_writable` for an array buffer with some block. -/
def njsArrayBufferWritable (h : Heap) (b d : ℕ) : ℕ × Heap :=
  if (h.buffer b).shared then
    let copy := (h.block h.fresh).write 0 ((h.block d).read 0 (h.buffer b).size)
    (h.fresh,
      { block := fun e => if e = h.fresh then copy else h.block e
        buffer := fun c =>
          if c = b then ⟨some h.fresh, (h.buffer b).size, false⟩ else h.buffer c
        fresh := h.fresh + 1 })
  else (d, h)

def njsTypedArrayWritable (h : Heap) (array : TypedArray) : Except Thrown (ℕ × Heap) :=
  match (h.buffer array.buffer).data with
  | none => .error (.typeError "detached buffer")
  | some d => .ok (h.njsArrayBufferWritable array.buffer d)

/-- A byte of an array buffer. -/
def get (h : Heap) (b i : ℕ) : Option UInt8 :=
  (h.buffer b).data.bind fun d => if i < (h.buffer b).size then some (h.block d i) else none

/-- What always holds of array buffers. -/
structure Ok (h : Heap) : Prop where
  old : ∀ b d, (h.buffer b).data = some d → d < h.fresh
  /-- Array buffers that have one block are marked as shared. -/
  apart : ∀ b c d, b ≠ c → (h.buffer b).data = some d → (h.buffer c).data = some d →
    (h.buffer b).shared = true
  size_le : ∀ b, ((h.buffer b).size : ℤ) ≤ uint32Max

/-- An array buffer is the only one that has a block. -/
structure Owns (h : Heap) (b d : ℕ) : Prop where
  data : (h.buffer b).data = some d
  only : ∀ c ≠ b, (h.buffer c).data ≠ some d

/-- The bytes of an array buffer are changed to others from a place on, and nothing else is. -/
def Changed (h h' : Heap) (b p : ℕ) (l : Bytes) : Prop :=
  ∀ c i, h'.get c i = if c = b ∧ p ≤ i ∧ i < p + l.length then l[i - p]? else h.get c i

/-- No byte of an array buffer is changed. -/
def Same (h h' : Heap) : Prop := ∀ c i, h'.get c i = h.get c i

end Heap

/-- A view is within its array buffer, if this has not been detached. -/
structure TypedArray.Within (array : TypedArray) (h : Heap) : Prop where
  fits : (h.buffer array.buffer).data ≠ none →
    array.offset * njsTypedArrayElementSize array.type + array.byteLength ≤
      (h.buffer array.buffer).size
  length_le : (array.byteLength : ℤ) ≤ uint32Max

/-- The number of bytes of a view. Nothing is left of it in an array buffer that is detached. -/
def TypedArray.extent (array : TypedArray) (h : Heap) : ℕ :=
  if (h.buffer array.buffer).data = none then 0 else array.byteLength

/-- The place of the first byte of a view. -/
def TypedArray.start (array : TypedArray) : ℕ :=
  array.offset * njsTypedArrayElementSize array.type

def TypedArray.bytes (array : TypedArray) (h : Heap) : Bytes :=
  match (h.buffer array.buffer).data with
  | none => []
  | some d => (h.block d).read array.start array.byteLength

theorem start_uint8 {array : TypedArray} (htype : array.type = .uint8Array) :
    array.start = array.offset := by
  rw [TypedArray.start, htype, njsTypedArrayElementSize, Nat.mul_one]

namespace Heap

variable {h h' h'' : Heap} {array : TypedArray} {b d : ℕ}

theorem same_refl (h : Heap) : Same h h := fun _ _ => rfl

theorem get_of_data (hdata : (h.buffer b).data = some d) (i : ℕ) :
    h.get b i = if i < (h.buffer b).size then some (h.block d i) else none := by
  rw [get, hdata, Option.bind_some]

/-- The same bytes are in a block of one owner. -/
structure Writable (h h' : Heap) (b d : ℕ) : Prop where
  ok : h'.Ok
  same : Same h h'
  owns : h'.Owns b d
  size : (h'.buffer b).size = (h.buffer b).size
  detached : ∀ c, (h'.buffer c).data = none ↔ (h.buffer c).data = none

theorem njsTypedArrayWritable_of_none (hdata : (h.buffer array.buffer).data = none) :
    h.njsTypedArrayWritable array = .error (.typeError "detached buffer") := by
  rw [njsTypedArrayWritable, hdata]

theorem writable_njsArrayBufferWritable (hok : h.Ok) (hdata : (h.buffer b).data = some d) :
    Writable h (h.njsArrayBufferWritable b d).2 b (h.njsArrayBufferWritable b d).1 := by
  have hd := hok.old b d hdata
  rw [njsArrayBufferWritable]
  split_ifs with hshared
  · have hold : ∀ c e, (h.buffer c).data = some e → e ≠ h.fresh :=
      fun c e he => Nat.ne_of_lt (hok.old c e he)
    refine ⟨⟨fun c e he => ?_, fun c c' e hne hc hc' => ?_, fun c => ?_⟩, fun c i => ?_,
      ⟨?_, fun c hc => ?_⟩, ?_, fun c => ?_⟩
    all_goals dsimp only at *
    · split_ifs at he with hcb
      · cases he
        exact Nat.lt_succ_self _
      · exact Nat.lt_succ_of_lt (hok.old c e he)
    · split_ifs at hc hc' with hcb hcb' hcb'
      · exact absurd (hcb.trans hcb'.symm) hne
      · cases hc
        exact absurd rfl (hold c' _ hc')
      · cases hc'
        exact absurd rfl (hold c _ hc)
      · rw [if_neg hcb]
        exact hok.apart c c' e hne hc hc'
    · split_ifs
      · exact hok.size_le b
      · exact hok.size_le c
    · by_cases hcb : c = b
      · subst hcb
        rw [get_of_data hdata]
        simp only [get, if_true, Option.bind_some]
        split_ifs with hi
        · have hread := Memory.write_add (m := h.block h.fresh) (p := 0)
            (l := (h.block d).read 0 (h.buffer c).size) (i := i) (by rwa [Memory.length_read])
          rw [Nat.zero_add, Memory.getElem_read, Nat.zero_add] at hread
          rw [hread]
        · rfl
      · simp only [get, if_neg hcb]
        rcases hdata' : (h.buffer c).data with _ | e
        · rfl
        · simp only [Option.bind_some, if_neg (hold c e hdata')]
    · rw [if_pos rfl]
    · rw [if_neg hc]
      exact fun he => hold c _ he rfl
    · rw [if_pos rfl]
    · split_ifs with hcb
      · rw [hcb, hdata]
        simp only [reduceCtorEq]
      · exact Iff.rfl
  · refine ⟨hok, same_refl h, ⟨hdata, fun c hc he => hshared ?_⟩, rfl, fun _ => Iff.rfl⟩
    exact hok.apart b c d hc.symm hdata he

theorem njsTypedArrayWritable_of_data (hok : h.Ok) (hdata : (h.buffer array.buffer).data = some d) :
    ∃ e h', h.njsTypedArrayWritable array = .ok (e, h') ∧ Writable h h' array.buffer e := by
  refine ⟨_, _, ?_, writable_njsArrayBufferWritable hok hdata⟩
  rw [njsTypedArrayWritable, hdata]

theorem Ok.store (hok : h.Ok) (d : ℕ) (m : Memory) : (h.store d m).Ok :=
  ⟨hok.old, hok.apart, hok.size_le⟩

theorem Owns.changed (howns : h.Owns b d) {p : ℕ} {l : Bytes}
    (hfits : p + l.length ≤ (h.buffer b).size) :
    Changed h (h.store d ((h.block d).write p l)) b p l := by
  intro c i
  have hbuffer : (h.store d ((h.block d).write p l)).buffer = h.buffer := rfl
  by_cases hcb : c = b
  · subst hcb
    rw [get_of_data (hbuffer ▸ howns.data), get_of_data howns.data, hbuffer]
    simp only [Heap.store, if_true, true_and]
    split_ifs with hi hrange hrange
    · obtain ⟨k, rfl⟩ := Nat.exists_eq_add_of_le hrange.1
      rw [Memory.write_add (by omega), Nat.add_sub_cancel_left, List.getElem?_eq_getElem]
    · rw [Memory.write_outside (by omega)]
    · omega
    · rfl
  · rw [if_neg fun h => hcb h.1, get, get, hbuffer]
    rcases hdata : (h.buffer c).data with _ | e
    · rfl
    · have hne : e ≠ d := fun h => howns.only c hcb (h ▸ hdata)
      simp only [Option.bind_some, Heap.store, if_neg hne]

theorem Same.changed (hsame : Same h h') {p : ℕ} {l : Bytes} (hchanged : Changed h' h'' b p l) :
    Changed h h'' b p l := fun c i => by rw [hchanged c i, hsame c i]

theorem get_eq_some {i : ℕ} {v : UInt8} (hdata : (h.buffer b).data = some d)
    (hget : h.get b i = some v) : h.block d i = v := by
  rw [get_of_data hdata] at hget
  split_ifs at hget
  exact Option.some.inj hget

end Heap

def eightBytes : Heap where
  block _ i := UInt8.ofNat i
  buffer b := if b = 0 then ⟨some 0, 8, false⟩ else ⟨none, 0, false⟩
  fresh := 1

theorem ok_eightBytes : eightBytes.Ok := by
  have hdata : ∀ b d, (eightBytes.buffer b).data = some d → b = 0 ∧ d = 0 := by
    intro b d h
    by_cases hb : b = 0
    · subst hb
      cases h
      exact ⟨rfl, rfl⟩
    · rw [show eightBytes.buffer b = ⟨none, 0, false⟩ from if_neg hb] at h
      cases h
  refine ⟨fun b d h => ?_, fun b c d hne hb hc => ?_, fun b => ?_⟩
  · rw [(hdata b d h).2]
    exact Nat.one_pos
  · exact absurd ((hdata b d hb).1.trans (hdata c d hc).1.symm) hne
  · rw [eightBytes]
    dsimp only
    split_ifs <;> decide

def sevenBytes : TypedArray := ⟨0, 1, 7, .uint8Array⟩

theorem within_sevenBytes : sevenBytes.Within eightBytes := ⟨fun _ => by decide, by decide⟩

end Njs.Buffer
