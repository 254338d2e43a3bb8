import Njs.TypedArrays.World

/-!
# The creation of views

Typed arrays and DataViews are made over an array buffer that exists, or over a new one.
-/

namespace Njs.TypedArrays

open Buffer (TypedArray Thrown ObjectType njsTypedArrayElementSize uint32Max)
open Simulation (exec)
open Reentrant (Ends ends_forM ends_get ends_ite ends_pure ends_test ends_throw)

variable {lent : ℕ → Memory} {w : World}

section

variable (overflow : BitVec 64)

/-! ### Array buffers -/

def njsArrayBufferConstructor (size : Integer) : Native ℕ := do
  let size ← njsValueToIndex overflow size
  alloc size true

/-- A position that is relative to the end if it is negative. -/
def relativeTo (length : ℕ) (n : ℤ) : Native ℕ :=
  if n < 0 then do return (← int64 (length + n)).toNat
  else return min n.toNat length

def njsArrayBufferSlice (b : ℕ) (start stop : ℤ) : Native ℕ := do
  let length := ((← get).heap.buffer b).size
  let first ← relativeTo length start
  let final ← relativeTo length stop
  let newLen := final - first
  let c ← alloc newLen true
  match ((← get).heap.buffer b).data with
  | none => return c
  | some d => do
    put c 0 (((← get).heap.block d).read first newLen)
    return c

def njsArrayBufferPrototypeSlice (b : ℕ) (start stop : Integer) : Native ℕ := do
  let _ ← attached b
  let length := ((← get).heap.buffer b).size
  let start ← njsValueToInteger overflow start
  let stop ← if stop.isSome then njsValueToInteger overflow stop else pure (length : ℤ)
  njsArrayBufferSlice b start stop

/-! ### Typed arrays -/

/-- `njs_typed_array_prop`. -/
def load (array : TypedArray) (i : ℕ) : Native Num := do
  match ((← get).heap.buffer array.buffer).data with
  | none => throw .crash
  | some d =>
    let size := njsTypedArrayElementSize array.type
    return njsTypedArrayGet array.type
      (((← get).heap.block d).read ((array.offset + i) * size) size)

def njsTypedArrayPropSet (array : TypedArray) (i : ℕ) (v : Num) : Native Unit :=
  put array.buffer ((array.offset + i) * njsTypedArrayElementSize array.type)
    (njsTypedArrayPropBytes array.type v)

/-- What a typed array is made of. -/
inductive Source
  | arrayBuffer (b : ℕ) (offset length : Integer)
  | typedArray (src : TypedArray)
  | object (length : Integer) (item : ℕ → Script Num)
  | index (length : Integer)

/-- The offset and the size of a typed array that is made over an array buffer. The length is
converted twice. -/
def viewRange (b : ℕ) (offset length : Integer) (type : ObjectType) : Native (ℕ × ℕ) := do
  let elementSize := njsTypedArrayElementSize type
  let offset ← njsValueToIndex overflow offset
  if offset % elementSize ≠ 0 then
    raise (.rangeError ("start offset must be multiple of " ++ toString elementSize))
  else do
    let _ ← njsValueToIndex overflow length
    let _ ← attached b
    if length.isSome then do
      let size ← njsValueToIndex overflow length
      let size ← uint64 (size * elementSize)
      let stop ← uint64 (offset + size)
      if ((← get).heap.buffer b).size < stop then
        raise (.rangeError ("Invalid typed array length: " ++ toString size))
      else return (offset, size)
    else do
      let bufferSize := ((← get).heap.buffer b).size
      if bufferSize % elementSize ≠ 0 then
        raise (.rangeError ("byteLength of buffer must be multiple of " ++ toString elementSize))
      else if bufferSize < offset then
        raise (.rangeError
          ("byteOffset " ++ toString offset ++ " is outside the bound of the buffer"))
      else return (offset, bufferSize - offset)

def njsTypedArrayAlloc (source : Source) (zeroing : Bool) (type : ObjectType) :
    Native TypedArray := do
  let elementSize := njsTypedArrayElementSize type
  match source with
  | .arrayBuffer b offset length => do
    let (offset, size) ← viewRange overflow b offset length type
    return ⟨b, offset / elementSize, size, type⟩
  | .typedArray src => do
    let _ ← attached src.buffer
    let length ← uint32 (njsTypedArrayLength src)
    let size ← uint64 (length * elementSize)
    let b ← alloc size zeroing
    let array : TypedArray := ⟨b, 0, size, type⟩
    if type ≠ src.type then
      forM (List.range length) fun i => do njsTypedArrayPropSet array i (← load src i)
    else do
      let d ← attached src.buffer
      put b 0 (((← get).heap.block d).read src.start size)
    return array
  | .object length item => do
    let length ← njsValueToLength length
    let size ← int64 (length * elementSize)
    let b ← alloc size.toNat zeroing
    let array : TypedArray := ⟨b, 0, size.toNat, type⟩
    forM (List.range length) fun i => do njsTypedArrayPropSet array i (← script (item i))
    return array
  | .index length => do
    let size ← njsValueToIndex overflow length
    let size ← uint64 (size * elementSize)
    let b ← alloc size zeroing
    return ⟨b, 0, size, type⟩

def number (n : ℤ) : Integer := some (pure (.integer n))

/-- A constructor. One of script gives the number of a view. -/
inductive Constructor
  | typedArray (type : ObjectType)
  | script (result : Script ℕ)

def typedArrayAt (i : ℕ) : Native TypedArray := do
  match (← get).views[i]? with
  | some (.typedArray array) => return array
  | _ => raise (.typeError "Derived TypedArray constructor returned not a typed array")

/-- `njs_typed_array_create`, where it is said what a single argument is. -/
def njsTypedArrayCreate (constructor : Constructor) (args : Source) (length : Option ℤ) :
    Native TypedArray := do
  let array ← match constructor with
    | .typedArray type => do
      let array ← njsTypedArrayAlloc overflow args true type
      register (.typedArray array)
      pure array
    | .script result => do typedArrayAt (← script result)
  let _ ← attached array.buffer
  if length.elim false fun n => (njsTypedArrayLength array : ℤ) < n then
    raise (.typeError "Derived TypedArray constructor returned too short array")
  else return array

/-- An argument whose exceptions are replaced. -/
def relabelled (e : Thrown) (arg : Integer) : Integer :=
  arg.map (ExceptT.adapt fun _ => .thrown e)

/-- The range of `njs_typed_array_prototype_slice`. -/
def sliceRange (array : TypedArray) (start stop : Integer) : Native (ℕ × ℕ) := do
  let length ← uint32 (njsTypedArrayLength array)
  let start ← njsValueToInteger overflow (relabelled (.rangeError "invalid start") start)
  let start ← relativeTo length start
  let stop ← if stop.isSome then
      njsValueToInteger overflow (relabelled (.rangeError "invalid end") stop)
    else pure (length : ℤ)
  let stop ← relativeTo length stop
  return (start, stop)

/-- The array that `njs_typed_array_prototype_slice` copies to, and the range that it copies. -/
def sliceTarget (array : TypedArray) (start stop : Integer) (constructor : Constructor) :
    Native (TypedArray × ℕ × ℕ) := do
  let _ ← attached array.buffer
  let (start, stop) ← sliceRange overflow array start stop
  let count := stop - start
  let newArray ← njsTypedArrayCreate overflow constructor (.index (number count)) (some count)
  return (newArray, start, count)

/-- `njs_slice_memcpy`, between two array buffers. -/
def njsSliceMemcpy (b dst c src n : ℕ) : Native Unit := do
  let w ← get
  match (w.heap.buffer b).data, (w.heap.buffer c).data with
  | some d, some e =>
    if d ≠ e ∨ dst + n ≤ src ∨ src + n ≤ dst then poke b d dst ((w.heap.block e).read src n)
    else forM (List.range n) fun k => do
      poke b d (dst + k) [(← get).heap.block d (src + k)]
  | _, _ => throw .crash

/-- `njs_typed_array_prototype_slice` for `slice`. The offset of the array that is copied to is not
looked at if it has the same type. -/
def njsTypedArrayPrototypeSlice (array : TypedArray) (start stop : Integer)
    (constructor : Constructor) : Native TypedArray := do
  let (newArray, start, count) ← sliceTarget overflow array start stop constructor
  if count = 0 then return newArray
  else do
    let _ ← attached array.buffer
    if array.type = newArray.type then do
      let elementSize := njsTypedArrayElementSize array.type
      njsSliceMemcpy newArray.buffer 0 array.buffer (array.start + start * elementSize)
        (count * elementSize)
    else
      forM (List.range count) fun i => do
        njsTypedArrayPropSet newArray i (← load array (i + start))
    return newArray

/-- `njs_typed_array_prototype_slice` for `subarray`. -/
def njsTypedArrayPrototypeSubarray (array : TypedArray) (start stop : Integer)
    (constructor : Constructor) : Native TypedArray := do
  let (start, stop) ← sliceRange overflow array start stop
  let offset ← int64 (array.start + start * njsTypedArrayElementSize array.type)
  njsTypedArrayCreate overflow constructor
    (.arrayBuffer array.buffer (number offset) (number (stop - start : ℕ))) none

/-- The array that `njs_typed_array_of` stores to, and the first number. -/
def ofTarget (constructor : Constructor) (length : ℕ) (item : ℕ → Script Num) :
    Native (TypedArray × Num) := do
  let array ← njsTypedArrayCreate overflow constructor (.index (number length)) (some length)
  return (array, ← script (item 0))

def njsTypedArrayOf (constructor : Constructor) (length : ℕ) (item : ℕ → Script Num) :
    Native TypedArray := do
  let length ← uint32 length
  let array ← njsTypedArrayCreate overflow constructor (.index (number length)) (some length)
  forM (List.range length) fun i => do njsTypedArrayPropSet array i (← script (item i))
  return array

/-- The array that `njs_typed_array_from` stores to, and the first number. -/
def fromTarget (constructor : Constructor) (length : Integer) (item : ℕ → Script Num) :
    Native (ℕ × TypedArray × Num) := do
  let length ← njsValueToLength length
  return (length, ← ofTarget overflow constructor length item)

/-- `njs_typed_array_from`. An item is what the function for items makes of it. -/
def njsTypedArrayFrom (constructor : Constructor) (length : Integer) (item : ℕ → Script Num) :
    Native TypedArray := do
  let length ← njsValueToLength length
  let array ← njsTypedArrayCreate overflow constructor (.index (number length)) (some length)
  forM (List.range length) fun i => do
    let num ← script (item i)
    if ((← get).heap.buffer array.buffer).data = none then return ⟨⟩
    else njsTypedArrayPropSet array i num
  return array

/-! ### DataViews -/

def njsDataViewConstructor (b : ℕ) (offset length : Integer) : Native DataView := do
  let offset ← njsValueToIndex overflow offset
  let _ ← attached b
  if length.isSome then do
    let size ← njsValueToIndex overflow length
    let stop ← uint64 (offset + size)
    if ((← get).heap.buffer b).size < stop then
      raise (.rangeError ("Invalid DataView length: " ++ toString size))
    else return ⟨b, offset, size⟩
  else do
    let bufferSize := ((← get).heap.buffer b).size
    if bufferSize < offset then
      raise (.rangeError
        ("byteOffset " ++ toString offset ++ " is outside the bound of the buffer"))
    else return ⟨b, offset, bufferSize - offset⟩

end

/-! ### What is made -/

section

variable {overflow : BitVec 64} {b : ℕ} {array : TypedArray}

/-- Scripts that keep the invariant, for an argument. -/
def GoodInteger (lent : ℕ → Memory) (arg : Integer) : Prop :=
  ∀ x ∈ arg, GoodScript lent x

theorem goodInteger_number (n : ℤ) : GoodInteger lent (number n) := by
  rintro x hx
  exact Option.some.inj hx ▸ goodScript_pure _

theorem GoodInteger.relabelled {arg : Integer} (h : GoodInteger lent arg) (e : Thrown) :
    GoodInteger lent (relabelled e arg) := by
  rintro x hx
  obtain ⟨y, hy, rfl⟩ := Option.map_eq_some_iff.1 hx
  exact h y hy

theorem ends_relativeTo (hw : (frame lent).Inv w) {length : ℕ} {n : ℤ} (hn : -2 ^ 63 ≤ n)
    (hlength : length < 2 ^ 32) :
    Ends (frame lent) (relativeTo length n) w fun k t => k ≤ length ∧ t = w := by
  refine ends_ite (fun hneg => ?_) fun hpos => ?_
  · refine (ends_int64 hw (by omega) (by omega)).bind ?_
    rintro m t - ht - ⟨rfl, rfl⟩
    exact ends_pure ht ⟨by omega, rfl⟩
  · exact ends_pure hw ⟨min_le_right _ _, rfl⟩

theorem ends_load (hw : (frame lent).Inv w) {i : ℕ} :
    Ends (frame lent) (load array i) w fun _ t => t = w := by
  refine ends_get ?_
  rcases (w.heap.buffer array.buffer).data with _ | d
  · exact ends_throw hw
  · exact ends_get (ends_pure hw rfl)

theorem elementSize_le (type : ObjectType) : njsTypedArrayElementSize type ≤ 8 := by
  cases type <;> decide

theorem ends_viewRange {offset length : Integer} {type : ObjectType}
    (hw : (frame lent).Inv w) (hoffset : GoodInteger lent offset)
    (hlength : GoodInteger lent length) :
    Ends (frame lent) (viewRange overflow b offset length type) w fun r t =>
      r.1 % njsTypedArrayElementSize type = 0 ∧ (r.1 : ℤ) ≤ uint32Max ∧
        r.1 + r.2 ≤ (t.heap.buffer b).size := by
  have hsize := elementSize_le type
  refine (ends_njsValueToIndex hoffset hw).bind fun offset t _ ht _ hoffset => ?_
  refine ends_test ht fun hmod => ?_
  rw [not_not] at hmod
  refine (ends_njsValueToIndex hlength ht).bind fun _ t _ ht _ _ => ?_
  refine (ends_attached ht).bind ?_
  rintro d t' - ht - -
  refine ends_ite (fun _ => ?_) fun _ => ?_
  · refine (ends_njsValueToIndex hlength ht).bind fun size t _ ht _ hle => ?_
    rw [uint32Max] at hle hoffset
    have hmul : size * njsTypedArrayElementSize type ≤ size * 8 := Nat.mul_le_mul_left _ hsize
    refine (ends_uint64 ht (by omega)).bind ?_
    rintro n t' - ht - ⟨rfl, rfl⟩
    refine (ends_uint64 ht (by omega)).bind ?_
    rintro n t' - ht - ⟨rfl, rfl⟩
    refine ends_get (ends_test ht fun hstop => ?_)
    exact ends_pure ht ⟨hmod, hoffset, not_lt.1 hstop⟩
  · refine ends_get (ends_test ht fun _ => ?_)
    refine ends_test ht fun hle => ends_pure ht ⟨hmod, hoffset, ?_⟩
    dsimp only at hle ⊢
    omega

theorem ends_storeItems (hw : (frame lent).Inv w) (hb : MayWrite w b)
    {f : ℕ → Native Num} {g : ℕ → Num → Native Unit}
    (hf : ∀ i w, (frame lent).Inv w → Ends (frame lent) (f i) w fun _ _ => True)
    (hg : ∀ i v w, (frame lent).Inv w → MayWrite w b →
      Ends (frame lent) (g i v) w fun _ _ => True) (l : List ℕ) :
    Ends (frame lent) (forM l fun i => do g i (← f i)) w fun _ _ => True := by
  refine (ends_forM (I := fun t => MayWrite t b) l (fun i _ t ht hI => ?_) hw
    hb).mono fun _ _ _ _ _ _ => trivial
  refine (hf i t ht).bind fun v t' _ ht' hlater _ => ?_
  exact (hg i v t' ht' (hI.later hlater)).mono fun _ _ _ _ hlater' _ =>
    (hI.later hlater).later hlater'

theorem ends_njsTypedArrayPropSet (hw : (frame lent).Inv w)
    (hb : MayWrite w array.buffer) (i : ℕ) (v : Num) :
    Ends (frame lent) (njsTypedArrayPropSet array i v) w fun _ _ => True :=
  ends_put hw hb

/-- What a typed array may be made of. -/
def Source.Good (lent : ℕ → Memory) (w : World) : Source → Prop
  | .arrayBuffer b offset length =>
    b < w.count ∧ GoodInteger lent offset ∧ GoodInteger lent length
  | .typedArray src => (View.typedArray src).Within w
  | .object length item => GoodInteger lent length ∧ ∀ i, GoodScript lent (item i)
  | .index length => GoodInteger lent length

theorem within_whole {size : ℕ} (type : ObjectType) (hcount : b < w.count)
    (hsize : (w.heap.buffer b).size = size) (hle : (size : ℤ) ≤ uint32Max) :
    (View.typedArray ⟨b, 0, size, type⟩).Within w := by
  refine ⟨hcount, ⟨fun _ => ?_, hle⟩, ?_⟩
  · simp only [Nat.zero_mul, Nat.zero_add, hsize, le_refl]
  · rw [TypedArray.start, Nat.zero_mul]
    decide

/-- A new array buffer is made. -/
def Source.IsNew : Source → Prop
  | .arrayBuffer _ _ _ => False
  | _ => True

theorem ends_njsTypedArrayAlloc {source : Source} {zeroing : Bool} {type : ObjectType}
    (hw : (frame lent).Inv w) (hsource : source.Good lent w) :
    Ends (frame lent) (njsTypedArrayAlloc overflow source zeroing type) w fun array t =>
      (View.typedArray array).Within t ∧
        (source.IsNew → (t.heap.buffer array.buffer).shared = false) := by
  have hsize := elementSize_le type
  cases source with
  | arrayBuffer b offset length =>
    obtain ⟨hb, hoffset, hlength⟩ := hsource
    refine (ends_viewRange hw hoffset hlength).bind ?_
    rintro ⟨offset, size⟩ t - ht hlater ⟨hmod, hoffset, hfits⟩
    have hstart : offset / njsTypedArrayElementSize type * njsTypedArrayElementSize type = offset :=
      Nat.div_mul_cancel (Nat.dvd_of_mod_eq_zero hmod)
    refine ends_pure ht ⟨⟨hb.trans_le hlater.count_le, ⟨fun _ => ?_, ?_⟩, ?_⟩, nofun⟩
    · dsimp only at hfits ⊢
      rwa [hstart]
    · have := ht.1.ok.size_le b
      dsimp only at hfits ⊢
      omega
    · rw [TypedArray.start]
      dsimp only
      rwa [hstart]
  | typedArray src =>
    refine (ends_attached hw).bind ?_
    rintro d t - ht hlater -
    have hlength : njsTypedArrayLength src < 2 ^ 32 := by
      have hle := hsource.2.1.length_le
      have := Nat.div_le_self src.byteLength (njsTypedArrayElementSize src.type)
      rw [uint32Max] at hle
      rw [njsTypedArrayLength]
      omega
    refine (ends_uint32 ht hlength).bind ?_
    rintro length t' - ht - ⟨rfl, rfl⟩
    have hmul := Nat.mul_le_mul_left (njsTypedArrayLength src) hsize
    refine (ends_uint64 ht (by omega)).bind ?_
    rintro size t' - ht - ⟨rfl, rfl⟩
    refine (ends_alloc ht).bind ?_
    rintro b t - ht hlater ⟨hb, hbsize, hle, d, hd, ho⟩
    have hwithin := within_whole type hb hbsize hle
    refine ends_ite (fun _ => ?_) fun _ => ?_
    · refine (ends_storeItems (b := b) ht (ho.mayWrite hb)
        (fun i w hw => (ends_load hw).mono fun _ _ _ _ _ _ => trivial)
        (fun i v w hw hb => ends_njsTypedArrayPropSet hw hb i v) _).bind ?_
      exact fun _ t' _ ht' hlater _ => ends_pure ht'
        ⟨hwithin.later hlater, fun _ => hlater.unshared b hb ho.shared⟩
    · refine (ends_attached ht).bind ?_
      rintro e t' - ht' - ⟨rfl, he⟩
      refine ends_get ((ends_put ht' (ho.mayWrite hb)).bind ?_)
      exact fun _ t' _ ht' hlater _ => ends_pure ht'
        ⟨hwithin.later hlater, fun _ => hlater.unshared b hb ho.shared⟩
  | object length item =>
    obtain ⟨hlength, hitem⟩ := hsource
    refine (ends_njsValueToLength hlength hw).bind fun n t _ ht _ hn => ?_
    rw [njsMaxLength] at hn
    have hmul := Nat.mul_le_mul_left n hsize
    refine (ends_int64 ht (by omega) (by omega)).bind ?_
    rintro size t' - ht - ⟨rfl, rfl⟩
    refine (ends_alloc ht).bind ?_
    rintro b t - ht hlater ⟨hb, hbsize, hle, d, hd, ho⟩
    have hwithin := within_whole type hb hbsize hle
    refine (ends_storeItems (b := b) ht (ho.mayWrite hb)
      (fun i w hw => (ends_script (hitem i) hw).mono fun _ _ _ _ _ _ => trivial)
      (fun i v w hw hb => ends_njsTypedArrayPropSet hw hb i v) _).bind ?_
    exact fun _ t' _ ht' hlater _ => ends_pure ht'
      ⟨hwithin.later hlater, fun _ => hlater.unshared b hb ho.shared⟩
  | index length =>
    refine (ends_njsValueToIndex hsource hw).bind fun size t _ ht _ hle => ?_
    rw [uint32Max] at hle
    have hmul := Nat.mul_le_mul_left size hsize
    refine (ends_uint64 ht (by omega)).bind ?_
    rintro n t' - ht - ⟨rfl, rfl⟩
    refine (ends_alloc ht).bind ?_
    rintro b t - ht hlater ⟨hb, hbsize, hle, d, -, ho⟩
    exact ends_pure ht ⟨within_whole type hb hbsize hle, fun _ => ho.shared⟩

def Constructor.Good (lent : ℕ → Memory) : Constructor → Prop
  | .typedArray _ => True
  | .script result => GoodScript lent result

theorem ends_typedArrayAt (hw : (frame lent).Inv w) (i : ℕ) :
    Ends (frame lent) (typedArrayAt i) w fun array t =>
      (View.typedArray array).Within t := by
  refine ends_get ?_
  rcases hview : w.views[i]? with _ | (array | view)
  · exact ends_raise hw
  · exact ends_pure hw (hw.1.views _ (List.mem_of_getElem? hview))
  · exact ends_raise hw

variable {constructor : Constructor} {start stop : Integer}

theorem ends_njsTypedArrayCreate {args : Source} {length : Option ℤ} (hw : (frame lent).Inv w)
    (hconstructor : constructor.Good lent) (hargs : args.Good lent w) :
    Ends (frame lent) (njsTypedArrayCreate overflow constructor args length) w fun array t =>
      (View.typedArray array).Within t ∧ ∀ n ∈ length, n ≤ njsTypedArrayLength array := by
  have htail : ∀ array t, (frame lent).Inv t → (View.typedArray array).Within t →
      Ends (frame lent) (do
        let _ ← attached array.buffer
        if length.elim false fun n => (njsTypedArrayLength array : ℤ) < n then
          raise (.typeError "Derived TypedArray constructor returned too short array")
        else return array) t fun array t =>
          (View.typedArray array).Within t ∧ ∀ n ∈ length, n ≤ njsTypedArrayLength array := by
    intro array t ht hwithin
    refine (ends_attached ht).bind ?_
    rintro d t' - ht' - ⟨rfl, -⟩
    refine ends_test ht' fun hle => ends_pure ht' ⟨hwithin, ?_⟩
    rintro n rfl
    exact not_lt.1 fun hlt => hle (decide_eq_true hlt)
  cases constructor with
  | typedArray type =>
    refine (ends_njsTypedArrayAlloc hw hargs).bind fun array t _ ht _ ⟨hwithin, _⟩ => ?_
    refine (ends_register ht hwithin).bind fun _ t' _ ht' hlater _ => ?_
    exact htail array t' ht' (hwithin.later hlater)
  | script result =>
    refine (ends_script hconstructor hw).bind fun i t _ ht _ _ => ?_
    exact (ends_typedArrayAt ht i).bind fun array t' _ ht' _ hwithin => htail array t' ht' hwithin

theorem length_lt (h : (View.typedArray array).Within w) : njsTypedArrayLength array < 2 ^ 32 := by
  have hle := h.2.1.length_le
  have := Nat.div_le_self array.byteLength (njsTypedArrayElementSize array.type)
  rw [uint32Max] at hle
  rw [njsTypedArrayLength]
  omega

theorem ends_sliceRange (hw : (frame lent).Inv w) (harray : (View.typedArray array).Within w)
    (hstart : GoodInteger lent start) (hstop : GoodInteger lent stop) :
    Ends (frame lent) (sliceRange overflow array start stop) w fun r _ =>
      r.1 ≤ njsTypedArrayLength array ∧ r.2 ≤ njsTypedArrayLength array := by
  have hlength := length_lt harray
  refine (ends_uint32 hw hlength).bind ?_
  rintro length t - hw - ⟨rfl, rfl⟩
  refine (ends_njsValueToInteger (hstart.relabelled _) hw).bind fun n t _ ht _ hn => ?_
  refine (ends_relativeTo ht hn.1 hlength).bind ?_
  rintro start t' - ht - ⟨hstart, rfl⟩
  refine ends_ite (fun _ => ?_) fun _ => ?_
  · refine (ends_njsValueToInteger (hstop.relabelled _) ht).bind fun n t _ ht _ hn => ?_
    refine (ends_relativeTo ht hn.1 hlength).bind ?_
    rintro stop t' - ht - ⟨hstop, rfl⟩
    exact ends_pure ht ⟨hstart, hstop⟩
  · refine (ends_pure (Q := fun n _ => -2 ^ 63 ≤ n) ht (by omega)).bind
      fun n t _ ht _ hn => ?_
    refine (ends_relativeTo ht hn hlength).bind ?_
    rintro stop t' - ht - ⟨hstop, rfl⟩
    exact ends_pure ht ⟨hstart, hstop⟩

theorem ends_sliceTarget (hw : (frame lent).Inv w) (harray : (View.typedArray array).Within w)
    (hstart : GoodInteger lent start) (hstop : GoodInteger lent stop)
    (hconstructor : constructor.Good lent) :
    Ends (frame lent) (sliceTarget overflow array start stop constructor) w fun r t =>
      (View.typedArray r.1).Within t := by
  refine (ends_attached hw).bind ?_
  rintro d t - hw - ⟨rfl, -⟩
  refine (ends_sliceRange hw harray hstart hstop).bind fun r t _ ht _ _ => ?_
  have hargs : (Source.index (number (r.2 - r.1 : ℕ))).Good lent t := goodInteger_number _
  refine (ends_njsTypedArrayCreate ht hconstructor hargs).bind fun newArray t _ ht _ hwithin => ?_
  exact ends_pure ht hwithin.1

theorem ends_njsSliceMemcpy {c dst src n : ℕ} (hw : (frame lent).Inv w) (hb : MayWrite w b) :
    Ends (frame lent) (njsSliceMemcpy b dst c src n) w fun _ _ => True := by
  refine ends_get ?_
  rcases hd : (w.heap.buffer b).data with _ | d
  · exact ends_throw hw
  rcases (w.heap.buffer c).data with _ | e
  · exact ends_throw hw
  have ho := hb.owned hw hd
  refine ends_ite (fun _ => ends_poke hw ho) fun _ => ?_
  refine (ends_forM (I := fun t => b < t.count ∧ (t.guarded → Owned t b d)) _
    (fun k _ t ht hI => ?_) hw ⟨hb.lt, ho⟩).mono fun _ _ _ _ _ _ => trivial
  refine ends_get ((ends_poke ht hI.2).mono fun _ t' _ _ hlater _ => ?_)
  exact ⟨hI.1.trans_le hlater.count_le, fun hguarded => (hI.2 (hlater.guarded hguarded)).later hI.1
    hlater⟩

theorem ends_njsTypedArrayPrototypeSlice (hw : (frame lent).Inv w)
    (harray : (View.typedArray array).Within w) (hstart : GoodInteger lent start)
    (hstop : GoodInteger lent stop) (hconstructor : constructor.Good lent)
    (hguard : w.guarded → ∀ r t, exec (sliceTarget overflow array start stop constructor) w = (.ok
      r, t) → r.2.2 ≠ 0 → (t.heap.buffer array.buffer).data ≠ none →
        (t.heap.buffer r.1.buffer).data ≠ none → (t.heap.buffer r.1.buffer).shared = false) :
    Ends (frame lent) (njsTypedArrayPrototypeSlice overflow array start stop constructor) w
      fun _ _ => True := by
  refine (ends_sliceTarget hw harray hstart hstop hconstructor).bind ?_
  rintro ⟨newArray, start, count⟩ t hexec ht hlater hwithin
  refine ends_ite (fun _ => ends_pure ht trivial) fun hcount => ?_
  refine (ends_attached ht).bind ?_
  rintro d t' - ht' - ⟨rfl, hd⟩
  have hb : MayWrite t' newArray.buffer :=
    ⟨hwithin.1, fun hguarded =>
      hguard (hlater.guarded hguarded) _ _ hexec hcount (hd ▸ Option.some_ne_none d)⟩
  refine ends_ite (fun _ => ?_) fun _ => ?_
  · refine (ends_njsSliceMemcpy ht' hb).bind fun _ t _ ht _ _ => ?_
    exact ends_pure ht trivial
  · refine (ends_storeItems ht' hb (fun i w hw => (ends_load hw).mono fun _ _ _ _ _ _ => trivial)
      (fun i v w hw hb => ends_njsTypedArrayPropSet hw hb i v) _).bind fun _ t _ ht _ _ => ?_
    exact ends_pure ht trivial

theorem ends_njsTypedArrayPrototypeSubarray (hw : (frame lent).Inv w)
    (harray : (View.typedArray array).Within w) (hstart : GoodInteger lent start)
    (hstop : GoodInteger lent stop) (hconstructor : constructor.Good lent) :
    Ends (frame lent) (njsTypedArrayPrototypeSubarray overflow array start stop constructor) w
      fun array t => (View.typedArray array).Within t := by
  have hlength := length_lt harray
  have hsize := elementSize_le array.type
  refine (ends_sliceRange hw harray hstart hstop).bind ?_
  rintro ⟨start, stop⟩ t - ht hlater ⟨hle, -⟩
  have hmul := Nat.mul_le_mul hle hsize
  have hplace := harray.2.2
  rw [uint32Max] at hplace
  refine (ends_int64 (n := (array.start + start * njsTypedArrayElementSize array.type : ℕ)) ht
    (by omega) (by dsimp only at hmul; omega)).bind ?_
  rintro offset t' - ht' - ⟨rfl, rfl⟩
  have hargs : (Source.arrayBuffer array.buffer
      (number (array.start + start * njsTypedArrayElementSize array.type : ℕ))
      (number (stop - start : ℕ))).Good lent t' :=
    ⟨harray.1.trans_le hlater.count_le, goodInteger_number _, goodInteger_number _⟩
  exact (ends_njsTypedArrayCreate ht' hconstructor hargs).mono fun _ _ _ _ _ h => h.1

theorem ends_storeFirst {f : ℕ → Script Num} {g : ℕ → Num → Native Unit} {n : ℕ}
    (hw : (frame lent).Inv w) (hb : b < w.count) (hf : ∀ i, GoodScript lent (f i))
    (hg : ∀ i v w, (frame lent).Inv w → MayWrite w b → Ends (frame lent) (g i v) w fun _ _ => True)
    (hguard : w.guarded → n ≠ 0 → ∀ v t, exec (script (f 0)) w = (.ok v, t) →
      (t.heap.buffer b).data ≠ none → (t.heap.buffer b).shared = false) :
    Ends (frame lent) (forM (List.range n) fun i => do g i (← script (f i))) w
      fun _ _ => True := by
  have hscript : ∀ i w, (frame lent).Inv w → Ends (frame lent) (script (f i)) w fun _ _ => True :=
    fun i w hw => (ends_script (hf i) hw).mono fun _ _ _ _ _ _ => trivial
  cases n with
  | zero => exact ends_pure hw trivial
  | succ n =>
    rw [List.range_succ_eq_map, List.forM_cons]
    refine Ends.bind (R := fun _ t => MayWrite t b) ?_ fun _ t _ ht _ hb => ?_
    · refine (hscript 0 w hw).bind fun v t hexec ht hlater _ => ?_
      have hb' : MayWrite t b :=
        ⟨hb.trans_le hlater.count_le, fun hguarded =>
          hguard (hlater.guarded hguarded) n.succ_ne_zero v t hexec⟩
      exact (hg 0 v t ht hb').mono fun _ _ _ _ hlater _ => hb'.later hlater
    · exact ends_storeItems ht hb hscript hg _

def FirstUnshared (target : Native (TypedArray × Num)) (w : World) : Prop :=
  ∀ r t, exec target w = (.ok r, t) → (t.heap.buffer r.1.buffer).data ≠ none →
    (t.heap.buffer r.1.buffer).shared = false

theorem FirstUnshared.item {length : ℕ} {item : ℕ → Script Num} {t : World}
    (h : FirstUnshared (ofTarget overflow constructor length item) w)
    (hexec : exec (njsTypedArrayCreate overflow constructor (.index (number length)) (some length))
      w = (.ok array, t))
    (v : Num) (t' : World) (hitem : exec (script (item 0)) t = (.ok v, t')) :
    (t'.heap.buffer array.buffer).data ≠ none → (t'.heap.buffer array.buffer).shared = false := by
  refine h (array, v) t' ?_
  rw [ofTarget, Simulation.exec_bind_ok hexec, Simulation.exec_bind_ok hitem]
  rfl

theorem ends_njsTypedArrayOf {length : ℕ} {item : ℕ → Script Num} (hw : (frame lent).Inv w)
    (hlength : length < 2 ^ 32) (hconstructor : constructor.Good lent)
    (hitem : ∀ i, GoodScript lent (item i))
    (hguard : w.guarded → length ≠ 0 → FirstUnshared (ofTarget overflow constructor length item) w)
      :
    Ends (frame lent) (njsTypedArrayOf overflow constructor length item) w
      fun array t => (View.typedArray array).Within t := by
  refine (ends_uint32 hw hlength).bind ?_
  rintro n t - ht - ⟨rfl, rfl⟩
  have hargs : (Source.index (number n)).Good lent t := goodInteger_number _
  refine (ends_njsTypedArrayCreate ht hconstructor hargs).bind
    fun array t' hexec ht' hlater hwithin => ?_
  refine (ends_storeFirst ht' hwithin.1.1 hitem
    (fun i v w hw hb => ends_njsTypedArrayPropSet hw hb i v) fun hguarded hn v t hitem =>
      (hguard (hlater.guarded hguarded) hn).item hexec v t hitem).bind fun _ t _ ht hlater _ => ?_
  exact ends_pure ht (hwithin.1.later hlater)

theorem ends_njsTypedArrayFrom {length : Integer} {item : ℕ → Script Num}
    (hw : (frame lent).Inv w) (hlength : GoodInteger lent length)
    (hconstructor : constructor.Good lent) (hitem : ∀ i, GoodScript lent (item i))
    (hguard : w.guarded → ∀ n r t, exec (fromTarget overflow constructor length item) w = (.ok (n,
      r), t) → n ≠ 0 → (t.heap.buffer r.1.buffer).data ≠ none →
        (t.heap.buffer r.1.buffer).shared = false) :
    Ends (frame lent) (njsTypedArrayFrom overflow constructor length item) w
      fun array t => (View.typedArray array).Within t := by
  refine (ends_njsValueToLength hlength hw).bind fun n t hexec ht hlater _ => ?_
  have hargs : (Source.index (number n)).Good lent t := goodInteger_number _
  refine (ends_njsTypedArrayCreate ht hconstructor hargs).bind
    fun array t' hexec' ht' hlater' hwithin => ?_
  refine (ends_storeFirst ht' hwithin.1.1 hitem (fun i v w hw hb => ends_get
    (ends_ite (fun _ => ends_pure hw trivial)
      fun _ => ends_njsTypedArrayPropSet hw hb i v)) fun hguarded hn v u hitem => ?_).bind
        fun _ t _ ht hlater _ => ends_pure ht (hwithin.1.later hlater)
  have hunshared : FirstUnshared (ofTarget overflow constructor n item) t := by
    intro r u hr
    refine hguard (hlater.guarded (hlater'.guarded hguarded)) n r u ?_ hn
    rw [fromTarget, Simulation.exec_bind_ok hexec, Simulation.exec_bind_ok hr]
    rfl
  exact hunshared.item hexec' v u hitem

/-! ### DataViews and array buffers -/

theorem ends_njsDataViewConstructor {offset length : Integer} (hw : (frame lent).Inv w)
    (hb : b < w.count) (hoffset : GoodInteger lent offset)
    (hlength : GoodInteger lent length) :
    Ends (frame lent) (njsDataViewConstructor overflow b offset length) w
      fun view t => (View.dataView view).Within t := by
  refine (ends_njsValueToIndex hoffset hw).bind fun offset t _ ht hlater hoffset => ?_
  refine (ends_attached ht).bind ?_
  rintro d t' - ht' - ⟨rfl, -⟩
  have hb := hb.trans_le hlater.count_le
  refine ends_ite (fun _ => ?_) fun _ => ?_
  · refine (ends_njsValueToIndex hlength ht').bind fun size t _ ht hlater hle => ?_
    rw [uint32Max] at hle hoffset
    refine (ends_uint64 ht (by omega)).bind ?_
    rintro n t' - ht - ⟨rfl, rfl⟩
    refine ends_get (ends_test ht fun hstop => ?_)
    exact ends_pure ht ⟨hb.trans_le hlater.count_le, fun _ => not_lt.1 hstop, hle,
      hoffset⟩
  · refine ends_get (ends_test ht' fun hle => ?_)
    have hsize := ht'.1.ok.size_le b
    refine ends_pure ht' ⟨hb, fun _ => ?_, ?_, hoffset⟩ <;> dsimp only at hle ⊢ <;> omega

theorem ends_njsArrayBufferConstructor {size : Integer} (hw : (frame lent).Inv w)
    (hsize : GoodInteger lent size) :
    Ends (frame lent) (njsArrayBufferConstructor overflow size) w fun _ _ => True :=
  (ends_njsValueToIndex hsize hw).bind fun _ _ _ ht _ _ =>
    (ends_alloc ht).mono fun _ _ _ _ _ _ => trivial

theorem ends_njsArrayBufferPrototypeSlice (hw : (frame lent).Inv w)
    (hstart : GoodInteger lent start) (hstop : GoodInteger lent stop) :
    Ends (frame lent) (njsArrayBufferPrototypeSlice overflow b start stop) w fun _ _ => True := by
  have hslice : ∀ {t start stop}, (frame lent).Inv t → -2 ^ 63 ≤ start → -2 ^ 63 ≤ stop →
      Ends (frame lent) (njsArrayBufferSlice b start stop) t fun _ _ => True := by
    intro t start stop ht hstart hstop
    have hsize := ht.1.ok.size_le b
    rw [uint32Max] at hsize
    refine ends_get ((ends_relativeTo ht hstart (by omega)).bind ?_)
    rintro first t' - ht - ⟨-, rfl⟩
    refine (ends_relativeTo ht hstop (by omega)).bind ?_
    rintro final t'' - ht - ⟨-, rfl⟩
    refine (ends_alloc ht).bind ?_
    rintro c t - ht - ⟨hc, -, -, d, hd, ho⟩
    refine ends_get ?_
    rcases (t.heap.buffer b).data with _ | e
    · exact ends_pure ht trivial
    · refine ends_get ((ends_put ht (ho.mayWrite hc)).bind fun _ t _ ht _ _ => ?_)
      exact ends_pure ht trivial
  refine (ends_attached hw).bind ?_
  rintro d t - ht - ⟨rfl, -⟩
  refine ends_get ((ends_njsValueToInteger hstart ht).bind fun start t _ ht _ hn => ?_)
  refine ends_ite (fun _ => ?_) fun _ => ?_
  · refine (ends_njsValueToInteger hstop ht).bind fun stop t _ ht _ hm => ?_
    exact hslice ht hn.1 hm.1
  · refine (ends_pure (Q := fun n _ => -2 ^ 63 ≤ n) ht (by omega)).bind
      fun stop t _ ht _ hm => ?_
    exact hslice ht hn.1 hm

end

end Njs.TypedArrays
