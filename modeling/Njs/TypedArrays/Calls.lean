import Njs.TypedArrays.Buffers

/-!
# Calls of native functions

Script and the host call native functions, one after the other and from within each other.
-/

namespace Njs.TypedArrays

open Arrays (IntegerOrInfinity)
open Buffer (TypedArray ObjectType uint32Max)
open Native
open Simulation (exec)
open Reentrant (Ends Good)
open Strings (StringProp)

/-! ### Calls -/

/-- A call of a function that creates or writes. Functions that only read leave everything as it is,
but for the script that they call. -/
inductive Call
  | arrayBuffer (size : Integer)
  | arrayBufferSlice (b : ℕ) (start stop : Integer)
  | detach (b : ℕ)
  | typedArray (source : Source) (type : ObjectType)
  | typedArrayOf (constructor : Constructor) (length : UInt32) (item : ℕ → Script Num)
  | typedArrayFrom (constructor : Constructor) (length : Integer) (item : ℕ → Script Num)
  | dataView (b : ℕ) (offset length : Integer)
  | setProperty (array : TypedArray) (index : ℕ) (setval : Script Num)
  | setTyped (self src : TypedArray) (offset : Integer)
  | setObject (self : TypedArray) (srcLength : Integer) (item : ℕ → Script Num) (offset : Integer)
  | fill (array : TypedArray) (value : Script Num) (start stop : Integer)
  | copyWithin (array : TypedArray) (target start stop : Integer)
  | slice (array : TypedArray) (start stop : Integer) (constructor : Constructor)
  | subarray (array : TypedArray) (start stop : Integer) (constructor : Constructor)
  | reverse (array : TypedArray)
  | toReversed (self : TypedArray)
  | sort (array : TypedArray) (comparefn : Option Compare)
  | toSorted (self : TypedArray) (comparefn : Option Compare)
  | map (array : TypedArray) (callback : ℕ → Num → Script (Script Num)) (constructor : Constructor)
  | filter (array : TypedArray) (callback : ℕ → Num → Script Bool) (constructor : Constructor)
  | dataViewSet (view : DataView) (type : ObjectType) (index : Integer) (value : Script Num)
      (littleEndian : Bool)
  | encodeInto (dest : TypedArray) (input : Script Bytes)
  | encode (prop : StringProp)
  | getRandomValues (value : View ⊕ ℕ) (random : ℕ → Bytes)
  | bufferGet (value : View)
  | fsRead (value : View) (offset length position : Integer) (read : ℤ → ℕ → Option Bytes)
  | bufferAlloc (safe : Bool) (nargs : ℕ) (size : Option Num) (fill : Option Fill) (encode : Arg)
  | bufferFromArrayBuffer (b : ℕ) (offset length : Integer)
  | bufferFromTypedArray (array : TypedArray)
  | bufferFromString (value : StringProp) (encode : Arg)
  | bufferFromObject (length : Integer) (item : ℕ → Script Num)
  | bufferConcat (list : ConcatList) (length : Option (Option Num))
  | writeInt (this : TypedArray) (value offset : Integer) (byteLength : Option IntegerOrInfinity)
      (magic : UInt8)
  | writeFloat (this : TypedArray) (value : Script Num) (offset : Integer) (magic : UInt8)
  | write (this : TypedArray) (value : Option StringProp) (valueOffset valueLength enc : Arg)
  | bufferFill (this : TypedArray) (value : Option Fill) (valueOffset valueEnd encode : Arg)
  | swap (this : TypedArray) (size : ℕ)
  | copy (source target : TypedArray) (targetStart sourceStart sourceEnd : Integer)
  | bufferSet (start : ℕ) (size : UInt32)

namespace Call

variable (overflow : BitVec 64) (haveLittleEndian : Bool)

def function : Call → Native Unit
  | arrayBuffer size => do let _ ← njsArrayBufferConstructor overflow size
  | arrayBufferSlice b start stop => do let _ ← njsArrayBufferPrototypeSlice overflow b start stop
  | detach b => njsArrayBufferDetach b
  | typedArray source type => do
    register (.typedArray (← njsTypedArrayAlloc overflow source true type))
  | typedArrayOf constructor length item => do
    let _ ← njsTypedArrayOf overflow constructor length.toNat item
  | typedArrayFrom constructor length item => do
    let _ ← njsTypedArrayFrom overflow constructor length item
  | dataView b offset length => do
    register (.dataView (← njsDataViewConstructor overflow b offset length))
  | setProperty array index setval =>
    if index < njsTypedArrayLength array then njsTypedArraySetValue array index setval
    else return ⟨⟩
  | setTyped self src offset => njsTypedArrayPrototypeSetTyped overflow self src offset
  | setObject self srcLength item offset =>
    njsTypedArrayPrototypeSetObject overflow self srcLength item offset
  | fill array value start stop => njsTypedArrayPrototypeFill overflow array value start stop
  | copyWithin array target start stop =>
    njsTypedArrayPrototypeCopyWithin overflow array target start stop
  | slice array start stop constructor => do
    let _ ← njsTypedArrayPrototypeSlice overflow array start stop constructor
  | subarray array start stop constructor => do
    let _ ← njsTypedArrayPrototypeSubarray overflow array start stop constructor
  | reverse array => njsTypedArrayPrototypeReverse array
  | toReversed self => do
    register (.typedArray (← njsTypedArrayPrototypeToReversed overflow self))
  | sort array comparefn => Native.njsTypedArrayPrototypeSort array comparefn
  | toSorted self comparefn => do
    register (.typedArray (← Native.njsTypedArrayPrototypeToSorted overflow self comparefn))
  | map array callback constructor => do
    let _ ← njsTypedArrayPrototypeMap overflow array callback constructor
  | filter array callback constructor => do
    let _ ← njsTypedArrayPrototypeFilter overflow array callback constructor
  | dataViewSet view type index value littleEndian =>
    njsDataViewPrototypeSet overflow view type index value littleEndian
  | encodeInto dest input => njsTextEncoderEncodeInto dest input
  | encode prop => do register (.typedArray (← njsTextEncoderEncode overflow prop))
  | getRandomValues value random => njsExtGetRandomValues value random
  | bufferGet value => do let _ ← njsValueBufferGet value
  | fsRead value offset length position read =>
    njsFsRead overflow value offset length position read
  | bufferAlloc safe nargs size value enc => do
    register (.typedArray (← njsBufferAllocSafe overflow safe nargs size value enc))
  | bufferFromArrayBuffer b offset length => do
    register (.typedArray (← njsBufferFromArrayBuffer overflow b offset length))
  | bufferFromTypedArray array => do
    register (.typedArray (← njsBufferFromTypedArray overflow array))
  | bufferFromString value enc => do
    register (.typedArray (← njsBufferFromString overflow value enc))
  | bufferFromObject length item => do
    register (.typedArray (← njsBufferFromObject overflow length item))
  | bufferConcat list length => do
    register (.typedArray (← njsBufferConcat overflow list length))
  | writeInt this value offset byteLength magic => do
    let _ ← njsBufferPrototypeWriteInt overflow haveLittleEndian this value offset byteLength magic
  | writeFloat this value offset magic => do
    let _ ← njsBufferPrototypeWriteFloat overflow this value offset magic
  | write this value valueOffset valueLength enc => do
    let _ ← njsBufferPrototypeWrite overflow this value valueOffset valueLength enc
  | bufferFill this value valueOffset valueEnd enc =>
    njsBufferPrototypeFill overflow this value valueOffset valueEnd enc
  | swap this size => njsBufferPrototypeSwap this size
  | copy source target targetStart sourceStart sourceEnd => do
    let _ ← njsBufferPrototypeCopy overflow source target targetStart sourceStart sourceEnd
  | bufferSet start size => do register (.typedArray (← njsBufferSet start size.toNat))

def views : Call → List View
  | typedArray (.typedArray src) _ => [.typedArray src]
  | setTyped self src _ => [.typedArray self, .typedArray src]
  | setProperty array _ _ | setObject array _ _ _ | fill array _ _ _ | copyWithin array _ _ _
  | slice array _ _ _ | subarray array _ _ _ | reverse array | toReversed array | sort array _
  | toSorted array _ | map array _ _ | filter array _ _ | encodeInto array _
  | bufferFromTypedArray array | writeInt array _ _ _ _ | writeFloat array _ _ _
  | write array _ _ _ _ | bufferFill array _ _ _ _ | swap array _ => [.typedArray array]
  | copy source target _ _ _ => [.typedArray source, .typedArray target]
  | dataViewSet view _ _ _ _ => [.dataView view]
  | getRandomValues (.inl view) _ | bufferGet view | fsRead view _ _ _ _ => [view]
  | _ => []

def buffers : Call → List ℕ
  | typedArray (.arrayBuffer b _ _) _ | getRandomValues (.inr b) _ => [b]
  | arrayBufferSlice b _ _ | detach b | dataView b _ _ | bufferFromArrayBuffer b _ _ => [b]
  | _ => []

/-- The memory of the host that a call passes. -/
def lent : Call → List ℕ
  | bufferSet start _ => [start]
  | _ => []

def Exists (c : Call) (w : World) : Prop :=
  (∀ v ∈ c.views, v ∈ w.views) ∧ (∀ b ∈ c.buffers, b < w.count) ∧ ∀ e ∈ c.lent, e < w.external

instance (c : Call) (w : World) : Decidable (c.Exists w) := inferInstanceAs (Decidable (_ ∧ _))

/-- What a call does. If it passes what does not exist, it is none. -/
def native (c : Call) : Native Unit := do
  if c.Exists (← get) then c.function overflow haveLittleEndian else return ⟨⟩

/-! #### The script that is called -/

def Runs {α : Type} (x : Script α) (f : World → World) : Prop := f = fun w => (exec x w).2

def IntegerRuns (arg : Integer) (f : World → World) : Prop := ∃ x ∈ arg, Runs x f

def ItemRuns {ι α : Type} (item : ι → Script α) (f : World → World) : Prop := ∃ i, Runs (item i) f

def SourceRuns : Source → (World → World) → Prop
  | .arrayBuffer _ offset length => fun f => IntegerRuns offset f ∨ IntegerRuns length f
  | .typedArray _ => fun _ => False
  | .object length item => fun f => IntegerRuns length f ∨ ItemRuns item f
  | .index length => IntegerRuns length

def ConstructorRuns : Constructor → (World → World) → Prop
  | .typedArray _ => fun _ => False
  | .script result => Runs result

def CompareRuns (comparefn : Option Compare) (f : World → World) : Prop :=
  ∃ g ∈ comparefn, ∃ a b, Runs (g a b) f

def ArgRuns : Arg → (World → World) → Prop
  | .argument _ => fun _ => False
  | .object x => Runs x

def FillRuns (fill : Option Fill) (f : World → World) : Prop := ∃ x, some (.value x) = fill ∧
    Runs x f

def ListRuns : ConcatList → (World → World) → Prop
  | .fast _ => fun _ => False
  | .slow _ item => ItemRuns item

def Inside : Call → (World → World) → Prop
  | arrayBuffer size => IntegerRuns size
  | typedArray source _ => SourceRuns source
  | typedArrayOf constructor _ item => fun f => ConstructorRuns constructor f ∨ ItemRuns item f
  | typedArrayFrom constructor length item => fun f =>
    ConstructorRuns constructor f ∨ IntegerRuns length f ∨ ItemRuns item f
  | arrayBufferSlice _ x y | dataView _ x y | bufferFromArrayBuffer _ x y => fun f =>
    IntegerRuns x f ∨ IntegerRuns y f
  | setProperty _ _ setval => Runs setval
  | setTyped _ _ offset => IntegerRuns offset
  | setObject _ srcLength item offset => fun f =>
    IntegerRuns srcLength f ∨ ItemRuns item f ∨ IntegerRuns offset f
  | fill _ value start stop => fun f => Runs value f ∨ IntegerRuns start f ∨ IntegerRuns stop f
  | copyWithin _ x y z | copy _ _ x y z | fsRead _ x y z _ => fun f =>
    IntegerRuns x f ∨ IntegerRuns y f ∨ IntegerRuns z f
  | slice _ start stop constructor | subarray _ start stop constructor => fun f =>
    IntegerRuns start f ∨ IntegerRuns stop f ∨ ConstructorRuns constructor f
  | sort _ comparefn | toSorted _ comparefn => CompareRuns comparefn
  | map _ callback constructor => fun f =>
    ConstructorRuns constructor f ∨ ∃ i v, Runs (callback i v) f ∨
        ∃ t r t', exec (callback i v) t = (.ok r, t') ∧ Runs r f
  | filter _ callback constructor => fun f =>
    ConstructorRuns constructor f ∨ ∃ i, ItemRuns (callback i) f
  | dataViewSet _ _ index value _ => fun f => IntegerRuns index f ∨ Runs value f
  | encodeInto _ input => Runs input
  | bufferAlloc _ _ _ value _ => FillRuns value
  | bufferFromObject length item => fun f => IntegerRuns length f ∨ ItemRuns item f
  | bufferConcat list _ => ListRuns list
  | writeInt _ value offset _ _ => fun f => IntegerRuns value f ∨ IntegerRuns offset f
  | writeFloat _ value offset _ => fun f => Runs value f ∨ IntegerRuns offset f
  | write _ _ valueOffset valueLength _ => fun f => ArgRuns valueOffset f ∨ ArgRuns valueLength f
  | bufferFill _ value valueOffset valueEnd _ => fun f =>
    FillRuns value f ∨ ArgRuns valueOffset f ∨ ArgRuns valueEnd f
  | _ => fun _ => False

/-! #### Calls that are safe -/

/-- A call does not write to memory that is shared: those that ask for no block that may be written
do not store in an array buffer that is shared. -/
def Guarded : Call → World → Prop
  | dataViewSet view type index value _, w => ∀ r t,
    exec (dataViewSetTarget overflow view type index value) w = (.ok r, t) →
      (t.heap.buffer view.buffer).shared = false
  | encodeInto dest input, w => ∀ bytes t,
    exec (encodeIntoTarget dest input) w = (.ok bytes, t) → bytes ≠ [] →
      (t.heap.buffer dest.buffer).shared = false
  | getRandomValues value _, w =>
    (valueToBytes value w).2.2 ≠ 0 → (valueToBytes value w).2.2 ≤ 65536 →
      (w.heap.buffer (valueToBytes value w).1).data ≠ none →
        (w.heap.buffer (valueToBytes value w).1).shared = false
  | copy source target targetStart sourceStart sourceEnd, w => ∀ r t,
    exec (copyRanges overflow source target targetStart sourceStart sourceEnd) w = (.ok r, t) →
      min (r.1.2.2 - r.1.2.1) (r.2.2.2 - r.2.2.1) ≠ 0 → (t.heap.buffer target.buffer).data ≠ none →
          (t.heap.buffer target.buffer).shared = false ∧ (t.heap.buffer target.buffer).data = r.1.1
  | slice array start stop constructor, w => ∀ r t,
    exec (sliceTarget overflow array start stop constructor) w = (.ok r, t) → r.2.2 ≠ 0 →
      (t.heap.buffer array.buffer).data ≠ none → (t.heap.buffer r.1.buffer).data ≠ none →
        (t.heap.buffer r.1.buffer).shared = false
  | typedArrayOf constructor length item, w => length.toNat ≠ 0 →
    FirstUnshared (ofTarget overflow constructor length.toNat item) w
  | typedArrayFrom constructor length item, w => ∀ n r t,
    exec (fromTarget overflow constructor length item) w = (.ok (n, r), t) → n ≠ 0 →
      (t.heap.buffer r.1.buffer).data ≠ none → (t.heap.buffer r.1.buffer).shared = false
  | _, _ => True

end Call

/-! ### What calls keep -/

section

variable {overflow : BitVec 64} {haveLittleEndian : Bool} {lent : ℕ → Memory} {w : World}

def Call.Good (lent : ℕ → Memory) (c : Call) : Prop :=
  ∀ f, c.Inside f → Reentrant.Good (frame lent) f

theorem goodScript_of_runs {α : Type} {x : Script α}
    (h : ∀ f, Call.Runs x f → Good (frame lent) f) : GoodScript lent x := h _ rfl

theorem goodInteger_of_runs {arg : Integer}
    (h : ∀ f, Call.IntegerRuns arg f → Good (frame lent) f) : GoodInteger lent arg :=
  fun x hx => h _ ⟨x, hx, rfl⟩

theorem goodItem_of_runs {ι α : Type} {item : ι → Script α}
    (h : ∀ f, Call.ItemRuns item f → Good (frame lent) f) (i : ι) : GoodScript lent (item i) :=
  h _ ⟨i, rfl⟩

theorem goodConstructor_of_runs {constructor : Constructor}
    (h : ∀ f, Call.ConstructorRuns constructor f → Good (frame lent) f) :
    constructor.Good lent := by
  cases constructor with
  | typedArray type => trivial
  | script result => exact h _ rfl

theorem goodArg_of_runs {arg : Arg} (h : ∀ f, Call.ArgRuns arg f → Good (frame lent) f) :
    arg.Good lent := by
  cases arg with
  | argument a => trivial
  | object x => exact h _ rfl

theorem goodFill_of_runs {fill : Option Fill}
    (h : ∀ f, Call.FillRuns fill f → Good (frame lent) f) : ∀ x ∈ fill, x.Good lent := by
  rintro (s | src | x) hx
  · trivial
  · trivial
  · exact h _ ⟨x, hx.symm, rfl⟩

theorem goodList_of_runs {list : ConcatList}
    (h : ∀ f, Call.ListRuns list f → Good (frame lent) f) : list.Good lent := by
  cases list with
  | fast list => trivial
  | slow length item => exact fun i => h _ ⟨i, rfl⟩

theorem goodCompare_of_runs {comparefn : Option Compare}
    (h : ∀ f, Call.CompareRuns comparefn f → Good (frame lent) f) :
    ∀ f ∈ comparefn, ∀ a b, GoodScript lent (f a b) :=
  fun f hf a b => h _ ⟨f, hf, a, b, rfl⟩

theorem ends_given {α : Type} {f : α → View} {x : Native α} (hx : Ends (frame lent) x w fun a t =>
    (f a).Within t) :
    Ends (frame lent) (do register (f (← x))) w fun _ _ => True :=
  hx.bind fun _ _ _ ht _ hwithin => ends_register ht hwithin

theorem ends_discarded {α : Type} {x : Native α} {Q : α → World → Prop}
    (hx : Ends (frame lent) x w Q) :
    Ends (frame lent) (do let _ ← x) w fun _ _ => True :=
  hx.bind fun _ _ _ ht _ _ => Reentrant.ends_pure ht trivial

theorem ends_function {c : Call} (hw : (frame lent).Inv w) (hc : c.Good lent) (hexists : c.Exists w)
    (hguard : w.guarded → c.Guarded overflow w) :
    Ends (frame lent) (c.function overflow haveLittleEndian) w fun _ _ => True := by
  obtain ⟨hviews, hbuffers, hlent⟩ := hexists
  replace hviews : ∀ v ∈ c.views, v.Within w := fun v hv => hw.1.views v (hviews v hv)
  cases c with
  | arrayBuffer size => exact ends_discarded (ends_njsArrayBufferConstructor hw (goodInteger_of_runs
      hc))
  | arrayBufferSlice b start stop =>
    exact ends_discarded (ends_njsArrayBufferPrototypeSlice hw
      (goodInteger_of_runs fun f hf => hc f (.inl hf)) (goodInteger_of_runs fun f hf =>
        hc f (.inr hf)))
  | detach b => exact ends_njsArrayBufferDetach hw
  | typedArray source type =>
    refine ends_given ((ends_njsTypedArrayAlloc hw ?_).mono fun _ _ _ _ _ h => h.1)
    cases source with
    | arrayBuffer b offset length =>
      exact ⟨hbuffers b List.mem_cons_self, goodInteger_of_runs fun f hf => hc f (.inl hf),
        goodInteger_of_runs fun f hf => hc f (.inr hf)⟩
    | typedArray src => exact hviews _ List.mem_cons_self
    | object length item =>
      exact ⟨goodInteger_of_runs fun f hf => hc f (.inl hf),
        goodItem_of_runs fun f hf => hc f (.inr hf)⟩
    | index length => exact goodInteger_of_runs hc
  | typedArrayOf constructor length item =>
    exact ends_discarded (ends_njsTypedArrayOf hw (UInt32.toNat_lt length)
      (goodConstructor_of_runs fun f hf => hc f (.inl hf))
      (goodItem_of_runs fun f hf => hc f (.inr hf)) hguard)
  | typedArrayFrom constructor length item =>
    exact ends_discarded (ends_njsTypedArrayFrom hw
      (goodInteger_of_runs fun f hf => hc f (.inr (.inl hf)))
      (goodConstructor_of_runs fun f hf => hc f (.inl hf))
      (goodItem_of_runs fun f hf => hc f (.inr (.inr hf))) hguard)
  | dataView b offset length =>
    exact ends_given (f := .dataView) (ends_njsDataViewConstructor hw (hbuffers b
      List.mem_cons_self)
      (goodInteger_of_runs fun f hf => hc f (.inl hf))
      (goodInteger_of_runs fun f hf => hc f (.inr hf)))
  | setProperty array index setval =>
    exact Reentrant.ends_ite (fun _ => ends_njsTypedArraySetValue hw
      (hviews _ List.mem_cons_self).1 (goodScript_of_runs hc)) fun _ =>
        Reentrant.ends_pure hw trivial
  | setTyped self src offset =>
    exact ends_njsTypedArrayPrototypeSetTyped hw (hviews _ List.mem_cons_self).1
      (goodInteger_of_runs hc)
  | setObject self srcLength item offset =>
    exact ends_njsTypedArrayPrototypeSetObject hw (hviews _ List.mem_cons_self).1
      (goodInteger_of_runs fun f hf => hc f (.inl hf))
      (goodItem_of_runs fun f hf => hc f (.inr (.inl hf)))
      (goodInteger_of_runs fun f hf => hc f (.inr (.inr hf)))
  | fill array value start stop =>
    exact ends_njsTypedArrayPrototypeFill hw (hviews _ List.mem_cons_self)
      (goodScript_of_runs fun f hf => hc f (.inl hf))
      (goodInteger_of_runs fun f hf => hc f (.inr (.inl hf)))
      (goodInteger_of_runs fun f hf => hc f (.inr (.inr hf)))
  | copyWithin array target start stop =>
    exact ends_njsTypedArrayPrototypeCopyWithin hw (hviews _ List.mem_cons_self)
      (goodInteger_of_runs fun f hf => hc f (.inl hf))
      (goodInteger_of_runs fun f hf => hc f (.inr (.inl hf)))
      (goodInteger_of_runs fun f hf => hc f (.inr (.inr hf)))
  | slice array start stop constructor =>
    exact ends_discarded (ends_njsTypedArrayPrototypeSlice hw (hviews _ List.mem_cons_self)
      (goodInteger_of_runs fun f hf => hc f (.inl hf))
      (goodInteger_of_runs fun f hf => hc f (.inr (.inl hf)))
      (goodConstructor_of_runs fun f hf => hc f (.inr (.inr hf))) hguard)
  | subarray array start stop constructor =>
    exact ends_discarded (ends_njsTypedArrayPrototypeSubarray hw (hviews _ List.mem_cons_self)
      (goodInteger_of_runs fun f hf => hc f (.inl hf))
      (goodInteger_of_runs fun f hf => hc f (.inr (.inl hf)))
      (goodConstructor_of_runs fun f hf => hc f (.inr (.inr hf))))
  | reverse array => exact ends_njsTypedArrayPrototypeReverse hw (hviews _ List.mem_cons_self).1
  | toReversed self =>
    exact ends_given (ends_njsTypedArrayPrototypeToReversed hw (hviews _ List.mem_cons_self))
  | sort array comparefn =>
    exact ends_njsTypedArrayPrototypeSort hw (hviews _ List.mem_cons_self).1
      (goodCompare_of_runs hc)
  | toSorted self comparefn =>
    exact ends_given (ends_njsTypedArrayPrototypeToSorted hw (hviews _ List.mem_cons_self)
      (goodCompare_of_runs hc))
  | map array callback constructor =>
    refine ends_discarded (ends_njsTypedArrayPrototypeMap hw
      (goodConstructor_of_runs fun f hf => hc f (.inl hf)) fun i v => ⟨?_, fun t r t' hr => ?_⟩)
    · exact goodScript_of_runs fun f hf => hc f (.inr ⟨i, v, .inl hf⟩)
    · exact goodScript_of_runs fun f hf => hc f (.inr ⟨i, v, .inr ⟨t, r, t', hr, hf⟩⟩)
  | filter array callback constructor =>
    exact ends_discarded (ends_njsTypedArrayPrototypeFilter hw
      (goodConstructor_of_runs fun f hf => hc f (.inl hf)) fun i =>
        goodItem_of_runs fun f hf => hc f (.inr ⟨i, hf⟩))
  | dataViewSet view type index value littleEndian =>
    exact ends_njsDataViewPrototypeSet hw (hviews _ List.mem_cons_self).1
      (goodInteger_of_runs fun f hf => hc f (.inl hf))
      (goodScript_of_runs fun f hf => hc f (.inr hf)) hguard
  | encodeInto dest input =>
    exact ends_njsTextEncoderEncodeInto hw (hviews _ List.mem_cons_self).1 (goodScript_of_runs hc)
      hguard
  | encode prop => exact ends_given (ends_njsBufferNew hw)
  | getRandomValues value random =>
    refine ends_njsExtGetRandomValues hw ?_ hguard
    rcases value with (array | view) | b
    · exact (hviews _ List.mem_cons_self).1
    · exact (hviews _ List.mem_cons_self).1
    · exact hbuffers b List.mem_cons_self
  | bufferGet value =>
    refine ends_discarded (ends_njsValueBufferGet hw ?_)
    cases value <;> exact (hviews _ List.mem_cons_self).1
  | fsRead value offset length position read =>
    refine ends_njsFsRead hw ?_ (goodInteger_of_runs fun f hf => hc f (.inl hf))
      (goodInteger_of_runs fun f hf => hc f (.inr (.inl hf)))
      (goodInteger_of_runs fun f hf => hc f (.inr (.inr hf)))
    cases value <;> exact (hviews _ List.mem_cons_self).1
  | bufferAlloc safe nargs size fill encode =>
    exact ends_given (ends_njsBufferAllocSafe hw (goodFill_of_runs hc))
  | bufferFromArrayBuffer b offset length =>
    exact ends_given (ends_njsBufferFromArrayBuffer hw (hbuffers b List.mem_cons_self)
      (goodInteger_of_runs fun f hf => hc f (.inl hf))
      (goodInteger_of_runs fun f hf => hc f (.inr hf)))
  | bufferFromTypedArray array =>
    exact ends_given (ends_njsBufferFromTypedArray hw (hviews _ List.mem_cons_self))
  | bufferFromString value encode => exact ends_given (ends_njsBufferFromString hw)
  | bufferFromObject length item =>
    exact ends_given (ends_njsBufferFromObject hw
      (goodInteger_of_runs fun f hf => hc f (.inl hf))
      (goodItem_of_runs fun f hf => hc f (.inr hf)))
  | bufferConcat list length => exact ends_given (ends_njsBufferConcat hw (goodList_of_runs hc))
  | writeInt this value offset byteLength magic =>
    exact ends_discarded (ends_njsBufferPrototypeWriteInt hw (hviews _ List.mem_cons_self).1
      (goodInteger_of_runs fun f hf => hc f (.inl hf))
      (goodInteger_of_runs fun f hf => hc f (.inr hf)))
  | writeFloat this value offset magic =>
    exact ends_discarded (ends_njsBufferPrototypeWriteFloat hw (hviews _ List.mem_cons_self).1
      (goodScript_of_runs fun f hf => hc f (.inl hf))
      (goodInteger_of_runs fun f hf => hc f (.inr hf)))
  | write this value valueOffset valueLength enc =>
    exact ends_discarded (ends_njsBufferPrototypeWrite hw (hviews _ List.mem_cons_self).1
      (goodArg_of_runs fun f hf => hc f (.inl hf)) (goodArg_of_runs fun f hf => hc f (.inr hf)))
  | bufferFill this value valueOffset valueEnd encode =>
    exact ends_njsBufferPrototypeFill hw (hviews _ List.mem_cons_self).1
      (goodFill_of_runs fun f hf => hc f (.inl hf))
      (goodArg_of_runs fun f hf => hc f (.inr (.inl hf)))
      (goodArg_of_runs fun f hf => hc f (.inr (.inr hf)))
  | swap this size => exact ends_njsBufferPrototypeSwap hw (hviews _ List.mem_cons_self).1
  | copy source target targetStart sourceStart sourceEnd =>
    exact ends_discarded (ends_njsBufferPrototypeCopy hw
      (hviews _ (List.mem_cons_of_mem _ List.mem_cons_self)).1
      (goodInteger_of_runs fun f hf => hc f (.inl hf))
      (goodInteger_of_runs fun f hf => hc f (.inr (.inl hf)))
      (goodInteger_of_runs fun f hf => hc f (.inr (.inr hf))) hguard)
  | bufferSet start size =>
    have hsize : (size.toNat : ℤ) ≤ uint32Max := by
      have := UInt32.toNat_lt size
      rw [uint32Max]
      omega
    exact ends_given (ends_njsBufferSet hw (hlent start List.mem_cons_self) hsize)

theorem ends_native {c : Call} (hw : (frame lent).Inv w) (hc : c.Good lent)
    (hguard : w.guarded → c.Guarded overflow w) :
    Ends (frame lent) (c.native overflow haveLittleEndian) w fun _ _ => True :=
  Reentrant.ends_get (Reentrant.ends_ite
    (fun hexists => ends_function hw hc hexists hguard) fun _ => Reentrant.ends_pure hw trivial)

/-- It is noted whether a call is safe. -/
def World.note (w : World) (p : Prop) : World := { w with guarded := w.guarded ∧ p }

/-- No array buffer exists, and the host has some memory to lend. -/
def World.start (external : ℕ) (block : ℕ → Memory) : World where
  heap := ⟨block, fun _ => ⟨none, 0, false⟩, external⟩
  count := 0
  views := []
  external := external
  contents := fun _ _ => 0
  guarded := True
  wrapped := False

def calls (overflow : BitVec 64) (haveLittleEndian : Bool) : Reentrant.Calls World Call where
  run c w := (exec (c.native overflow haveLittleEndian) (w.note (c.Guarded overflow w))).2
  Inside := Call.Inside

theorem note_eq {p : Prop} (hp : p) : w.note p = w := by
  have h : (w.guarded ∧ p) = w.guarded := propext ⟨And.left, fun h => ⟨h, hp⟩⟩
  rw [World.note, h]

theorem later_note (w : World) (p : Prop) : Later w (w.note p) :=
  ⟨rfl, le_rfl, le_rfl, fun _ _ => id, fun _ _ h => ⟨h, rfl⟩, fun _ _ _ _ => id,
    fun _ _ _ _ => id, List.prefix_rfl, And.left⟩

theorem inv_note {p : Prop} (hw : (frame lent).Inv w) : (frame lent).Inv (w.note p) := by
  obtain ⟨⟨hok, hunborn, hexternal, hshared, hviews, hunwrapped⟩, hfaithful⟩ := hw
  refine ⟨⟨hok, hunborn, hexternal, hshared, fun v hv => (hviews v hv).later (later_note w p),
    hunwrapped⟩, fun hguarded => ?_⟩
  obtain ⟨hblock, hcontents⟩ := hfaithful hguarded.1
  exact ⟨hblock, hcontents⟩

theorem inv_start (external : ℕ) (block : ℕ → Memory) :
    (frame block).Inv (World.start external block) :=
  ⟨⟨⟨nofun, nofun, fun _ => (by decide : ((0 : ℕ) : ℤ) ≤ uint32Max)⟩, fun _ _ => rfl, le_rfl, nofun, nofun, id⟩,
    fun _ => ⟨fun _ _ => rfl, nofun⟩⟩

theorem keeps_run {c : Call}
    (hc : ∀ f, (calls overflow haveLittleEndian).Inside c f → Good (frame lent) f)
    (hw : (frame lent).Inv w) :
    (frame lent).Inv ((calls overflow haveLittleEndian).run c w) ∧
      Later w ((calls overflow haveLittleEndian).run c w) := by
  have hends : Ends (frame lent) (c.native overflow haveLittleEndian)
      (w.note (c.Guarded overflow w)) fun _ _ => True :=
    ends_native (inv_note hw) hc fun hguarded => (note_eq hguarded.2).symm ▸ hguarded.2
  exact ⟨hends.inv, (later_note w _).trans hends.later⟩

theorem keeps_calls {w' : World}
    (h : Reentrant.Reaches (calls overflow haveLittleEndian) w w') (hw : (frame lent).Inv w) :
    (frame lent).Inv w' ∧ Later w w' :=
  h.keeps (fun _ hc _ hs => keeps_run hc hs) hw

end

end Njs.TypedArrays
