import Njs.Lib.Reentrant
import Njs.TypedArrays.Sort

/-!
# Native code and script

Array buffers, the views of them and the native functions that work on both. A function calls script
where it converts an argument, and script may call any function then.
-/

namespace Njs.TypedArrays

open Arrays (IntegerOrInfinity)
open Arrays.NjsArray (njsNumberToInteger)
open Buffer (TypedArray Heap Thrown uint32Max)
open Simulation (Prog exec)
open Reentrant (Frame Ends Good ends_get ends_modify ends_of_exec ends_pure ends_test ends_throw)

/-- `njs_data_view_t`. -/
structure DataView where
  buffer : ℕ
  offset : ℕ
  byteLength : ℕ
  deriving DecidableEq

deriving instance DecidableEq for TypedArray

/-- What script sees of an array buffer. -/
inductive View
  | typedArray (array : TypedArray)
  | dataView (view : DataView)
  deriving DecidableEq

/-- Array buffers and their views. -/
structure World where
  heap : Heap
  /-- The array buffers that exist are before this one. -/
  count : ℕ
  views : List View
  /-- The blocks before this one are not of the allocator. They are lent by the host. -/
  external : ℕ
  /-- What has been written to each array buffer. No function reads it. -/
  contents : ℕ → Memory
  /-- No call has been made that may write to memory that is shared. No function reads it. -/
  guarded : Prop
  /-- A number has not fitted in its type. No function reads it. -/
  wrapped : Prop

/-- What script may throw. -/
inductive Exception
  | thrown (e : Thrown)
  | script
  deriving DecidableEq

/-- How a native function ends without a result. -/
inductive Stop
  | exception (e : Exception)
  /-- A number does not fit in its type. -/
  | wrap
  /-- Memory is accessed that is not there. -/
  | crash
  deriving DecidableEq

/-- Programs of the engine. -/
abbrev Native (α : Type) : Type := Prog World Stop α

abbrev Script (α : Type) : Type := Prog World Exception α

variable {α β : Type}

def script (x : Script α) : Native α := ExceptT.adapt Stop.exception x

def raise (e : Thrown) : Native α := throw (.exception (.thrown e))

theorem exec_script (x : Script α) (w : World) : exec (script x) w = match exec x w with
      | (.ok a, t) => (.ok a, t)
      | (.error e, t) => (.error (.exception e), t) := by
  change (exec x w).map (Except.mapError Stop.exception) id = _
  rcases exec x w with ⟨e | a, t⟩ <;> rfl

/-! ### Numbers -/

/-- A number that does not fit in its type is noted. -/
def wrap {α : Type} : Native α := do
  modify fun w => { w with wrapped := True }
  throw .wrap

/-- A number of type `uint32_t`. -/
def uint32 (n : ℕ) : Native ℕ := if 2 ^ 32 ≤ n then wrap else return n

/-- A number of type `uint64_t` or `size_t`. -/
def uint64 (n : ℕ) : Native ℕ := if 2 ^ 64 ≤ n then wrap else return n

/-- A number of type `int64_t`. -/
def int64 (n : ℤ) : Native ℤ := if n < -2 ^ 63 ∨ 2 ^ 63 ≤ n then wrap else return n

/-- An argument that script may convert to a number. -/
abbrev Integer : Type := Option (Script IntegerOrInfinity)

section

variable (overflow : BitVec 64)

def njsValueToInteger : Integer → Native ℤ
  | none => return 0
  | some x => do return njsNumberToInteger overflow (← script x)

def njsValueToIndex : Integer → Native ℕ
  | none => return 0
  | some x => do
    let integerIndex := njsNumberToInteger overflow (← script x)
    if integerIndex < 0 ∨ uint32Max < integerIndex then
      raise (.rangeError "invalid index")
    else return integerIndex.toNat

end

/-- `NJS_MAX_LENGTH`. -/
def njsMaxLength : ℕ := 0x1fffffffffffff

def njsNumberToLength : IntegerOrInfinity → ℕ
  | .negInfinity => 0
  | .infinity => njsMaxLength
  | .integer n => min n.toNat njsMaxLength

def njsValueToLength : Integer → Native ℕ
  | none => return 0
  | some x => do return njsNumberToLength (← script x)

/-! ### Array buffers -/

/-- The block of an array buffer that is not detached. -/
def attached (b : ℕ) : Native ℕ := do
  match ((← get).heap.buffer b).data with
  | none => raise (.typeError "detached buffer")
  | some d => return d

/-- An array buffer is created, with the bytes of a block. -/
def World.create (w : World) (h : Heap) (d : ℕ) (m : Memory) : World :=
  { w with
    heap := h.store d m
    count := w.count + 1
    contents := Function.update w.contents w.count m }

/-- `njs_array_buffer_alloc`. -/
def alloc (size : ℕ) (zeroing : Bool) : Native ℕ := do
  let w ← get
  match njsArrayBufferAlloc w.heap w.count size with
  | .error e => raise e
  | .ok h => do
    let m := if zeroing then fun _ => 0 else h.block w.heap.fresh
    modify fun w => w.create h w.heap.fresh m
    return w.count

/-- `njs_typed_array_writable`, with the block that is returned. -/
def writable (b : ℕ) : Native ℕ := do
  let d ← attached b
  let w ← get
  let (e, h) := w.heap.njsArrayBufferWritable b d
  modify fun _ => { w with heap := h }
  return e

def njsArrayBufferDetach (b : ℕ) : Native Unit := modify fun w =>
  { w with heap :=
      { w.heap with buffer := fun c =>
          if c = b then ⟨none, 0, (w.heap.buffer b).shared⟩ else w.heap.buffer c } }

def poke (b d p : ℕ) (l : Bytes) : Native Unit := modify fun w =>
  { w with
    heap := w.heap.store d ((w.heap.block d).write p l)
    contents := Function.update w.contents b ((w.contents b).write p l) }

/-- Bytes are stored where an array buffer points to. -/
def put (b p : ℕ) (l : Bytes) : Native Unit := do
  match ((← get).heap.buffer b).data with
  | none => throw .crash
  | some d => poke b d p l

def register (v : View) : Native Unit := modify fun w => { w with views := w.views ++ [v] }

/-! ### What holds of array buffers -/

def View.Within (w : World) : View → Prop
  | .typedArray array => array.buffer < w.count ∧ array.Within w.heap ∧
      (array.start : ℤ) ≤ uint32Max
  | .dataView view => view.buffer < w.count ∧
      ((w.heap.buffer view.buffer).data ≠ none →
        view.offset + view.byteLength ≤ (w.heap.buffer view.buffer).size) ∧
      (view.byteLength : ℤ) ≤ uint32Max ∧ (view.offset : ℤ) ≤ uint32Max

/-- What always holds. -/
structure Sound (w : World) : Prop where
  ok : w.heap.Ok
  unborn : ∀ b, w.count ≤ b → (w.heap.buffer b).data = none
  external_le : w.external ≤ w.heap.fresh
  shared : ∀ b d, (w.heap.buffer b).data = some d → d < w.external → (w.heap.buffer b).shared = true
  views : ∀ v ∈ w.views, v.Within w
  unwrapped : ¬w.wrapped

/-- Memory of the host is as it was, and array buffers have the bytes that were written to them. -/
structure Faithful (lent : ℕ → Memory) (w : World) : Prop where
  external : ∀ e < w.external, w.heap.block e = lent e
  contents : ∀ b d, (w.heap.buffer b).data = some d → ∀ i < (w.heap.buffer b).size,
    w.heap.block d i = w.contents b i

/-- What stays as it is. -/
structure Later (w w' : World) : Prop where
  external : w'.external = w.external
  count_le : w.count ≤ w'.count
  fresh_le : w.heap.fresh ≤ w'.heap.fresh
  unshared : ∀ b < w.count, (w.heap.buffer b).shared = false → (w'.heap.buffer b).shared = false
  data : ∀ b < w.count, (w'.heap.buffer b).data ≠ none →
    (w.heap.buffer b).data ≠ none ∧ (w'.heap.buffer b).size = (w.heap.buffer b).size
  same : ∀ b < w.count, (w.heap.buffer b).shared = false → ∀ d,
    (w'.heap.buffer b).data = some d → (w.heap.buffer b).data = some d
  /-- No block of the allocator is given out again. -/
  given : ∀ b d, w.external ≤ d → d < w.heap.fresh → (w'.heap.buffer b).data = some d →
    (w.heap.buffer b).data = some d
  views : w.views <+: w'.views
  guarded : w'.guarded → w.guarded

/-- A block is that of one array buffer, or has been until this was detached. -/
structure Owned (w : World) (b d : ℕ) : Prop where
  external_le : w.external ≤ d
  lt : d < w.heap.fresh
  shared : (w.heap.buffer b).shared = false
  data : ∀ e, (w.heap.buffer b).data = some e → e = d
  only : ∀ c, (w.heap.buffer c).data = some d → c = b

variable {w w' w'' : World} {b d p size : ℕ} {l : Bytes}

theorem later_refl (w : World) : Later w w :=
  ⟨rfl, le_rfl, le_rfl, fun _ _ => id, fun _ _ h => ⟨h, rfl⟩, fun _ _ _ _ => id,
    fun _ _ _ _ => id, List.prefix_rfl, id⟩

theorem Later.trans (h : Later w w') (h' : Later w' w'') : Later w w'' where
  external := h'.external.trans h.external
  count_le := h.count_le.trans h'.count_le
  fresh_le := h.fresh_le.trans h'.fresh_le
  unshared b hb hs := h'.unshared b (hb.trans_le h.count_le) (h.unshared b hb hs)
  data b hb hd :=
    have h₁ := h'.data b (hb.trans_le h.count_le) hd
    have h₂ := h.data b hb h₁.1
    ⟨h₂.1, h₁.2.trans h₂.2⟩
  same b hb hs d hd := h.same b hb hs d
    (h'.same b (hb.trans_le h.count_le) (h.unshared b hb hs) d hd)
  given b d hle hlt hd := h.given b d hle hlt
    (h'.given b d (h.external ▸ hle) (hlt.trans_le h.fresh_le) hd)
  views := h.views.trans h'.views
  guarded hguarded := h.guarded (h'.guarded hguarded)

theorem View.Within.later {v : View} (hv : v.Within w) (h : Later w w') : v.Within w' := by
  cases v with
  | typedArray array =>
    obtain ⟨hcount, hwithin, hstart⟩ := hv
    refine ⟨hcount.trans_le h.count_le, ⟨fun hd => ?_, hwithin.length_le⟩, hstart⟩
    obtain ⟨hd, hsize⟩ := h.data _ hcount hd
    rw [hsize]
    exact hwithin.fits hd
  | dataView view =>
    obtain ⟨hcount, hfits, hlength, hoffset⟩ := hv
    refine ⟨hcount.trans_le h.count_le, fun hd => ?_, hlength, hoffset⟩
    obtain ⟨hd, hsize⟩ := h.data _ hcount hd
    rw [hsize]
    exact hfits hd

theorem Owned.later (ho : Owned w b d) (hb : b < w.count) (h : Later w w') : Owned w' b d where
  external_le := h.external ▸ ho.external_le
  lt := ho.lt.trans_le h.fresh_le
  shared := h.unshared b hb ho.shared
  data e he := ho.data e (h.same b hb ho.shared e he)
  only c hc := ho.only c (h.given c d ho.external_le ho.lt hc)

theorem Sound.owned (hw : Sound w) (hshared : (w.heap.buffer b).shared = false)
    (hd : (w.heap.buffer b).data = some d) : Owned w b d where
  external_le := not_lt.1 fun hlt =>
    Bool.false_ne_true (hshared.symm.trans (hw.shared b d hd hlt))
  lt := hw.ok.old b d hd
  shared := hshared
  data e he := Option.some.inj (he.symm.trans hd)
  only c hc := by
    by_contra hne
    exact Bool.false_ne_true (hshared.symm.trans (hw.ok.apart b c d (Ne.symm hne) hd hc))

/-! ### What the parts of native functions keep -/

/-- The invariant of array buffers. -/
def frame (lent : ℕ → Memory) : Frame World where
  Inv w := Sound w ∧ (w.guarded → Faithful lent w)
  Later := Later
  refl := later_refl
  trans := Later.trans

variable {lent : ℕ → Memory} {Q : α → World → Prop}

/-- Code of script that is called keeps the invariant. -/
def GoodScript (lent : ℕ → Memory) (x : Script α) : Prop :=
  Good (frame lent) fun w => (exec x w).2

theorem goodScript_pure (a : α) : GoodScript lent (pure a) := fun w hw => ⟨hw, later_refl w⟩

theorem ends_script {x : Script α} (hx : GoodScript lent x) (hw : (frame lent).Inv w) :
    Ends (frame lent) (script x) w fun a t => exec x w = (.ok a, t) := by
  obtain ⟨hinv, hlater⟩ : (frame lent).Inv (exec x w).2 ∧ Later w (exec x w).2 := hx w hw
  have hexec := exec_script x w
  rcases hrun : exec x w with ⟨e | a, t⟩ <;> rw [hrun] at hexec hinv hlater
  · exact ends_of_exec hexec hinv hlater fun _ h => nomatch h
  · exact ends_of_exec hexec hinv hlater fun _ h => by rw [Except.ok.inj h]

theorem ends_raise {e : Thrown} (hw : (frame lent).Inv w) :
    Ends (frame lent) (raise e : Native α) w Q :=
  ends_throw hw

theorem ends_uint32 {n : ℕ} (hw : (frame lent).Inv w) (hn : n < 2 ^ 32) :
    Ends (frame lent) (uint32 n) w fun m t => m = n ∧ t = w := by
  rw [uint32, if_neg hn.not_ge]
  exact ends_pure hw ⟨rfl, rfl⟩

theorem ends_uint64 {n : ℕ} (hw : (frame lent).Inv w) (hn : n < 2 ^ 64) :
    Ends (frame lent) (uint64 n) w fun m t => m = n ∧ t = w := by
  rw [uint64, if_neg hn.not_ge]
  exact ends_pure hw ⟨rfl, rfl⟩

theorem ends_int64 {n : ℤ} (hw : (frame lent).Inv w) (hle : -2 ^ 63 ≤ n) (hlt : n < 2 ^ 63) :
    Ends (frame lent) (int64 n) w fun m t => m = n ∧ t = w := by
  rw [int64, if_neg (by omega)]
  exact ends_pure hw ⟨rfl, rfl⟩

section Arguments

variable {overflow : BitVec 64} {arg : Integer}

theorem njsNumberToInteger_range (overflow : BitVec 64) (n : IntegerOrInfinity) :
    -2 ^ 63 ≤ njsNumberToInteger overflow n ∧ njsNumberToInteger overflow n < 2 ^ 63 := by
  have hle := BitVec.le_toInt overflow
  have hlt := BitVec.toInt_lt (x := overflow)
  cases n with
  | integer n =>
    rw [njsNumberToInteger]
    split_ifs <;> omega
  | infinity | negInfinity =>
    rw [njsNumberToInteger]
    omega

theorem ends_njsValueToInteger (harg : ∀ x ∈ arg, GoodScript lent x) (hw : (frame lent).Inv w) :
    Ends (frame lent) (njsValueToInteger overflow arg) w fun n _ => -2 ^ 63 ≤ n ∧ n < 2 ^ 63 := by
  cases arg with
  | none => exact ends_pure hw ⟨by decide, by decide⟩
  | some x =>
    refine (ends_script (harg x rfl) hw).bind fun n t _ ht _ _ => ?_
    exact ends_pure ht (njsNumberToInteger_range overflow n)

theorem ends_njsValueToIndex (harg : ∀ x ∈ arg, GoodScript lent x) (hw : (frame lent).Inv w) :
    Ends (frame lent) (njsValueToIndex overflow arg) w fun i _ => (i : ℤ) ≤ uint32Max := by
  cases arg with
  | none => exact ends_pure hw (by decide)
  | some x =>
    refine (ends_script (harg x rfl) hw).bind fun n t _ ht _ _ => ?_
    refine ends_test ht fun hindex => ends_pure ht ?_
    rw [not_or, not_lt, not_lt] at hindex
    rw [Int.toNat_of_nonneg hindex.1]
    exact hindex.2

theorem njsNumberToLength_le (n : IntegerOrInfinity) : njsNumberToLength n ≤ njsMaxLength := by
  cases n with
  | integer n => exact min_le_right _ _
  | infinity => exact le_rfl
  | negInfinity => exact Nat.zero_le _

theorem ends_njsValueToLength (harg : ∀ x ∈ arg, GoodScript lent x) (hw : (frame lent).Inv w) :
    Ends (frame lent) (njsValueToLength arg) w fun n _ => n ≤ njsMaxLength := by
  cases arg with
  | none => exact ends_pure hw (Nat.zero_le _)
  | some x =>
    refine (ends_script (harg x rfl) hw).bind fun n t _ ht _ _ => ?_
    exact ends_pure ht (njsNumberToLength_le n)

end Arguments

theorem ends_attached (hw : (frame lent).Inv w) :
    Ends (frame lent) (attached b) w fun d t => t = w ∧ (w.heap.buffer b).data = some d := by
  refine ends_get ?_
  rcases hd : (w.heap.buffer b).data with _ | d
  · exact ends_raise hw
  · exact ends_pure hw ⟨rfl, rfl⟩

section Alloc

variable {m : Memory} {h : Heap}

theorem buffer_create (halloc : njsArrayBufferAlloc w.heap w.count size = .ok h) (c : ℕ) :
    ((w.create h w.heap.fresh m).heap.buffer c) =
      if c = w.count then ⟨some w.heap.fresh, size, false⟩ else w.heap.buffer c := by
  rw [njsArrayBufferAlloc] at halloc
  split_ifs at halloc
  rw [← Except.ok.inj halloc]
  rfl

theorem fresh_create (halloc : njsArrayBufferAlloc w.heap w.count size = .ok h) :
    (w.create h w.heap.fresh m).heap.fresh = w.heap.fresh + 1 := by
  rw [njsArrayBufferAlloc] at halloc
  split_ifs at halloc
  rw [← Except.ok.inj halloc]
  rfl

theorem block_create (halloc : njsArrayBufferAlloc w.heap w.count size = .ok h) (e : ℕ) :
    (w.create h w.heap.fresh m).heap.block e = if e = w.heap.fresh then m else w.heap.block e := by
  rw [njsArrayBufferAlloc] at halloc
  split_ifs at halloc
  rw [← Except.ok.inj halloc]
  rfl

theorem later_create (halloc : njsArrayBufferAlloc w.heap w.count size = .ok h) :
    Later w (w.create h w.heap.fresh m) := by
  have hbuffer : ∀ c < w.count, (w.create h w.heap.fresh m).heap.buffer c = w.heap.buffer c :=
    fun c hc => by rw [buffer_create halloc, if_neg hc.ne]
  refine ⟨rfl, Nat.le_succ _, fresh_create halloc ▸ Nat.le_succ _, fun c hc hs => ?_,
    fun c hc hd => ?_, fun c hc _ d hd => ?_, fun c d _ hlt hd => ?_, List.prefix_rfl, id⟩
  · rwa [hbuffer c hc]
  · rw [hbuffer c hc] at hd ⊢
    exact ⟨hd, rfl⟩
  · rwa [hbuffer c hc] at hd
  · rw [buffer_create halloc] at hd
    split_ifs at hd with hc
    · exact absurd (Option.some.inj hd) hlt.ne'
    · exact hd

theorem sound_create (hw : Sound w) (halloc : njsArrayBufferAlloc w.heap w.count size = .ok h) :
    Sound (w.create h w.heap.fresh m) := by
  have hsize : (size : ℤ) ≤ uint32Max := by
    rw [njsArrayBufferAlloc] at halloc
    split_ifs at halloc with hsize
    exact not_lt.1 hsize
  have hlater := later_create (m := m) halloc
  refine ⟨⟨fun c d hd => ?_, fun c c' d hne hc hc' => ?_, fun c => ?_⟩, fun c hc => ?_, ?_,
    fun c d hd hlt => ?_, fun v hv => (hw.views v hv).later hlater, hw.unwrapped⟩
  · rw [buffer_create halloc] at hd
    rw [fresh_create halloc]
    split_ifs at hd
    · exact (Option.some.inj hd) ▸ Nat.lt_succ_self _
    · exact Nat.lt_succ_of_lt (hw.ok.old c d hd)
  · rw [buffer_create halloc] at hc hc' ⊢
    split_ifs at hc hc' ⊢ with h₁ h₂
    · exact absurd (h₁.trans h₂.symm) hne
    · exact absurd (Option.some.inj hc) (hw.ok.old c' d hc').ne'
    · exact absurd (Option.some.inj hc') (hw.ok.old c d hc).ne'
    · exact hw.ok.apart c c' d hne hc hc'
  · rw [buffer_create halloc]
    split_ifs
    · exact hsize
    · exact hw.ok.size_le c
  · rw [buffer_create halloc, if_neg (Nat.lt_of_succ_le hc).ne']
    exact hw.unborn c (Nat.le_of_succ_le hc)
  · exact hw.external_le.trans hlater.fresh_le
  · rw [buffer_create halloc] at hd ⊢
    split_ifs at hd ⊢
    · exact absurd (hw.external_le.trans_eq (Option.some.inj hd)) hlt.not_ge
    · exact hw.shared c d hd hlt

theorem faithful_create (hw : Sound w) (hf : Faithful lent w)
    (halloc : njsArrayBufferAlloc w.heap w.count size = .ok h) :
    Faithful lent (w.create h w.heap.fresh m) := by
  refine ⟨fun e he => ?_, fun c d hd i hi => ?_⟩
  · rw [block_create halloc, if_neg (he.trans_le hw.external_le).ne]
    exact hf.external e he
  rw [buffer_create halloc] at hd hi
  rw [block_create halloc]
  change _ = Function.update w.contents w.count m c i
  split_ifs at hd hi with hc
  · rw [if_pos (Option.some.inj hd).symm, hc, Function.update_self]
  · rw [if_neg (hw.ok.old c d hd).ne, Function.update_of_ne hc]
    exact hf.contents c d hd i hi

theorem ends_alloc {zeroing : Bool} (hw : (frame lent).Inv w) :
    Ends (frame lent) (alloc size zeroing) w fun b t =>
      b < t.count ∧ (t.heap.buffer b).size = size ∧ (size : ℤ) ≤ uint32Max ∧
        ∃ d, (t.heap.buffer b).data = some d ∧ Owned t b d := by
  refine ends_get ?_
  rcases halloc : njsArrayBufferAlloc w.heap w.count size with e | h
  · exact ends_raise hw
  obtain ⟨hsound, hfaithful⟩ := hw
  have hsound' := sound_create (m := if zeroing then fun _ => 0 else h.block w.heap.fresh) hsound
    halloc
  have hinv : (frame lent).Inv (w.create h w.heap.fresh
      (if zeroing then fun _ => 0 else h.block w.heap.fresh)) :=
    ⟨hsound', fun hguarded => faithful_create hsound (hfaithful hguarded) halloc⟩
  refine (ends_modify (Q := fun _ t => t = w.create h w.heap.fresh
    (if zeroing then fun _ => 0 else h.block w.heap.fresh)) hinv (later_create halloc)
    rfl).bind ?_
  rintro _ t - ht - rfl
  have hbuffer := buffer_create (m := if zeroing then fun _ => 0 else h.block w.heap.fresh) halloc
    w.count
  rw [if_pos rfl] at hbuffer
  refine ends_pure ht ⟨Nat.lt_succ_self _, ?_, ?_, w.heap.fresh, ?_, ?_⟩
  · rw [hbuffer]
  · have hsize := hsound'.ok.size_le w.count
    rwa [hbuffer] at hsize
  · rw [hbuffer]
  · exact hsound'.owned (by rw [hbuffer]) (by rw [hbuffer])

end Alloc

/-! #### Blocks that are written -/

theorem inv_writable (hw : (frame lent).Inv w) (hd : (w.heap.buffer b).data = some d) :
    (frame lent).Inv { w with heap := (w.heap.njsArrayBufferWritable b d).2 } ∧
      Later w { w with heap := (w.heap.njsArrayBufferWritable b d).2 } := by
  obtain ⟨hsound, hfaithful⟩ := hw
  have hwritable := Heap.writable_njsArrayBufferWritable hsound.ok hd
  by_cases hshared : (w.heap.buffer b).shared = true
  swap
  · rw [Heap.njsArrayBufferWritable, if_neg hshared]
    exact ⟨⟨hsound, hfaithful⟩, later_refl w⟩
  have hbuffer : ∀ c, (w.heap.njsArrayBufferWritable b d).2.buffer c =
      if c = b then ⟨some w.heap.fresh, (w.heap.buffer b).size, false⟩ else w.heap.buffer c := by
    intro c
    rw [Heap.njsArrayBufferWritable, if_pos hshared]
  have hfresh : (w.heap.njsArrayBufferWritable b d).2.fresh = w.heap.fresh + 1 := by
    rw [Heap.njsArrayBufferWritable, if_pos hshared]
  have hblock : ∀ e < w.heap.fresh,
      (w.heap.njsArrayBufferWritable b d).2.block e = w.heap.block e := by
    intro e he
    rw [Heap.njsArrayBufferWritable, if_pos hshared]
    exact if_neg he.ne
  have hlater : Later w { w with heap := (w.heap.njsArrayBufferWritable b d).2 } := by
    refine ⟨rfl, le_rfl, hfresh ▸ Nat.le_succ _, fun c hc hs => ?_, fun c hc hd' => ?_,
      fun c hc hs e he => ?_, fun c e _ hlt he => ?_, List.prefix_rfl, id⟩ <;> dsimp only at *
    · rw [hbuffer]
      split_ifs
      · rfl
      · exact hs
    · rw [hbuffer] at hd' ⊢
      split_ifs at hd' ⊢ with hcb
      · rw [hcb, hd]
        exact ⟨Option.some_ne_none d, rfl⟩
      · exact ⟨hd', rfl⟩
    · rw [hbuffer] at he
      split_ifs at he with hcb
      · exact absurd (hs.symm.trans (hcb ▸ hshared)) Bool.false_ne_true
      · exact he
    · rw [hbuffer] at he
      split_ifs at he with hcb
      · exact absurd (Option.some.inj he) hlt.ne'
      · exact he
  refine ⟨⟨⟨hwritable.ok, fun c hc => ?_, hsound.external_le.trans hlater.fresh_le,
    fun c e he hlt => ?_, fun v hv => (hsound.views v hv).later hlater, hsound.unwrapped⟩,
    fun hguarded => ⟨fun e he => ?_, fun c e he i hi => ?_⟩⟩, hlater⟩ <;> dsimp only at *
  · exact (hwritable.detached c).2 (hsound.unborn c hc)
  · rw [hbuffer] at he ⊢
    split_ifs at he ⊢ with hcb
    · exact absurd (hsound.external_le.trans_eq (Option.some.inj he)) hlt.not_ge
    · exact hsound.shared c e he hlt
  · rw [hblock e (he.trans_le hsound.external_le)]
    exact (hfaithful hguarded).external e he
  -- the array buffer has the bytes that it had
  have hget := hwritable.same c i
  rw [Heap.get_of_data he, if_pos hi] at hget
  rcases hold : (w.heap.buffer c).data with _ | e'
  · exact absurd ((hwritable.detached c).2 hold) (he ▸ Option.some_ne_none e)
  have hi' : i < (w.heap.buffer c).size := by
    rw [hbuffer] at hi
    split_ifs at hi with hcb
    · exact hcb ▸ hi
    · exact hi
  rw [Heap.get_of_data hold, if_pos hi'] at hget
  rw [Option.some.inj hget]
  exact (hfaithful hguarded).contents c e' hold i hi'

theorem ends_writable (hw : (frame lent).Inv w) : Ends (frame lent) (writable b) w fun d t =>
      (t.heap.buffer b).data = some d ∧ Owned t b d := by
  refine (ends_attached hw).bind ?_
  rintro d t - - - ⟨ht, hd⟩
  rw [ht]
  refine ends_get ?_
  obtain ⟨hinv, hlater⟩ := inv_writable hw hd
  refine (ends_modify (Q := fun _ t =>
    t = { w with heap := (w.heap.njsArrayBufferWritable b d).2 }) hinv hlater rfl).bind ?_
  rintro _ t - ht - rfl
  have hwritable := Heap.writable_njsArrayBufferWritable hw.1.ok hd
  refine ends_pure ht ⟨hwritable.owns.data, ht.1.owned ?_ hwritable.owns.data⟩
  change ((w.heap.njsArrayBufferWritable b d).2.buffer b).shared = false
  rw [Heap.njsArrayBufferWritable]
  split_ifs with hshared
  · exact congrArg _ (if_pos rfl)
  · exact Bool.not_eq_true _ ▸ hshared

theorem ends_poke (hw : (frame lent).Inv w) (ho : w.guarded → Owned w b d) :
    Ends (frame lent) (poke b d p l) w fun _ _ => True := by
  obtain ⟨hsound, hfaithful⟩ := hw
  have hlater : Later w (exec (poke b d p l) w).2 :=
    ⟨rfl, le_rfl, le_rfl, fun _ _ => id, fun _ _ h => ⟨h, rfl⟩, fun _ _ _ _ => id,
      fun _ _ _ _ => id, List.prefix_rfl, id⟩
  refine ends_modify ⟨⟨hsound.ok.store _ _, hsound.unborn, hsound.external_le,
    hsound.shared, fun v hv => (hsound.views v hv).later hlater, hsound.unwrapped⟩, fun hguarded =>
      ?_⟩ hlater trivial
  obtain ⟨hexternal, hcontents⟩ := hfaithful hguarded
  have ho := ho hguarded
  refine ⟨fun e he => ?_, fun c e he i hi => ?_⟩
  · change (if e = d then _ else _) = _
    rw [if_neg (he.trans_le ho.external_le).ne]
    exact hexternal e he
  change (if e = d then _ else _ : Memory) i =
    Function.update w.contents b ((w.contents b).write p l) c i
  replace hcontents := hcontents c e he
  by_cases hcb : c = b
  · subst hcb
    obtain rfl := ho.data e he
    rw [if_pos rfl, Function.update_self, Memory.write, Memory.write, hcontents i hi]
  · rw [if_neg (fun hed : e = d => hcb (ho.only c (hed ▸ he))), Function.update_of_ne hcb]
    exact hcontents i hi

/-- An array buffer may be written without a copy. -/
structure MayWrite (w : World) (b : ℕ) : Prop where
  lt : b < w.count
  unshared : w.guarded → (w.heap.buffer b).data ≠ none → (w.heap.buffer b).shared = false

theorem MayWrite.later (h : MayWrite w b) (hlater : Later w w') : MayWrite w' b where
  lt := h.lt.trans_le hlater.count_le
  unshared hguarded hd :=
    hlater.unshared b h.lt (h.unshared (hlater.guarded hguarded) (hlater.data b h.lt hd).1)

theorem MayWrite.owned (h : MayWrite w b) (hw : (frame lent).Inv w)
    (hd : (w.heap.buffer b).data = some d) (hguarded : w.guarded) : Owned w b d :=
  hw.1.owned (h.unshared hguarded (hd ▸ Option.some_ne_none d)) hd

theorem Owned.mayWrite (h : Owned w b d) (hb : b < w.count) : MayWrite w b :=
  ⟨hb, fun _ _ => h.shared⟩

theorem ends_put (hw : (frame lent).Inv w) (h : MayWrite w b) :
    Ends (frame lent) (put b p l) w fun _ _ => True := by
  refine ends_get ?_
  rcases hd : (w.heap.buffer b).data with _ | d
  · exact ends_throw hw
  · exact ends_poke hw (h.owned hw hd)

theorem ends_register {v : View} (hw : (frame lent).Inv w) (hv : v.Within w) :
    Ends (frame lent) (register v) w fun _ _ => True := by
  obtain ⟨hsound, hfaithful⟩ := hw
  refine ends_modify ⟨⟨hsound.ok, hsound.unborn, hsound.external_le, hsound.shared,
    fun u hu => ?_, hsound.unwrapped⟩, fun hguarded => ⟨(hfaithful hguarded).external,
      (hfaithful hguarded).contents⟩⟩
    ⟨rfl, le_rfl, le_rfl, fun _ _ => id, fun _ _ h => ⟨h, rfl⟩, fun _ _ _ _ => id,
      fun _ _ _ _ => id, List.prefix_append _ _, id⟩ trivial
  obtain hu | hu := List.mem_append.1 hu
  · exact hsound.views u hu
  · exact List.mem_singleton.1 hu ▸ hv

theorem ends_njsArrayBufferDetach (hw : (frame lent).Inv w) :
    Ends (frame lent) (njsArrayBufferDetach b) w fun _ _ => True := by
  obtain ⟨hsound, hfaithful⟩ := hw
  let w' := (exec (njsArrayBufferDetach b) w).2
  have hdata : ∀ c d, (w'.heap.buffer c).data = some d →
      c ≠ b ∧ (w.heap.buffer c).data = some d := by
    intro c d hd
    change (if c = b then _ else _ : Buffer.ArrayBuffer).data = some d at hd
    split_ifs at hd with hcb
    exact ⟨hcb, hd⟩
  have hother : ∀ c ≠ b, w'.heap.buffer c = w.heap.buffer c := fun c hcb => if_neg hcb
  have hshared : ∀ c, (w'.heap.buffer c).shared = (w.heap.buffer c).shared := by
    intro c
    change (if c = b then _ else _ : Buffer.ArrayBuffer).shared = _
    split_ifs with hcb
    · rw [hcb]
    · rfl
  have hlater : Later w w' := by
    refine ⟨rfl, le_rfl, le_rfl, fun c _ hs => (hshared c).trans hs, fun c _ hd => ?_,
      fun c _ _ d hd => (hdata c d hd).2, fun c d _ _ hd => (hdata c d hd).2, List.prefix_rfl, id⟩
    obtain ⟨d, hd⟩ := Option.ne_none_iff_exists'.1 hd
    obtain ⟨hcb, hd⟩ := hdata c d hd
    rw [hother c hcb, hd]
    exact ⟨Option.some_ne_none d, rfl⟩
  refine ends_modify (Q := fun _ _ => True) ⟨⟨⟨fun c d hd => ?_, fun c c' d hne hc hc' =>
    ?_,
    fun c => ?_⟩, fun c hc => ?_, hsound.external_le, fun c d hd hlt => ?_,
    fun v hv => (hsound.views v hv).later hlater, hsound.unwrapped⟩, fun hguarded =>
      ⟨(hfaithful hguarded).external,
    fun c d hd i hi => ?_⟩⟩ hlater trivial
  · exact hsound.ok.old c d (hdata c d hd).2
  · exact (hshared c).trans (hsound.ok.apart c c' d hne (hdata c d hc).2 (hdata c' d hc').2)
  · by_cases hcb : c = b
    · change ((if c = b then _ else _ : Buffer.ArrayBuffer).size : ℤ) ≤ _
      rw [if_pos hcb]
      exact (by decide : ((0 : ℕ) : ℤ) ≤ uint32Max)
    · exact (congrArg (fun a : Buffer.ArrayBuffer => (a.size : ℤ)) (hother c hcb)).trans_le
        (hsound.ok.size_le c)
  · by_contra hd
    obtain ⟨d, hd⟩ := Option.ne_none_iff_exists'.1 hd
    exact Option.some_ne_none d ((hdata c d hd).2.symm.trans (hsound.unborn c hc))
  · exact (hshared c).trans (hsound.shared c d (hdata c d hd).2 hlt)
  · obtain ⟨hcb, hd⟩ := hdata c d hd
    refine (hfaithful hguarded).contents c d hd i ?_
    change i < (w'.heap.buffer c).size at hi
    rwa [hother c hcb] at hi

end Njs.TypedArrays
