import Njs.TypedArrays.Calls

/-!
# Views and memory of the host over whole runs

What script sees of array buffers after any calls of native functions.
-/

namespace Njs.TypedArrays

open Buffer (TypedArray Heap Thrown njsTypedArrayElementSize uint32Max)

open Reentrant (Reaches)

/-! ### Views -/

namespace View

def njsTypedArrayPrototypeBuffer : View → ℕ
  | typedArray array => array.buffer
  | dataView view => view.buffer

/-- `njs_typed_array_element_size`. -/
def elementSize : View → ℕ
  | typedArray array => njsTypedArrayElementSize array.type
  | dataView _ => 1

def njsTypedArrayPrototypeByteLength (w : World) : View → Except Thrown ℕ
  | typedArray array =>
    .ok (if (w.heap.buffer array.buffer).data = none then 0 else array.byteLength)
  | dataView view =>
    if (w.heap.buffer view.buffer).data = none then .error (.typeError "detached buffer")
    else .ok view.byteLength

def njsTypedArrayPrototypeByteOffset (w : World) : View → Except Thrown ℕ
  | typedArray array =>
    .ok (if (w.heap.buffer array.buffer).data = none then 0 else array.start)
  | dataView view =>
    if (w.heap.buffer view.buffer).data = none then .error (.typeError "detached buffer")
    else .ok view.offset

/-- A view is inside its array buffer, as far as script sees, and its elements have numbers of type
`uint32_t` in there. -/
structure Inside (w : World) (v : View) : Prop where
  fits : ∀ offset length, v.njsTypedArrayPrototypeByteOffset w = .ok offset →
    v.njsTypedArrayPrototypeByteLength w = .ok length →
      offset + length ≤ (w.heap.buffer v.njsTypedArrayPrototypeBuffer).size
  dvd : ∀ offset, v.njsTypedArrayPrototypeByteOffset w = .ok offset → v.elementSize ∣ offset
  index : ∀ array, v = typedArray array → (w.heap.buffer array.buffer).data ≠ none →
    ∀ i < njsTypedArrayLength array, array.offset + i < 2 ^ 32

variable {w : World} {v : View}

theorem index_lt {array : TypedArray} (hw : Sound w) (hv : (typedArray array).Within w)
    (hdata : (w.heap.buffer array.buffer).data ≠ none) {i : ℕ}
    (hi : i < njsTypedArrayLength array) : array.offset + i < 2 ^ 32 := by
  have hfits := hv.2.1.fits hdata
  have hsize := hw.ok.size_le array.buffer
  have hpos := elementSize_pos array.type
  have hbytes : (i + 1) * njsTypedArrayElementSize array.type ≤ array.byteLength :=
    (Nat.le_div_iff_mul_le hpos).1 hi
  have hle : array.offset + (i + 1) ≤
      (array.offset + (i + 1)) * njsTypedArrayElementSize array.type :=
    Nat.le_mul_of_pos_right _ hpos
  rw [add_mul] at hle
  rw [uint32Max] at hsize
  omega

theorem Within.inside (hw : Sound w) (hv : v.Within w) : v.Inside w := by
  refine ⟨fun offset length hoffset hlength => ?_, fun offset hoffset => ?_, ?_⟩
  · cases v with
    | typedArray array =>
      obtain rfl := Except.ok.inj hoffset
      obtain rfl := Except.ok.inj hlength
      split_ifs with hdata
      · exact Nat.zero_le _
      · exact hv.2.1.fits hdata
    | dataView view =>
      rw [njsTypedArrayPrototypeByteOffset] at hoffset
      rw [njsTypedArrayPrototypeByteLength] at hlength
      split_ifs at hoffset hlength with hdata
      obtain rfl := Except.ok.inj hoffset
      obtain rfl := Except.ok.inj hlength
      exact hv.2.1 hdata
  · cases v with
    | typedArray array =>
      obtain rfl := Except.ok.inj hoffset
      split_ifs
      · exact dvd_zero _
      · exact Dvd.intro_left _ rfl
    | dataView view => exact one_dvd _
  · rintro array rfl hdata i hi
    exact index_lt hw hv hdata hi

end View

section

variable {overflow : BitVec 64} {haveLittleEndian : Bool} {external : ℕ} {block : ℕ → Memory}
  {w w' : World}

/-- A view that script has is inside its array buffer after any later calls, and no number has
wrapped around in any call. -/
theorem views_within
    (h : Reaches (calls overflow haveLittleEndian) (World.start external block) w)
    (h' : Reaches (calls overflow haveLittleEndian) w w') :
    (∀ v ∈ w.views, v ∈ w'.views ∧ v.Inside w') ∧ ¬w'.wrapped := by
  have hw := (keeps_calls h (inv_start external block)).1
  obtain ⟨hw', hlater⟩ := keeps_calls h' hw
  refine ⟨fun v hv => ?_, hw'.1.unwrapped⟩
  have hv' := hlater.views.subset hv
  exact ⟨hv', (hw'.1.views v hv').inside hw'.1⟩

theorem reaches_number {n : ℤ} {f : World → World} (hf : Call.IntegerRuns (number n) f)
    (u : World) : Reaches (calls overflow haveLittleEndian) u (f u) := by
  obtain ⟨x, hx, rfl⟩ := hf
  obtain rfl := Option.some.inj hx
  exact .refl u

/-! Three elements of two bytes after the first two of eight bytes, that are detached then. -/

theorem views_within_three :
    let run := (calls 0 true).run
    let w := run (.typedArray (.arrayBuffer 0 (number 2) (number 3)) .uint16Array)
      (run (.arrayBuffer (number 8)) (World.start 0 fun _ _ => 0))
    let w' := run (.detach 0) w
    w.views = [.typedArray ⟨0, 1, 6, .uint16Array⟩] ∧
      (∀ v ∈ w.views, v ∈ w'.views ∧ v.Inside w') ∧ ¬w'.wrapped := by
  intro run w w'
  have hw : Reaches (calls 0 true) (World.start 0 fun _ _ => 0) w := by
    refine .call _ (.call _ (.refl _) fun f hf => reaches_number hf) ?_
    rintro f (hf | hf)
    · exact reaches_number hf
    · exact reaches_number hf
  exact ⟨rfl, views_within hw (.call _ (.refl _) nofun)⟩

/-! ### Memory of the host -/

/-- If each call is guarded, memory of the host is as it was, and each array buffer has the bytes
that have been written to it. -/
theorem external_kept
    (h : Reaches (calls overflow haveLittleEndian) (World.start external block) w)
    (hguarded : w.guarded) :
    (∀ e < external, w.heap.block e = block e) ∧
      ∀ b i, (w.heap.buffer b).data ≠ none → i < (w.heap.buffer b).size →
        w.heap.get b i = some (w.contents b i) := by
  obtain ⟨⟨hw, hfaithful⟩, hlater⟩ := keeps_calls h (inv_start external block)
  obtain ⟨hblock, hcontents⟩ := hfaithful hguarded
  refine ⟨fun e he => hblock e (hlater.external.symm ▸ he), fun b i hdata hi => ?_⟩
  obtain ⟨d, hd⟩ := Option.ne_none_iff_exists'.1 hdata
  rw [Heap.get_of_data hd, if_pos hi, hcontents b d hd i hi]

/-! The first byte of memory of the host is filled, in a copy. -/

theorem external_kept_fill :
    let run := (calls 0 true).run
    let array : TypedArray := ⟨0, 0, 1, .uint8Array⟩
    let w := run (.fill array (pure (some (.finite 7))) none none)
      (run (.bufferSet 0 1) (World.start 1 fun _ _ => 0))
    w.heap.get 0 0 = some 7 ∧ (∀ e < 1, w.heap.block e = fun _ => 0) ∧
      ∀ b i, (w.heap.buffer b).data ≠ none → i < (w.heap.buffer b).size →
        w.heap.get b i = some (w.contents b i) := by
  intro run array w
  have hw : Reaches (calls 0 true) (World.start 1 fun _ _ => 0) w := by
    refine .call _ (.call _ (.refl _) nofun) ?_
    rintro f (rfl | ⟨x, hx, -⟩ | ⟨x, hx, -⟩)
    · exact .refl
    · exact absurd hx (Option.not_mem_none x)
    · exact absurd hx (Option.not_mem_none x)
  have hguarded : w.guarded := by
    with_unfolding_all exact (⟨⟨trivial, trivial⟩, trivial⟩ : (True ∧ True) ∧ True)
  exact ⟨by decide +kernel, external_kept hw hguarded⟩

/-- Without that a DataView of a buffer over memory of the host writes to this memory. -/
theorem not_external_kept : ¬∀ (overflow : BitVec 64) (haveLittleEndian : Bool) (external : ℕ)
    (block : ℕ → Memory) (w : World),
    Reaches (calls overflow haveLittleEndian) (World.start external block) w →
      (∀ e < external, w.heap.block e = block e) ∧
        ∀ b i, (w.heap.buffer b).data ≠ none → i < (w.heap.buffer b).size →
          w.heap.get b i = some (w.contents b i) := by
  intro h
  let run := (calls 0 true).run
  let w := run (.dataViewSet ⟨0, 0, 1⟩ .uint8Array (number 0) (pure (some (.finite 7))) true)
    (run (.dataView 0 none none) (run (.bufferSet 0 1) (World.start 1 fun _ _ => 0)))
  have hw : Reaches (calls 0 true) (World.start 1 fun _ _ => 0) w := by
    refine .call _ (.call _ (.call _ (.refl _) nofun) ?_) ?_
    · rintro f (⟨x, hx, -⟩ | ⟨x, hx, -⟩) <;> exact absurd hx (Option.not_mem_none x)
    · rintro f (hf | rfl)
      · exact reaches_number hf
      · exact .refl
  have hblock := congrFun ((h 0 true 1 _ w hw).1 0 (by decide)) 0
  have hseven : w.heap.block 0 0 = 7 := by decide +kernel
  exact absurd (hblock.symm.trans hseven) (by decide)

end

end Njs.TypedArrays
