import Mathlib.Data.List.Range
import Njs.Arrays.Fast

/-!
# The elements of a fast array
-/

namespace Njs.Arrays

open Simulation

namespace NjsArray

variable {V X : Type}

/-! ### Cells -/

/-- The cell `start[i]`. -/
def cell (a : NjsArray V) (i : ℕ) : Option V := (a.data[(a.start + i).toNat]?).join

/-- The array, with `start[i]` written. -/
def withCell (a : NjsArray V) (i : ℕ) (cell : Option V) : NjsArray V :=
  { a with data := a.data.set (a.start + i).toNat cell }

/-- The elements are inside of the allocation, which has no more cells than there are number
atoms. -/
structure InBounds (a : NjsArray V) : Prop where
  start : 0 ≤ a.start
  stop : a.start + a.length ≤ a.data.length
  size : a.data.length ≤ 2 ^ 31

def elements (a : NjsArray V) : Elements V where
  element i := if i < a.length then a.cell i else none
  length := a.length
  extensible := a.extensible

variable {a : NjsArray V} {i : ℕ} {c : Option V}

@[simp] theorem elements_length : a.elements.length = a.length := rfl

theorem element_of_lt (hi : i < a.length) : a.elements.element i = a.cell i := if_pos hi

theorem element_of_not_lt (hi : ¬i < a.length) : a.elements.element i = none := if_neg hi

@[simp] theorem withCell_length : (a.withCell i c).length = a.length := rfl

@[simp] theorem withCell_start : (a.withCell i c).start = a.start := rfl

@[simp] theorem withCell_extensible : (a.withCell i c).extensible = a.extensible := rfl

@[simp] theorem withCell_size : (a.withCell i c).data.length = a.data.length := List.length_set

theorem cell_withCell (hstart : 0 ≤ a.start) (hi : a.start + i < a.data.length) (j : ℕ) :
    (a.withCell i c).cell j = if j = i then c else a.cell j := by
  show ((a.data.set (a.start + i).toNat c)[(a.start + j).toNat]?).join = _
  rw [List.getElem?_set]
  split_ifs with hij hlt hji hji
  · rfl
  · omega
  · omega
  · omega
  · omega
  · rfl

theorem InBounds.withCell (ha : a.InBounds) : (a.withCell i c).InBounds :=
  ⟨ha.start, by simpa using ha.stop, by simpa using ha.size⟩

theorem exec_readCell (ha : 0 ≤ a.start) (hi : a.start + i < a.data.length) :
    exec (readCell (X := X) i) a = (.ok (a.cell i), a) := by
  have hin : 0 ≤ a.start + (i : ℤ) ∧ a.start + i < a.data.length := ⟨by omega, hi⟩
  rw [readCell, exec_bind_ok (exec_get a), if_pos hin]
  rfl

theorem exec_writeCell (ha : 0 ≤ a.start) (hi : a.start + i < a.data.length) :
    exec (writeCell (X := X) i c) a = (.ok ⟨⟩, a.withCell i c) := by
  have hin : 0 ≤ a.start + (i : ℤ) ∧ a.start + i < a.data.length := ⟨by omega, hi⟩
  rw [writeCell, exec_bind_ok (exec_get a), if_pos hin]
  rfl

/-! ### Free cells -/

variable (junk : NjsArray V → ℕ → Option V)

theorem length_copied (junk : ℕ → Option V) {size before : ℕ} (ha : a.InBounds)
    (hsize : before + a.length ≤ size) : (copied junk a size before).length = size := by
  have := ha.start
  have := ha.stop
  simp only [copied, List.length_append, List.length_map, List.length_range, List.length_take,
    List.length_drop]
  omega

theorem getElem?_copied (junk : ℕ → Option V) (size before : ℕ) (ha : a.InBounds)
    (hi : i < a.length) :
    (copied junk a size before)[before + i]? = a.data[(a.start + i).toNat]? := by
  have := ha.start
  have := ha.stop
  rw [copied, List.append_assoc, List.getElem?_append_right (by simp), List.length_map,
    List.length_range, Nat.add_sub_cancel_left, List.getElem?_append_left,
    List.getElem?_take_of_lt hi, List.getElem?_drop]
  · congr 1
    omega
  · rw [List.length_take, List.length_drop]
    omega

structure SameElements (a a' : NjsArray V) : Prop where
  length : a'.length = a.length
  extensible : a'.extensible = a.extensible
  cell : ∀ i < a.length, a'.cell i = a.cell i

theorem SameElements.elements {a' : NjsArray V} (h : SameElements a a') :
    a'.elements = a.elements := by
  have helement : a'.elements.element = a.elements.element := by
    funext i
    show (if i < a'.length then a'.cell i else none) = if i < a.length then a.cell i else none
    rw [h.length]
    split_ifs with hi
    · exact h.cell i hi
    · rfl
  rw [NjsArray.elements, NjsArray.elements]
  congr 1
  · exact h.length
  · exact h.extensible

theorem expand_cases (ha : a.InBounds) (prepend append : ℕ) :
    exec (njsArrayExpand (X := X) junk prepend append) a = (.error .leaves, a) ∨
      ∃ a', exec (njsArrayExpand (X := X) junk prepend append) a = (.ok ⟨⟩, a') ∧ a'.InBounds ∧
        SameElements a a' ∧ prepend ≤ a'.start ∧
        a'.start + a'.length + append ≤ a'.data.length := by
  have hstart := ha.start
  have hstop := ha.stop
  have hsize := ha.size
  rw [njsArrayExpand, exec_bind_ok (exec_get a)]
  dsimp only
  by_cases hfree : prepend ≤ (a.start % 2 ^ 32).toNat ∧
      append ≤ ((a.data.length - a.length - (a.start % 2 ^ 32).toNat : ℤ) % 2 ^ 32).toNat
  · rw [if_pos hfree]
    exact .inr ⟨a, rfl, ha, ⟨rfl, rfl, fun _ _ => rfl⟩, by omega, by omega⟩
  rw [if_neg hfree]
  have hge : prepend + a.length + append ≤
      if prepend + a.length + append < 16 then (prepend + a.length + append) * 2
      else prepend + a.length + append + (prepend + a.length + append) / 2 := by
    split_ifs <;> omega
  generalize (if prepend + a.length + append < 16 then _ else _) = size at hge ⊢
  by_cases hlarge : maxSize < size
  · rw [if_pos hlarge]
    exact .inl rfl
  have hlength := length_copied (junk a) ha (Nat.le_trans (Nat.le_add_right _ append) hge)
  rw [if_neg hlarge, if_pos ⟨hstart, hstop⟩]
  refine .inr ⟨_, rfl, ⟨Int.natCast_nonneg _, ?_, ?_⟩, ⟨rfl, rfl, fun i hi => ?_⟩,
    Int.le_refl _, ?_⟩
  · simp only [hlength]
    omega
  · simp only [hlength, maxSize] at hlarge ⊢
    omega
  · show ((copied (junk a) a size prepend)[((prepend : ℤ) + i).toNat]?).join = a.cell i
    rw [cell, ← getElem?_copied (junk a) size prepend ha hi]
    rfl
  · simp only [hlength]
    omega

/-! ### Holes -/

theorem exec_setInvalid (ha : a.InBounds) (index count : ℕ)
    (hcount : a.start + index + count ≤ a.data.length) :
    ∃ a', exec (setInvalid (X := X) index count) a = (.ok ⟨⟩, a') ∧ a'.InBounds ∧
      a'.start = a.start ∧ a'.length = a.length ∧ a'.extensible = a.extensible ∧
      a'.data.length = a.data.length ∧
      ∀ j, a'.cell j = if index ≤ j ∧ j < index + count then none else a.cell j := by
  induction count with
  | zero =>
    refine ⟨a, rfl, ha, rfl, rfl, rfl, rfl, fun j => ?_⟩
    rw [if_neg (by omega)]
  | succ count ih =>
    obtain ⟨a', hexec, ha', hstart, hlength, hextensible, hsize, hcell⟩ := ih (by omega)
    have hin : a'.start + (index + count : ℕ) < a'.data.length := by omega
    refine ⟨a'.withCell (index + count) none, ?_, ha'.withCell, hstart, hlength, hextensible,
      by simpa using hsize, fun j => ?_⟩
    · rw [setInvalid, List.range_succ, List.forM_append]
      rw [setInvalid] at hexec
      rw [exec_bind_ok hexec, List.forM_cons, exec_bind_ok (exec_writeCell ha'.start hin)]
      rfl
    rw [cell_withCell ha'.start hin, hcell]
    by_cases hj : j = index + count
    · rw [if_pos hj, if_pos (by omega)]
    · rw [if_neg hj]
      congr 1
      simp only [eq_iff_iff]
      omega

theorem elements_withCell (ha : a.InBounds) (hi : i < a.length) : (a.withCell i c).elements =
      { a.elements with element := Function.update a.elements.element i c } := by
  have hstop := ha.stop
  rw [elements, elements]
  congr 1
  funext j
  rw [cell_withCell ha.start (by omega), withCell_length, Function.update_apply]
  show _ = if j = i then c else if j < a.length then a.cell j else none
  by_cases hj : j = i
  · rw [if_pos hj, if_pos hj, if_pos (by omega)]
  · rw [if_neg hj, if_neg hj]

end NjsArray

/-! ### One property -/

open NjsArray

variable {V X : Type} (junk : NjsArray V → ℕ → Option V)

/-- A fast array in bounds, with its elements. -/
structure Represents (a : NjsArray V) (t : Elements V) : Prop where
  inBounds : a.InBounds
  elements : t = a.elements

def Same {α : Type} (x y : α) (a : NjsArray V) (t : Elements V) : Prop := x = y ∧ Represents a t

/-- The elements that are added without a look at whether the array is extensible: those that fill
a hole. -/
def moves : Elements.Lax := fun i length => i < length

variable {a : NjsArray V}

theorem exec_read (t : Elements V) (i : ℕ) :
    exec (Elements.read (X := X) i) t = (.ok (t.element i), t) := rfl

theorem exec_remove (t : Elements V) (i : ℕ) : exec (Elements.remove (X := X) i) t =
      (.ok ⟨⟩, { t with element := Function.update t.element i none }) := rfl

theorem exec_valueProperty (ha : a.InBounds) (i : ℕ) :
    exec (njsValuePropertyI64 (X := X) i) a = (.ok (a.elements.element i), a) := by
  have hstart := ha.start
  have hstop := ha.stop
  have hsize := ha.size
  rw [njsValuePropertyI64, exec_bind_ok (exec_get a), if_neg (by omega)]
  by_cases hlt : i < a.length
  · rw [if_pos (by omega), element_of_lt hlt, exec_readCell hstart (by omega)]
  · rw [if_neg (by omega), element_of_not_lt hlt, exec_pure]

theorem simulates_read (ha : a.InBounds) (i : ℕ) :
    Simulates Represents Same (njsValuePropertyI64 (X := X) i) (Elements.read i) a a.elements :=
  simulates_of_exec (exec_valueProperty ha i) (exec_read _ i) ⟨rfl, ha, rfl⟩

theorem simulates_delete (ha : a.InBounds) (i : ℕ) :
    Simulates Represents Same (njsValuePropertyI64Delete (X := X) i) (Elements.remove i) a
      a.elements := by
  have hstart := ha.start
  have hstop := ha.stop
  have hsize := ha.size
  rw [njsValuePropertyI64Delete]
  refine Simulates.get_left ?_
  rw [if_neg (by omega)]
  by_cases hlt : i < a.length
  · rw [if_pos (by omega)]
    exact simulates_of_exec (exec_writeCell ha.start (by omega)) (exec_remove _ i)
      ⟨rfl, ha.withCell, (elements_withCell ha hlt).symm⟩
  · rw [if_neg (by omega)]
    refine simulates_of_exec (exec_pure _ _) (exec_remove _ i) ⟨rfl, ha, ?_⟩
    have hnone := element_of_not_lt hlt
    rw [← hnone, Function.update_eq_self]

theorem exec_grow (ha : a.InBounds) (size : ℕ) :
    exec (njsArrayExpand (X := X) junk 0 size) a = (.error .leaves, a) ∨
      ∃ a₁ a₂, exec (njsArrayExpand (X := X) junk 0 size) a = (.ok ⟨⟩, a₁) ∧
        exec (setInvalid (X := X) a.length size) a₁ = (.ok ⟨⟩, a₂) ∧
        InBounds { a₂ with length := a.length + size } ∧
        NjsArray.elements { a₂ with length := a.length + size } =
          { a.elements with length := a.length + size } := by
  rcases expand_cases (X := X) junk ha 0 size with
    hfail | ⟨a₁, hexpand, ha₁, hsame, -, hfree⟩
  · exact .inl hfail
  have hlength := hsame.length
  obtain ⟨a₂, hinvalid, ha₂, hstart, hlength₂, hextensible, hsize, hcell⟩ :=
    exec_setInvalid (X := X) ha₁ a.length size (by omega)
  refine .inr ⟨a₁, a₂, hexpand, hinvalid, ⟨ha₂.start, ?_, ha₂.size⟩, ?_⟩
  · show a₂.start + (a.length + size : ℕ) ≤ a₂.data.length
    omega
  rw [elements, elements]
  congr 1
  · funext j
    show (if j < a.length + size then a₂.cell j else none) =
      if j < a.length then a.cell j else none
    rw [hcell]
    by_cases hj : j < a.length
    · rw [if_pos (by omega), if_neg (by omega), if_pos hj, hsame.cell j hj]
    · rw [if_neg hj]
      split_ifs
      · rfl
      · omega
      · rfl
  · exact hextensible.trans hsame.extensible

theorem exec_put_of_lt (lax : Elements.Lax) {t : Elements V} {i : ℕ} (v : V)
    (h : ¬((t.element i).isNone ∧ t.extensible = false ∧ lax i t.length = false))
    (hi : i + 1 < 2 ^ 32) :
    exec (Elements.put (X := X) lax i v) t = (.ok ⟨⟩, { t with
        element := Function.update t.element i (some v)
        length := max t.length (i + 1) }) := by
  rw [Elements.put, exec_bind_ok (exec_get t), if_neg h, if_pos hi, exec_set]

theorem simulates_set (ha : a.InBounds) (i : ℕ) (v : V) :
    Simulates Represents Same (njsValuePropertyI64Set (X := X) junk i v)
      (Elements.put moves i v) a a.elements := by
  have hstart := ha.start
  have hstop := ha.stop
  have hsize := ha.size
  rw [njsValuePropertyI64Set]
  refine Simulates.get_left ?_
  rw [if_neg (by omega)]
  by_cases hkey : 0x80000000 ≤ (i : ℤ)
  · rw [if_pos hkey]
    exact simulates_leaves ⟨ha, rfl⟩
  rw [if_neg hkey]
  by_cases hlt : i < a.length
  · have hlax : moves i a.length = true := decide_eq_true hlt
    rw [if_pos (by omega)]
    refine simulates_of_exec (exec_writeCell hstart (by omega))
      (exec_put_of_lt moves v (fun h => ?_) (by omega)) ⟨rfl, ha.withCell, ?_⟩
    · exact Bool.noConfusion (hlax.symm.trans h.2.2)
    · rw [elements_withCell ha hlt]
      congr 1
      show max a.length (i + 1) = a.length
      omega
  rw [if_neg (by omega)]
  have hnone := element_of_not_lt hlt
  by_cases hextensible : a.extensible = false
  · have hlax : moves i a.length = false := decide_eq_false hlt
    rw [if_pos hextensible, Elements.put]
    refine Simulates.get_right ?_
    rw [hnone, if_pos ⟨rfl, hextensible, hlax⟩, Int.toNat_natCast]
    exact simulates_throw ⟨ha, rfl⟩
  rw [if_neg hextensible]
  by_cases hlarge : (i : ℤ) < njsArrayLargeObjectLength
  · rw [if_pos hlarge]
    have hgrow : a.length + ((i : ℤ).toNat - a.length + 1) = i + 1 := by omega
    rcases exec_grow (X := X) junk ha ((i : ℤ).toNat - a.length + 1) with
      hfail | ⟨a₁, a₂, hexpand, hinvalid, hin, helements⟩
    · exact simulates_leaves_of_exec (exec_bind_error hfail) ⟨ha, rfl⟩
    refine Simulates.bind_left hexpand (Simulates.bind_left hinvalid
      (Simulates.bind_left (exec_modify _ _) ?_))
    rw [hgrow] at hin helements
    rw [Int.toNat_natCast]
    have hcell : a₂.start + i < a₂.data.length := by
      have hstop : a₂.start + (i + 1 : ℕ) ≤ a₂.data.length := hin.stop
      omega
    refine simulates_of_exec (exec_writeCell hin.start hcell)
      (exec_put_of_lt moves v (fun h => hextensible h.2.1) (by omega)) ⟨rfl, hin.withCell, ?_⟩
    rw [elements_withCell hin (Nat.lt_succ_self i), helements]
    congr 1
    show max a.length (i + 1) = i + 1
    omega
  · rw [if_neg hlarge]
    exact simulates_leaves ⟨ha, rfl⟩

theorem exec_setLength (t : Elements V) {n : ℕ} (hn : n < 2 ^ 32) :
    exec (Elements.setLength (X := X) n) t = (.ok ⟨⟩, { t with
        element := fun i => if i < n then t.element i else none
        length := n }) := by
  rw [Elements.setLength, if_neg (by omega), exec_modify]

theorem simulates_lengthSet (ha : a.InBounds) (n : ℕ) :
    Simulates Represents Same (njsObjectLengthSet (X := X) junk n) (Elements.setLength n) a
      a.elements := by
  have hstart := ha.start
  have hstop := ha.stop
  rw [njsObjectLengthSet]
  refine Simulates.get_left ?_
  by_cases hlarge : 2 ^ 32 ≤ n
  · rw [if_pos (by omega), Elements.setLength, if_pos hlarge]
    exact simulates_throw ⟨ha, rfl⟩
  rw [if_neg (by omega)]
  by_cases hslow : (n : ℤ) ≤ njsArrayLargeObjectLength
  · rw [if_pos hslow]
    dsimp only
    by_cases hsize : 0 < (n : ℤ) - a.length
    · rw [if_pos hsize]
      rcases exec_grow (X := X) junk ha ((n : ℤ) - a.length).toNat with
        hfail | ⟨a₁, a₂, hexpand, hinvalid, hin, helements⟩
      · exact simulates_leaves_of_exec (exec_bind_error hfail) ⟨ha, rfl⟩
      have hgrow : a.length + ((n : ℤ) - a.length).toNat = n := by omega
      rw [hgrow] at hin helements
      refine Simulates.bind_left hexpand (Simulates.bind_left hinvalid
        (simulates_of_exec (exec_modify _ _) (exec_setLength _ (by omega)) ⟨rfl, hin, ?_⟩))
      rw [Int.toNat_natCast, helements]
      congr 1
      funext i
      show (if i < n then if i < a.length then a.cell i else none else none) =
        if i < a.length then a.cell i else none
      split_ifs
      · rfl
      · rfl
      · omega
      · rfl
    · rw [if_neg hsize]
      refine simulates_of_exec (exec_modify _ _) (exec_setLength _ (by omega))
        ⟨rfl, ⟨hstart, ?_, ha.size⟩, ?_⟩
      · show a.start + ((n : ℤ).toNat : ℕ) ≤ a.data.length
        omega
      rw [Int.toNat_natCast, elements, elements]
      congr 1
      funext i
      show (if i < n then if i < a.length then a.cell i else none else none) =
        if i < n then a.cell i else none
      split_ifs
      · rfl
      · omega
      · rfl
  · rw [if_neg hslow]
    exact simulates_leaves ⟨ha, rfl⟩

theorem simulates_move (ha : a.InBounds) (source target : ℕ) : Simulates Represents Same (do
        match ← njsValuePropertyI64 (X := X) source with
        | some v => njsValuePropertyI64Set junk target v
        | none => njsValuePropertyI64Delete target)
      (Elements.move moves source target) a a.elements := by
  rw [Elements.move]
  refine (simulates_read ha source).bind ?_
  rintro c _ a t ⟨rfl, ha, rfl⟩
  match c with
  | some v => exact simulates_set junk ha target v
  | none => exact simulates_delete ha target

end Njs.Arrays
