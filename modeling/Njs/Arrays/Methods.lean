import Mathlib.Data.List.Nodup
import Njs.Arrays.Cells

/-!
# Loops over properties and the methods of fast arrays

The methods move elements one after the other. Where no element is refused and the elements that are
read have not been written before, this is one assignment for all elements.
-/

namespace Njs.Arrays

open Simulation

namespace Elements

variable {V X : Type} {lax : Lax} {t : Elements V}

theorem exec_put {i : ℕ} (v : V) (h : ∀ length ≥ t.length, lax i length = true) :
    ∃ length, t.length ≤ length ∧ length ≤ max t.length (i + 1) ∧ exec (put (X := X) lax i v) t =
        (.ok ⟨⟩, { t with element := Function.update t.element i (some v), length := length }) := by
  have hrefused : ¬((t.element i).isNone ∧ t.extensible = false ∧ lax i t.length = false) :=
    fun hr => Bool.noConfusion ((h t.length (Nat.le_refl _)).symm.trans hr.2.2)
  refine ⟨if i + 1 < 2 ^ 32 then max t.length (i + 1) else t.length, ?_, ?_, ?_⟩
  · split_ifs
    · exact Nat.le_max_left _ _
    · exact Nat.le_refl _
  · split_ifs
    · exact Nat.le_refl _
    · exact Nat.le_max_left _ _
  · rw [put, exec_bind_ok (exec_get t), if_neg hrefused, exec_set]

theorem exec_move (source : ℕ) {target : ℕ} (h : ∀ length ≥ t.length, lax target length = true) :
    ∃ length, t.length ≤ length ∧ length ≤ max t.length (target + 1) ∧
      exec (move (X := X) lax source target) t = (.ok ⟨⟩, { t with
          element := Function.update t.element target (t.element source)
          length := length }) := by
  rw [move, exec_bind_ok (exec_read t source)]
  cases helement : t.element source with
  | some v => exact exec_put v h
  | none => exact ⟨t.length, Nat.le_refl _, Nat.le_max_left _ _, exec_remove t target⟩

theorem exec_moves {source target stop : ℕ} {f : ℕ → ℕ} {l : List ℕ}
    (hread : l.Pairwise fun i k => source + f k ≠ target + f i)
    (hstop : ∀ i ∈ l, target + f i < stop)
    (hlax : ∀ i < stop, ∀ length ≥ t.length, lax i length = true) :
    ∃ length, t.length ≤ length ∧ length ≤ max t.length stop ∧
      exec (forM l fun i => move (X := X) lax (source + f i) (target + f i)) t =
        (.ok ⟨⟩, { t with
          element := fun j =>
            if ∃ i ∈ l, j = target + f i then t.element (source + (j - target)) else t.element j
          length := length }) := by
  induction l generalizing t with
  | nil =>
    refine ⟨t.length, Nat.le_refl _, Nat.le_max_left _ _, ?_⟩
    simp only [List.not_mem_nil, false_and, exists_false, if_false]
    rfl
  | cons i l ih =>
    rw [List.pairwise_cons] at hread
    have hi := hstop i List.mem_cons_self
    obtain ⟨length, hle, hge, hmove⟩ :=
      exec_move (X := X) (source + f i) (hlax (target + f i) hi)
    obtain ⟨length', hle', hge', hmoves⟩ := ih (t := { t with
      element := Function.update t.element (target + f i) (t.element (source + f i))
      length := length }) hread.2 (fun k hk => hstop k (List.mem_cons_of_mem i hk))
      fun k hk m hm => hlax k hk m (Nat.le_trans hle hm)
    have hge' : length' ≤ max length stop := hge'
    refine ⟨length', Nat.le_trans hle hle', by omega, ?_⟩
    rw [List.forM_cons, exec_bind_ok hmove, hmoves]
    congr 2
    funext j
    simp only [List.mem_cons, exists_eq_or_imp]
    by_cases hj : ∃ k ∈ l, j = target + f k
    · obtain ⟨k, hk, rfl⟩ := hj
      rw [if_pos ⟨k, hk, rfl⟩, if_pos (.inr ⟨k, hk, rfl⟩), Nat.add_sub_cancel_left,
        Function.update_of_ne (hread.1 k hk)]
    rw [if_neg hj, Function.update_apply]
    by_cases hji : j = target + f i
    · rw [if_pos hji, if_pos (.inl hji), hji, Nat.add_sub_cancel_left]
    · rw [if_neg hji, if_neg]
      rintro (h | h)
      · exact hji h
      · exact hj h

/-- No element is read after it was written, in one of the two orders. -/
def Ordered (source target count : ℕ) (forward : Bool) : Prop :=
  if forward then target ≤ source ∨ source + count ≤ target
  else source ≤ target ∨ target + count ≤ source

theorem exec_moveAll (source target count : ℕ) (forward : Bool)
    (hordered : Ordered source target count forward)
    (hlax : ∀ i < target + count, ∀ length ≥ t.length, lax i length = true) :
    ∃ length, t.length ≤ length ∧ length ≤ max t.length (target + count) ∧
      exec (moveAll (X := X) lax source target count forward) t = (.ok ⟨⟩, { t with
          element := fun j =>
            if target ≤ j ∧ j < target + count then t.element (source + (j - target))
            else t.element j
          length := length }) := by
  have hmoved {f : ℕ → ℕ} (hf : ∀ i < count, f i < count ∧ f (f i) = i) (j : ℕ) :
      (∃ i ∈ List.range count, j = target + f i) ↔ target ≤ j ∧ j < target + count := by
    constructor
    · rintro ⟨i, hi, rfl⟩
      have := (hf i (List.mem_range.1 hi)).1
      omega
    · rintro ⟨hle, hlt⟩
      obtain ⟨hlt, hinv⟩ := hf (j - target) (by omega)
      exact ⟨f (j - target), List.mem_range.2 hlt, by omega⟩
  have hrange : (List.range count).Pairwise (· < ·) := List.pairwise_lt_range
  cases forward with
  | true =>
    have hread : (List.range count).Pairwise fun i k => source + id k ≠ target + id i := by
      refine List.Pairwise.imp_of_mem ?_ hrange
      intro i k hi hk hik
      have := List.mem_range.1 hi
      have := List.mem_range.1 hk
      have : target ≤ source ∨ source + count ≤ target := hordered
      simp only [id]
      omega
    obtain ⟨length, hle, hge, h⟩ := exec_moves (X := X) hread
      (fun i hi => Nat.add_lt_add_left (List.mem_range.1 hi) target) hlax
    simp only [hmoved (f := id) fun i hi => ⟨hi, rfl⟩] at h
    exact ⟨length, hle, hge, h⟩
  | false =>
    have hread : (List.range count).Pairwise fun i k =>
        source + (count - 1 - k) ≠ target + (count - 1 - i) := by
      refine List.Pairwise.imp_of_mem ?_ hrange
      intro i k hi hk hik
      have := List.mem_range.1 hi
      have := List.mem_range.1 hk
      have : source ≤ target ∨ target + count ≤ source := hordered
      omega
    obtain ⟨length, hle, hge, h⟩ := exec_moves (X := X) hread
      (fun i hi => by have := List.mem_range.1 hi; omega) hlax
    simp only [hmoved (f := fun i => count - 1 - i) fun i hi => ⟨by omega, by omega⟩] at h
    exact ⟨length, hle, hge, h⟩

theorem exec_putAll_zipIdx (vs : List V) (start k : ℕ)
    (hlax : ∀ i < start + k + vs.length, ∀ length ≥ t.length, lax i length = true) :
    ∃ length, t.length ≤ length ∧ length ≤ max t.length (start + k + vs.length) ∧
      exec (forM (vs.zipIdx k) fun p => put (X := X) lax (start + p.2) p.1) t =
        (.ok ⟨⟩, { t with
          element := fun j =>
            if start + k ≤ j ∧ j < start + k + vs.length then vs[j - (start + k)]? else t.element j
          length := length }) := by
  induction vs generalizing k t with
  | nil =>
    refine ⟨t.length, Nat.le_refl _, Nat.le_max_left _ _, ?_⟩
    have hnone : (fun j => if start + k ≤ j ∧ j < start + k + ([] : List V).length then
        ([] : List V)[j - (start + k)]? else t.element j) = t.element :=
      funext fun j => if_neg fun h => Nat.not_lt.2 h.1 h.2
    rw [hnone]
    rfl
  | cons v vs ih =>
    rw [List.length_cons] at hlax ⊢
    obtain ⟨length, hle, hge, hput⟩ := exec_put (X := X) (i := start + k) v (hlax _ (by omega))
    obtain ⟨length', hle', hge', hputs⟩ := ih (k + 1) (t := { t with
      element := Function.update t.element (start + k) (some v)
      length := length }) fun i hi m hm => hlax i (by omega) m (Nat.le_trans hle hm)
    have hge' : length' ≤ max length (start + (k + 1) + vs.length) := hge'
    refine ⟨length', Nat.le_trans hle hle', by omega, ?_⟩
    rw [List.zipIdx_cons, List.forM_cons, exec_bind_ok hput, hputs]
    congr 2
    funext j
    simp only [Function.update_apply]
    by_cases hj : j = start + k
    · rw [if_neg (by omega), if_pos hj, if_pos (by omega), hj, Nat.sub_self]
      rfl
    · rw [if_neg hj]
      by_cases hlater : start + (k + 1) ≤ j ∧ j < start + (k + 1) + vs.length
      · have hsub : j - (start + k) = j - (start + (k + 1)) + 1 := by omega
        rw [if_pos hlater, if_pos (by omega), hsub, List.getElem?_cons_succ]
      · rw [if_neg hlater, if_neg (by omega)]

theorem exec_putAll (vs : List V) (start : ℕ)
    (hlax : ∀ i < start + vs.length, ∀ length ≥ t.length, lax i length = true) :
    ∃ length, t.length ≤ length ∧ length ≤ max t.length (start + vs.length) ∧
      exec (putAll (X := X) lax start vs) t = (.ok ⟨⟩, { t with
          element := fun j =>
            if start ≤ j ∧ j < start + vs.length then vs[j - start]? else t.element j
          length := length }) :=
  exec_putAll_zipIdx vs start 0 hlax

end Elements

end Njs.Arrays

/-!
## The methods of fast arrays
-/

namespace Njs.Arrays

open Simulation NjsArray

variable {V X : Type} (junk : NjsArray V → ℕ → Option V) {a : NjsArray V}

def ends : Elements.Lax := fun _ _ => true

theorem ends_eq (i length : ℕ) : ends i length = true := rfl

theorem exec_setLength_eq {t : Elements V} (ha : a.InBounds) (hext : t.extensible = a.extensible)
    (h : ∀ i < a.length, t.element i = a.cell i) :
    exec (Elements.setLength (X := X) a.length) t = (.ok ⟨⟩, a.elements) := by
  have hstart := ha.start
  have hstop := ha.stop
  have hsize := ha.size
  rw [exec_setLength _ (by omega), elements, hext]
  congr 2
  funext i
  split_ifs with hi
  · exact h i hi
  · rfl

theorem exec_setLength_elements (ha : a.InBounds) :
    exec (Elements.setLength (X := X) a.length) a.elements = (.ok ⟨⟩, a.elements) :=
  exec_setLength_eq ha rfl fun _ hi => element_of_lt hi

/-! ### `push` -/

theorem elements_appended (ha : a.InBounds) (hfree : a.start + a.length < a.data.length) (v : V) :
    NjsArray.elements { a.withCell a.length (some v) with length := a.length + 1 } =
      { a.elements with
        element := Function.update a.elements.element a.length (some v)
        length := a.length + 1 } := by
  rw [elements, elements]
  congr 1
  funext j
  show (if j < a.length + 1 then (a.withCell a.length (some v)).cell j else none) = _
  rw [cell_withCell ha.start hfree, Function.update_apply]
  show _ = if j = a.length then some v else if j < a.length then a.cell j else none
  by_cases hj : j = a.length
  · rw [if_pos (by omega), if_pos hj, if_pos hj]
  rw [if_neg hj, if_neg hj]
  split_ifs
  · rfl
  · omega
  · omega
  · rfl

theorem simulates_pushAll (vs : List V) (length k : ℕ) (ha : a.InBounds)
    (hlength : a.length = length + k) (hfree : a.start + a.length + vs.length ≤ a.data.length) :
    Simulates (ε := Error X) Represents
      (fun _ _ a' t' => a'.length = length + k + vs.length ∧ Represents a' t')
      (forM vs fun v => do
        writeCell (← get).length (some v)
        modify fun a => { a with length := a.length + 1 })
      (forM (vs.zipIdx k) fun p => Elements.put ends (length + p.2) p.1) a a.elements := by
  induction vs generalizing a k with
  | nil => exact simulates_pure ⟨hlength, ha, rfl⟩
  | cons v vs ih =>
    have hstart := ha.start
    have hsize := ha.size
    rw [List.length_cons] at hfree ⊢
    have hcell : a.start + a.length < a.data.length := by omega
    let a' : NjsArray V := { a.withCell a.length (some v) with length := a.length + 1 }
    have ha' : a'.InBounds := by
      refine ⟨hstart, ?_, ?_⟩
      · show a.start + (a.length + 1 : ℕ) ≤ (a.withCell a.length (some v)).data.length
        rw [withCell_size]
        omega
      · show (a.withCell a.length (some v)).data.length ≤ 2 ^ 31
        rwa [withCell_size]
    have happend : exec (ε := Stop (Error X)) (do
        writeCell (← get).length (some v)
        modify fun a => { a with length := a.length + 1 }) a = (.ok ⟨⟩, a') :=
      (exec_bind_ok (exec_get a)).trans (exec_bind_ok (exec_writeCell hstart hcell))
    have hput : exec (Elements.put (X := X) ends (length + k) v) a.elements =
        (.ok ⟨⟩, a'.elements) := by
      rw [exec_put_of_lt _ v (fun h => Bool.noConfusion h.2.2) (by omega),
        elements_appended ha hcell, hlength, ← hlength]
      congr 2
      show max a.length (a.length + 1) = a.length + 1
      omega
    rw [List.forM_cons, List.zipIdx_cons, List.forM_cons]
    refine Simulates.bind_left happend (Simulates.bind_right hput ?_)
    refine (ih (k + 1) ha' ?_ ?_).mono ?_
    · show a.length + 1 = _
      omega
    · show a.start + (a.length + 1 : ℕ) + vs.length ≤ (a.withCell a.length (some v)).data.length
      rw [withCell_size]
      omega
    · rintro - - b t ⟨hb, hbt⟩
      exact ⟨by omega, hbt⟩

theorem simulates_push (ha : a.InBounds) (vs : List V) :
    Simulates (ε := Error X) Represents Same (njsArrayPrototypePush junk vs)
      (Elements.push ends vs) a a.elements := by
  rw [njsArrayPrototypePush, Elements.push]
  refine Simulates.get_right ?_
  rcases expand_cases (X := X) junk ha 0 (vs.length + 1) with
    hfail | ⟨b, hexpand, hb, hsame, -, hfree⟩
  · exact simulates_leaves_of_exec (exec_bind_error hfail) ⟨ha, rfl⟩
  have hlength := hsame.length
  have hsize := hb.size
  have hstart := hb.start
  have hmax : ¬maxLength < a.length + vs.length := by
    rw [maxLength]
    omega
  refine Simulates.bind_left hexpand ?_
  rw [elements_length, if_neg hmax, ← hsame.elements]
  refine (simulates_pushAll vs a.length 0 hb (by omega) (by omega)).bind ?_
  rintro - - b t ⟨hlength, hb, rfl⟩
  rw [Nat.add_zero] at hlength
  have hset := exec_setLength_elements (X := X) hb
  rw [hlength] at hset
  refine Simulates.bind_right hset (Simulates.get_left (simulates_pure ⟨?_, hb, rfl⟩))
  rw [hlength]

/-! ### `pop` and `shift` -/

theorem simulates_pop (ha : a.InBounds) :
    Simulates (ε := Error X) Represents Same (njsArrayPrototypePop junk) Elements.pop a
      a.elements := by
  rw [njsArrayPrototypePop, Elements.pop]
  refine Simulates.get_left (Simulates.get_right ?_)
  dsimp only
  rw [elements_length]
  by_cases hlength : a.length = 0
  · rw [if_pos hlength, if_pos hlength]
    refine (simulates_lengthSet junk ha 0).bind ?_
    rintro _ _ b t ⟨-, hb⟩
    exact simulates_pure ⟨rfl, hb⟩
  have hlast : (a.length : ℤ) - 1 = (a.length - 1 : ℕ) := by omega
  have hstop := ha.stop
  let b : NjsArray V := { a with length := a.length - 1 }
  have hb : b.InBounds := by
    refine ⟨ha.start, ?_, ha.size⟩
    show a.start + (a.length - 1 : ℕ) ≤ a.data.length
    omega
  have hset : exec (Elements.setLength (X := X) b.length) { a.elements with
      element := Function.update a.elements.element (a.length - 1) none } =
        (.ok ⟨⟩, b.elements) := by
    refine exec_setLength_eq hb rfl fun i hi => ?_
    have hi : i < a.length - 1 := hi
    show Function.update a.elements.element (a.length - 1) none i = a.cell i
    rw [Function.update_of_ne (by omega)]
    exact element_of_lt (by omega)
  rw [if_neg hlength, if_neg hlength, hlast]
  refine Simulates.bind_left (exec_valueProperty ha _) (Simulates.bind_right (exec_read _ _) ?_)
  refine Simulates.bind_left (exec_modify _ a) (Simulates.bind_right (exec_remove _ _) ?_)
  exact Simulates.bind_right hset (simulates_pure ⟨rfl, hb, rfl⟩)

theorem simulates_shift (ha : a.InBounds) :
    Simulates (ε := Error X) Represents Same (njsArrayPrototypeShift junk) (Elements.shift moves) a
      a.elements := by
  rw [njsArrayPrototypeShift, Elements.shift]
  refine Simulates.get_left (Simulates.get_right ?_)
  dsimp only
  rw [elements_length]
  by_cases hlength : a.length = 0
  · rw [if_pos hlength, if_pos hlength]
    refine (simulates_lengthSet junk ha 0).bind ?_
    rintro _ _ b t ⟨-, hb⟩
    exact simulates_pure ⟨rfl, hb⟩
  have hstart := ha.start
  have hstop := ha.stop
  let b : NjsArray V := { a with start := a.start + 1, length := a.length - 1 }
  have hb : b.InBounds := by
    refine ⟨?_, ?_, ha.size⟩
    · show 0 ≤ a.start + 1
      omega
    · show a.start + 1 + (a.length - 1 : ℕ) ≤ a.data.length
      omega
  have hmove : ∀ i < a.length - 1, ∀ length ≥ a.elements.length, moves i length = true := by
    intro i hi length hle
    rw [elements_length] at hle
    exact decide_eq_true (by omega)
  obtain ⟨length, -, -, hmoves⟩ := Elements.exec_moveAll (X := X) 1 0 (a.length - 1) true
    (.inl (Nat.zero_le 1)) (by rwa [Nat.zero_add])
  rw [if_neg hlength, if_neg hlength]
  refine Simulates.bind_left (exec_valueProperty ha 0) (Simulates.bind_right (exec_read _ _) ?_)
  refine Simulates.bind_left (exec_modify _ a) (Simulates.bind_right hmoves ?_)
  refine Simulates.bind_right (exec_remove _ _) ?_
  refine Simulates.bind_right (exec_setLength_eq hb rfl fun i hi => ?_)
    (simulates_pure ⟨rfl, hb, rfl⟩)
  have hi : i < a.length - 1 := hi
  dsimp only
  rw [Function.update_of_ne (by omega), if_pos (by omega), element_of_lt (by omega), cell, cell]
  congr 3
  show a.start + (1 + (i - 0) : ℕ) = a.start + 1 + i
  omega

/-! ### `unshift` -/

theorem exec_unshiftAll (vs : List V) (hfree : vs.length ≤ a.start)
    (hsize : a.start ≤ a.data.length) :
    ∃ a', exec (ε := Stop (Error X)) (forM vs fun v => do
          modify fun a => { a with start := a.start - 1 }
          writeCell 0 (some v)) a = (.ok ⟨⟩, a') ∧
      a'.start = a.start - vs.length ∧ a'.length = a.length ∧ a'.extensible = a.extensible ∧
      a'.data.length = a.data.length ∧
      ∀ j : ℕ, a'.cell j = if j < vs.length then vs.reverse[j]? else a.cell (j - vs.length) := by
  induction vs generalizing a with
  | nil => exact ⟨a, rfl, by simp, rfl, rfl, rfl, fun j => rfl⟩
  | cons v vs ih =>
    rw [List.length_cons] at hfree
    let b : NjsArray V := { a with start := a.start - 1 }
    have hb : 0 ≤ b.start := by
      show 0 ≤ a.start - 1
      omega
    have hcell : b.start + (0 : ℕ) < b.data.length := by
      show a.start - 1 + (0 : ℕ) < a.data.length
      omega
    have hwrite : exec (ε := Stop (Error X)) (do
        modify fun a => { a with start := a.start - 1 }
        writeCell 0 (some v)) a = (.ok ⟨⟩, b.withCell 0 (some v)) :=
      (exec_bind_ok (exec_modify _ a)).trans (exec_writeCell hb hcell)
    obtain ⟨a', hexec, hstart, hlength, hextensible, hsize', hcells⟩ :=
      ih (a := b.withCell 0 (some v)) (by show (vs.length : ℤ) ≤ a.start - 1; omega)
        (by rw [withCell_size]; show a.start - 1 ≤ a.data.length; omega)
    refine ⟨a', ?_, ?_, hlength, hextensible, hsize'.trans withCell_size, fun j => ?_⟩
    · rw [List.forM_cons, exec_bind_ok hwrite, hexec]
    · rw [hstart]
      show a.start - 1 - vs.length = a.start - (vs.length + 1 : ℕ)
      omega
    rw [hcells, cell_withCell hb hcell, List.length_cons, List.reverse_cons]
    by_cases hj : j < vs.length
    · rw [if_pos hj, if_pos (by omega), List.getElem?_append_left (by simpa using hj)]
    by_cases hlast : j = vs.length
    · rw [if_neg hj, if_pos (by omega), if_pos (by omega),
        List.getElem?_append_right (by simp [hlast]), List.length_reverse, hlast, Nat.sub_self]
      rfl
    · rw [if_neg hj, if_neg (by omega), if_neg (by omega), cell, cell]
      congr 3
      show a.start - 1 + (j - vs.length : ℕ) = a.start + (j - (vs.length + 1) : ℕ)
      omega

theorem simulates_unshift (ha : a.InBounds) (vs : List V) :
    Simulates (ε := Error X) Represents Same (njsArrayPrototypeUnshift junk vs)
      (Elements.unshift ends vs) a a.elements := by
  have hstart := ha.start
  have hstop := ha.stop
  have hsize := ha.size
  rw [njsArrayPrototypeUnshift, Elements.unshift]
  refine Simulates.get_right ?_
  by_cases hvs : vs.length = 0
  · have hmax : ¬maxLength < a.length + vs.length := by
      rw [maxLength]
      omega
    have hset := exec_setLength_elements (X := X) ha
    rw [elements_length, if_neg hmax, if_neg (by omega), if_neg (by omega), hvs, Nat.add_zero]
    exact Simulates.bind_right hset (Simulates.get_left (simulates_pure ⟨rfl, ha, rfl⟩))
  rw [if_pos hvs]
  rcases expand_cases (X := X) junk ha vs.length 0 with
    hfail | ⟨b, hexpand, hb, hsame, hbefore, hafter⟩
  · exact simulates_leaves_of_exec (exec_bind_error hfail) ⟨ha, rfl⟩
  have hbstart := hb.start
  have hbsize := hb.size
  have hblength := hsame.length
  obtain ⟨b', hunshift, hstart', hlength', hextensible', hsize', hcell'⟩ :=
    exec_unshiftAll (X := X) vs.reverse (a := { b with length := b.length + vs.length })
      (by rwa [List.length_reverse]) (by show b.start ≤ b.data.length; omega)
  have hlength : b'.length = a.length + vs.length := by
    rw [hlength']
    show b.length + vs.length = _
    omega
  have hb' : b'.InBounds := by
    rw [List.length_reverse] at hstart'
    refine ⟨?_, ?_, ?_⟩
    · rw [hstart']
      show 0 ≤ b.start - vs.length
      omega
    · rw [hstart', hsize', hlength]
      show b.start - vs.length + (a.length + vs.length : ℕ) ≤ b.data.length
      omega
    · rwa [hsize']
  have hmax : ¬maxLength < a.length + vs.length := by
    rw [maxLength]
    omega
  refine Simulates.bind_left hexpand (Simulates.bind_left (exec_modify _ b)
    (Simulates.bind_left hunshift (Simulates.get_left ?_)))
  obtain ⟨length, -, -, hmoves⟩ := Elements.exec_moveAll (X := X) (t := a.elements) 0
    vs.length a.length false (.inl (Nat.zero_le _)) fun i _ length _ => ends_eq i length
  dsimp only
  rw [elements_length, if_neg hmax, if_pos (by omega)]
  refine Simulates.bind_right hmoves ?_
  obtain ⟨length', -, -, hputs⟩ := Elements.exec_putAll (X := X) vs 0 fun i _ length _ =>
    ends_eq i length
  refine Simulates.bind_right hputs ?_
  rw [← hlength]
  refine Simulates.bind_right (exec_setLength_eq hb' ?_ fun i hi => ?_)
    (simulates_pure ⟨rfl, hb', rfl⟩)
  · exact (hextensible'.trans hsame.extensible).symm
  rw [hcell', List.length_reverse, List.reverse_reverse]
  dsimp only
  by_cases hi' : i < vs.length
  · rw [if_pos (by omega), if_pos hi', Nat.sub_zero]
  · rw [if_neg (by omega), if_neg hi', if_pos (by omega), Nat.zero_add,
      element_of_lt (by omega), ← hsame.cell _ (by omega)]
    rfl

/-! ### `copyWithin` -/

theorem exec_moveCells (ha : a.InBounds) (target source count : ℕ)
    (htarget : target + count ≤ a.length) (hsource : source + count ≤ a.length) :
    ∃ a', exec (moveCells (X := X) target source count) a = (.ok ⟨⟩, a') ∧ a'.start = a.start ∧
      a'.length = a.length ∧ a'.extensible = a.extensible ∧ a'.data.length = a.data.length ∧
      ∀ j : ℕ, a'.cell j =
        if target ≤ j ∧ j < target + count then a.cell (source + (j - target)) else a.cell j := by
  have hstart := ha.start
  have hstop := ha.stop
  have hin : 0 ≤ a.start + (source : ℤ) ∧ a.start + source + count ≤ a.data.length ∧
      0 ≤ a.start + (target : ℤ) ∧ a.start + target + count ≤ a.data.length := by omega
  let data := (a.data.take (a.start + target).toNat ++
    (a.data.drop (a.start + source).toNat).take count) ++
      a.data.drop ((a.start + target).toNat + count)
  have hlen : ((a.data.drop (a.start + source).toNat).take count).length = count := by
    rw [List.length_take, List.length_drop]
    omega
  refine ⟨{ a with data := data }, ?_, rfl, rfl, rfl, ?_, fun j => ?_⟩
  · rw [moveCells, exec_bind_ok (exec_get a), if_pos hin]
    rfl
  · simp only [data, List.length_append, hlen, List.length_take, List.length_drop]
    omega
  show (data[(a.start + j).toNat]?).join = _
  simp only [data, List.append_assoc]
  by_cases hbefore : j < target
  · rw [if_neg (by omega), List.getElem?_append_left (by rw [List.length_take]; omega),
      List.getElem?_take_of_lt (by omega), cell]
  rw [List.getElem?_append_right (by rw [List.length_take]; omega), List.length_take]
  by_cases hj : j < target + count
  · rw [if_pos (by omega), List.getElem?_append_left (by omega),
      List.getElem?_take_of_lt (by omega), List.getElem?_drop, cell]
    congr 2
    omega
  · rw [if_neg (by omega), List.getElem?_append_right (by omega), hlen, List.getElem?_drop, cell]
    congr 2
    omega

theorem simulates_copyWithin (ha : a.InBounds) {target source : ℕ} {count : ℤ} {forward : Bool}
    (hordered : Elements.Ordered source target count.toNat forward) :
    Simulates (ε := Error X) Represents Same (njsArrayCopyWithin junk target source count forward)
      (Elements.moveAll moves source target count.toNat forward) a a.elements := by
  rw [njsArrayCopyWithin]
  refine Simulates.get_left ?_
  dsimp only
  by_cases hblock : 0 < count ∧ target + count < a.length ∧ source + count < a.length
  · lift count to ℕ using by omega
    rw [Int.toNat_natCast] at hordered ⊢
    obtain ⟨b, hexec, hstart, hlength, hextensible, hsize, hcell⟩ :=
      exec_moveCells (X := X) ha target source count (by omega) (by omega)
    have hb : b.InBounds := by
      refine ⟨?_, ?_, ?_⟩
      · rw [hstart]
        exact ha.start
      · rw [hstart, hlength, hsize]
        exact ha.stop
      · rw [hsize]
        exact ha.size
    obtain ⟨length, hle, hge, hmoves⟩ := Elements.exec_moveAll (X := X) (t := a.elements)
      source target count forward hordered fun i hi length hle => (decide_eq_true (by
        rw [elements_length] at hle
        omega) : moves i length = true)
    rw [elements_length] at hle hge
    have hlength' : length = b.length := by omega
    rw [if_pos hblock]
    refine simulates_of_exec hexec hmoves ⟨rfl, hb, ?_⟩
    rw [hlength', elements, elements, hextensible]
    congr 1
    funext j
    dsimp only
    rw [hcell, hlength]
    by_cases hj : target ≤ j ∧ j < target + count
    · rw [if_pos hj, if_pos (by omega), if_pos hj, if_pos (by omega)]
    · rw [if_neg hj, if_neg hj]
  · rw [if_neg hblock]
    refine (simulates_forM (I := Represents) _ ?_ ⟨ha, rfl⟩).mono fun _ _ _ _ h => ⟨rfl, h⟩
    rintro i hi b _ ⟨hb, rfl⟩
    have hi := List.mem_range.1 hi
    cases forward with
    | true => exact (simulates_move junk hb (source + i) (target + i)).mono fun _ _ _ _ h => h.2
    | false =>
      have hback (n : ℕ) : (n : ℤ) + (count - 1) - i = (n + (count.toNat - 1 - i) : ℕ) := by omega
      simp only [Bool.false_eq_true, if_false, hback]
      exact (simulates_move junk hb _ _).mono fun _ _ _ _ h => h.2

theorem simulates_copyWithinAt (ha : a.InBounds) (length target start stop : ℕ) :
    Simulates (ε := Error X) Represents Same (copyWithinAt junk length target start stop)
      (Elements.copyWithinAt moves length target start stop) a a.elements := by
  have hcount : min (stop - start) (length - target) =
      (min ((stop : ℤ) - start) (length - target)).toNat := by omega
  rw [copyWithinAt, Elements.copyWithinAt, hcount]
  generalize min ((stop : ℤ) - start) (length - target) = count
  have hforward : (!(decide ((start : ℤ) < target) && decide ((target : ℤ) < start + count))) =
      !(decide (start < target) && decide (target < start + count.toNat)) := by
    rw [← Bool.decide_and, ← Bool.decide_and]
    congr 2
    rw [eq_iff_iff]
    omega
  have hordered : Elements.Ordered start target count.toNat
      !(decide (start < target) && decide (target < start + count.toNat)) := by
    rw [Elements.Ordered, ← Bool.decide_and]
    split_ifs with h
    · rw [Bool.not_eq_true', decide_eq_false_iff_not] at h
      omega
    · have h : start < target ∧ target < start + count.toNat := by simpa using h
      omega
  rw [hforward]
  refine (simulates_copyWithin junk ha hordered).bind ?_
  rintro _ _ b _ ⟨-, hb⟩
  exact simulates_pure ⟨rfl, hb⟩

/-! ### `splice` -/

theorem simulates_spliceItems (ha : a.InBounds) (length start delete : ℕ) (items : List V)
    (deleted : List (Option V)) (hdelete : delete ≤ length) :
    Simulates (ε := Error X) Represents Same (do
        forM items.zipIdx fun (p : V × ℕ) => njsValuePropertyI64Set junk (start + p.2) p.1
        njsObjectLengthSet junk (length + (items.length - delete))
        return Result.array deleted)
      (do
        Elements.putAll moves start items
        Elements.setLength (length + items.length - delete)
        return Result.array deleted) a a.elements := by
  have hset : (length : ℤ) + (items.length - delete) = (length + items.length - delete : ℕ) := by
    omega
  have hputs : Simulates (ε := Error X) Represents (fun _ _ => Represents)
      (forM items.zipIdx fun (p : V × ℕ) => njsValuePropertyI64Set junk (start + p.2) p.1)
      (Elements.putAll moves start items) a a.elements := by
    refine simulates_forM _ ?_ ⟨ha, rfl⟩
    rintro p - b _ ⟨hb, rfl⟩
    exact (simulates_set junk hb (start + p.2) p.1).mono fun _ _ _ _ h => h.2
  rw [hset]
  refine hputs.bind ?_
  rintro - - b _ ⟨hb, rfl⟩
  refine (simulates_lengthSet junk hb _).bind ?_
  rintro _ _ b _ ⟨-, hb⟩
  exact simulates_pure ⟨rfl, hb⟩

theorem simulates_spliceMoves (ha : a.InBounds) (length start delete items : ℕ) :
    Simulates (ε := Error X) Represents Same
      (njsArrayCopyWithin junk (start + items) (start + delete) (length - (start + delete))
        (decide ((items : ℤ) - delete < 0)))
      (Elements.moveAll moves (start + delete) (start + items) (length - (start + delete))
        (decide (items < delete))) a a.elements := by
  have hforward : decide ((items : ℤ) - delete < 0) = decide (items < delete) := by
    congr 1
    rw [eq_iff_iff]
    omega
  have hcount : length - (start + delete) = ((length : ℤ) - (start + delete)).toNat := by omega
  rw [hforward, hcount]
  refine simulates_copyWithin junk ha ?_
  rw [Elements.Ordered]
  split_ifs with h
  · have h := of_decide_eq_true h
    omega
  · have h : ¬items < delete := by simpa using h
    omega

theorem simulates_spliceRemoves (ha : a.InBounds) {length delete : ℕ} (items : ℕ)
    (hdelete : delete ≤ length) :
    Simulates (ε := Error X) Represents (fun _ _ => Represents)
      (forM (List.range (-((items : ℤ) - delete)).toNat) fun (i : ℕ) =>
        njsValuePropertyI64Delete (length - 1 - i))
      (forM (List.range (delete - items)) fun i => Elements.remove (length - 1 - i))
      a a.elements := by
  have htimes : (-((items : ℤ) - delete)).toNat = delete - items := by omega
  rw [htimes]
  refine simulates_forM _ ?_ ⟨ha, rfl⟩
  rintro i hi b _ ⟨hb, rfl⟩
  have hi := List.mem_range.1 hi
  have hindex : (length : ℤ) - 1 - i = (length - 1 - i : ℕ) := by omega
  rw [hindex]
  exact (simulates_delete hb _).mono fun _ _ _ _ h => h.2

theorem simulates_deletedElements (ha : a.InBounds) (start delete : ℕ) :
    Simulates (ε := Error X) Represents Same (deletedElements start delete)
      ((List.range delete).mapM fun i => Elements.read (start + i)) a a.elements := by
  have hstart := ha.start
  have hstop := ha.stop
  rw [deletedElements, Int.toNat_natCast]
  refine Simulates.get_left ?_
  split_ifs with h
  · refine (simulates_mapM (I := fun b t => b = a ∧ t = a.elements) _ ?_ ⟨rfl, rfl⟩).mono ?_
    · rintro i hi _ _ ⟨rfl, rfl⟩
      have hi := List.mem_range.1 hi
      refine simulates_of_exec (exec_readCell hstart (i := start + i) (by omega)) (exec_read _ _) ?_
      exact ⟨(element_of_lt (by omega)).symm, rfl, rfl⟩
    · rintro x y b t ⟨rfl, rfl, rfl⟩
      exact ⟨rfl, ha, rfl⟩
  · refine simulates_mapM (I := Represents) _ ?_ ⟨ha, rfl⟩
    rintro i - b _ ⟨hb, rfl⟩
    exact simulates_read hb (start + i)

theorem simulates_spliceAt (ha : a.InBounds) {length start delete : ℕ} (items : List V)
    (hdelete : start + delete ≤ length) :
    Simulates (ε := Error X) Represents Same (spliceAt junk length start delete items)
      (Elements.spliceAt moves length start delete items) a a.elements := by
  rw [spliceAt, Elements.spliceAt]
  dsimp only
  by_cases hmax : maxLength < length + items.length - delete
  · rw [if_pos (by omega), if_pos hmax]
    exact simulates_throw ⟨ha, rfl⟩
  rw [if_neg (by omega), if_neg hmax]
  refine (simulates_deletedElements ha start delete).bind ?_
  rintro deleted _ b _ ⟨rfl, hb, rfl⟩
  by_cases hdelta : items.length = delete
  · rw [if_neg (by omega), if_neg (by omega)]
    exact simulates_spliceItems junk hb length start delete items deleted (by omega)
  rw [if_pos (by omega), if_pos hdelta]
  refine (simulates_spliceMoves junk hb length start delete items.length).bind ?_
  rintro _ _ b _ ⟨-, hb, rfl⟩
  refine (simulates_spliceRemoves hb items.length (by omega)).bind ?_
  rintro - - b _ ⟨hb, rfl⟩
  exact simulates_spliceItems junk hb length start delete items deleted (by omega)

end Njs.Arrays
