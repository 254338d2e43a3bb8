import Mathlib.Data.List.GetD
import Mathlib.Logic.Equiv.Basic
import Njs.Lib.StateExcept

/-!
# `njs_qsort`

A quicksort with ranges on a stack of its own. Ranges of at most six elements are sorted by
insertion, and those that are too deep by a heapsort. Positions are offsets of elements in memory.
-/

namespace Njs.Sorting

open StateExcept

variable {α ε : Type}

abbrev Program (α ε β : Type) : Type := Prog (ℕ → α) ε β

/-- `swap` of two elements. -/
def swap (i j : ℕ) : Program α ε PUnit := modify fun m => m ∘ Equiv.swap i j

variable (cmp : α → α → Except ε ℤ)

/-- `cmp` of two elements. -/
def compare (i j : ℕ) : Program α ε ℤ := do
  let m ← get
  StateT.lift (cmp (m i) (m j))

/-! ### Heapsort -/

/-- The greater of `m` and its child `c`, if there is one. -/
def greater (base n m c : ℕ) : Program α ε ℕ := do
  if c < n then
    let r ← compare cmp (base + m) (base + c)
    return if r < 0 then c else m
  else return m

/-- `njs_sift_down`. The position grows with each pass. -/
def njsSiftDown (base n : ℕ) : ℕ → ℕ → Program α ε PUnit
  | 0, _ => pure ()
  | passes + 1, i => do
    let m ← greater cmp base n i (2 * i + 1)
    let m ← greater cmp base n m (2 * i + 2)
    if m = i then pure ()
    else
      swap (base + i) (base + m)
      njsSiftDown base n passes m

/-- The greatest elements are put at the end, one after the other. -/
def popAll (base : ℕ) : ℕ → Program α ε PUnit
  | 0 | 1 => pure ()
  | n + 2 => do
    swap base (base + (n + 1))
    njsSiftDown cmp base (n + 1) (n + 1) 0
    popAll base (n + 1)

def njsHeapsort (base n : ℕ) : Program α ε PUnit := do
  forM (List.range (n / 2 + 1)).reverse fun i => njsSiftDown cmp base n n i
  popAll cmp base n

/-! ### Quicksort -/

def njsPivot (a b c : ℕ) : Program α ε ℕ := do
  if (← compare cmp a c) < 0 then
    if (← compare cmp b c) < 0 then
      return if (← compare cmp a b) < 0 then b else a
    else return c
  else if (← compare cmp b a) < 0 then
    return if (← compare cmp b c) < 0 then c else b
  else return a

/-- The elements from `p` on are put before `lt`, left where they are, or put after `gt`, which is
`unprocessed` elements after `p`. -/
def partition (lt p : ℕ) : ℕ → Program α ε (ℕ × ℕ)
  | 0 => return (lt, p)
  | unprocessed + 1 => do
    let r ← compare cmp p lt
    if r ≤ 0 then
      if r < 0 then
        swap lt p
        partition (lt + 1) (p + 1) unprocessed
      else partition lt (p + 1) unprocessed
    else
      swap (p + unprocessed) p
      partition lt p unprocessed

def split (base n : ℕ) : Program α ε (ℕ × ℕ) := do
  let m4 := n / 4
  let p ← njsPivot cmp (base + m4) (base + 2 * m4) (base + 3 * m4)
  swap base p
  partition cmp base (base + 1) (n - 1)

/-- The element at `base + c` is moved down to its place. -/
def insert (base : ℕ) : ℕ → Program α ε PUnit
  | 0 => pure ()
  | c + 1 => do
    if (← compare cmp (base + (c + 1)) (base + c)) < 0 then
      swap (base + (c + 1)) (base + c)
      insert base c
    else pure ()

def insertionSort (base n : ℕ) : Program α ε PUnit :=
  forM (List.range' 1 (n - 1)) fun p => insert cmp base p

/-- `NJS_MAX_DEPTH`. -/
def njsMaxDepth : ℕ := 16

/-- The ranges are sorted. The first one is at hand and the others are on the stack; a range is its
first position and its length. -/
def sortRanges : ℕ → List (ℕ × ℕ) → Program α ε PUnit
  | 0, _ => pure ()
  | _ + 1, [] => pure ()
  | passes + 1, (base, n) :: stack => do
    if 6 < n then
      if stack.length = njsMaxDepth - 1 then
        njsHeapsort cmp base n
        sortRanges passes stack
      else
        let (lt, gt) ← split cmp base n
        let lower := (base, lt - base)
        let upper := (gt, base + n - gt)
        if base + n - gt < lt - base then sortRanges passes (upper :: lower :: stack)
        else sortRanges passes (lower :: upper :: stack)
    else
      insertionSort cmp base n
      sortRanges passes stack

/-- `njs_qsort`. A pass splits a range or sorts it, so that there are at most `2 * n + 1`. -/
def njsQsort (l : List α) : Except ε (List α) :=
  match l with
  | [] => .ok []
  | [a] => .ok [a]
  | a :: b :: l => do
    let n := (a :: b :: l).length
    let (_, m) ← (sortRanges cmp (2 * n + 1) [(0, n)]).run fun i => (a :: b :: l).getD i a
    return (List.range n).map m

end Njs.Sorting

/-!
## Elements that are renamed

The sort looks at its elements only through the comparison. Elements that are replaced by others
which compare alike are moved to the same places.
-/

namespace Njs.Sorting

open StateExcept

variable {α β ε : Type} (f : β → α)

/-- Memory with other elements in it. -/
def Renamed (m : ℕ → α) (m' : ℕ → β) : Prop := m = f ∘ m'

variable {f} {cmp : α → α → Except ε ℤ} {m : ℕ → α} {m' : ℕ → β}

theorem alike_compare (h : Renamed f m m') (i j : ℕ) :
    Alike (Renamed f) Eq (compare cmp i j) (compare (fun a b => cmp (f a) (f b)) i j) m m' := by
  subst h
  unfold Alike
  rw [compare, compare]
  simp only [bind_pure_comp, StateT.run_bind, StateT.run_get, StateT.run_lift, Function.comp_apply,
    pure_bind]
  rcases cmp (f (m' i)) (f (m' j)) with e | r
  · rfl
  · exact ⟨rfl, rfl⟩

theorem alike_swap (h : Renamed f m m') (i j : ℕ) :
    Alike (Renamed f) (fun _ _ => True) (swap i j : Program α ε PUnit) (swap i j) m m' := by
  subst h
  exact ⟨trivial, rfl⟩

theorem alike_greater (h : Renamed f m m') (base n k c : ℕ) :
    Alike (Renamed f) Eq (greater cmp base n k c)
      (greater (fun a b => cmp (f a) (f b)) base n k c) m m' := by
  rw [greater, greater]
  refine alike_ite Iff.rfl (fun _ _ => ?_) fun _ _ => alike_pure rfl h
  refine (alike_compare h _ _).bind ?_
  rintro r _ s t rfl h
  exact alike_pure rfl h

theorem alike_njsSiftDown (h : Renamed f m m') (base n passes i : ℕ) :
    Alike (Renamed f) (fun _ _ => True) (njsSiftDown cmp base n passes i)
      (njsSiftDown (fun a b => cmp (f a) (f b)) base n passes i) m m' := by
  induction passes generalizing m m' i with
  | zero => exact alike_pure trivial h
  | succ passes ih =>
    rw [njsSiftDown, njsSiftDown]
    refine (alike_greater h base n _ _).bind ?_
    rintro k _ s t rfl h
    refine (alike_greater h base n _ _).bind ?_
    rintro k _ s t rfl h
    refine alike_ite Iff.rfl (fun _ _ => alike_pure trivial h) fun _ _ => ?_
    exact (alike_swap h _ _).bind fun _ _ s t _ h => ih h _

theorem alike_popAll (h : Renamed f m m') (base n : ℕ) :
    Alike (Renamed f) (fun _ _ => True) (popAll cmp base n)
      (popAll (fun a b => cmp (f a) (f b)) base n) m m' := by
  induction n using popAll.induct generalizing m m' with
  | case1 => exact alike_pure trivial h
  | case2 => exact alike_pure trivial h
  | case3 n ih =>
    rw [popAll, popAll]
    refine (alike_swap h _ _).bind fun _ _ s t _ h => ?_
    exact (alike_njsSiftDown h _ _ _ _).bind fun _ _ s t _ h => ih h

theorem alike_njsHeapsort (h : Renamed f m m') (base n : ℕ) :
    Alike (Renamed f) (fun _ _ => True) (njsHeapsort cmp base n)
      (njsHeapsort (fun a b => cmp (f a) (f b)) base n) m m' := by
  rw [njsHeapsort, njsHeapsort]
  refine (alike_forM (R := Renamed f) _ (fun i _ s t h => alike_njsSiftDown h _ _ _ _) h).bind ?_
  exact fun _ _ s t _ h => alike_popAll h base n

theorem alike_njsPivot (h : Renamed f m m') (a b c : ℕ) :
    Alike (Renamed f) Eq (njsPivot cmp a b c) (njsPivot (fun a b =>
      cmp (f a) (f b)) a b c) m m' := by
  rw [njsPivot, njsPivot]
  refine (alike_compare h a c).bind ?_
  rintro r _ s t rfl h
  refine alike_ite Iff.rfl (fun _ _ => ?_) fun _ _ => ?_
  · refine (alike_compare h b c).bind ?_
    rintro r _ s t rfl h
    refine alike_ite Iff.rfl (fun _ _ => ?_) fun _ _ => alike_pure rfl h
    refine (alike_compare h a b).bind ?_
    rintro r _ s t rfl h
    exact alike_pure rfl h
  refine (alike_compare h b a).bind ?_
  rintro r _ s t rfl h
  refine alike_ite Iff.rfl (fun _ _ => ?_) fun _ _ => alike_pure rfl h
  refine (alike_compare h b c).bind ?_
  rintro r _ s t rfl h
  exact alike_pure rfl h

theorem alike_partition (h : Renamed f m m') (lt p unprocessed : ℕ) :
    Alike (Renamed f) Eq (partition cmp lt p unprocessed)
      (partition (fun a b => cmp (f a) (f b)) lt p unprocessed) m m' := by
  induction unprocessed generalizing m m' lt p with
  | zero => exact alike_pure rfl h
  | succ unprocessed ih =>
    rw [partition, partition]
    refine (alike_compare h p lt).bind ?_
    rintro r _ s t rfl h
    refine alike_ite Iff.rfl (fun _ _ => alike_ite Iff.rfl (fun _ _ => ?_) fun _ _ => ih h _ _)
      fun _ _ => ?_
    · exact (alike_swap h _ _).bind fun _ _ s t _ h => ih h _ _
    · exact (alike_swap h _ _).bind fun _ _ s t _ h => ih h _ _

theorem alike_split (h : Renamed f m m') (base n : ℕ) :
    Alike (Renamed f) Eq (split cmp base n) (split (fun a b => cmp (f a) (f b)) base n) m m' := by
  rw [split, split]
  refine (alike_njsPivot h _ _ _).bind ?_
  rintro p _ s t rfl h
  exact (alike_swap h _ _).bind fun _ _ s t _ h => alike_partition h _ _ _

theorem alike_insert (h : Renamed f m m') (base c : ℕ) :
    Alike (Renamed f) (fun _ _ => True) (insert cmp base c)
      (insert (fun a b => cmp (f a) (f b)) base c) m m' := by
  induction c generalizing m m' with
  | zero => exact alike_pure trivial h
  | succ c ih =>
    rw [insert, insert]
    refine (alike_compare h _ _).bind ?_
    rintro r _ s t rfl h
    refine alike_ite Iff.rfl (fun _ _ => ?_) fun _ _ => alike_pure trivial h
    exact (alike_swap h _ _).bind fun _ _ s t _ h => ih h

theorem alike_insertionSort (h : Renamed f m m') (base n : ℕ) :
    Alike (Renamed f) (fun _ _ => True) (insertionSort cmp base n)
      (insertionSort (fun a b => cmp (f a) (f b)) base n) m m' := by
  rw [insertionSort, insertionSort]
  exact alike_forM _ (fun p _ s t h => alike_insert h base p) h

theorem alike_sortRanges (cmp : α → α → Except ε ℤ) (h : Renamed f m m') (passes : ℕ) (ranges :
    List (ℕ × ℕ)) :
    Alike (Renamed f) (fun _ _ => True) (sortRanges cmp passes ranges)
      (sortRanges (fun a b => cmp (f a) (f b)) passes ranges) m m' := by
  induction passes generalizing m m' ranges with
  | zero => exact alike_pure trivial h
  | succ passes ih =>
    obtain _ | ⟨⟨base, n⟩, stack⟩ := ranges
    · exact alike_pure trivial h
    rw [sortRanges, sortRanges]
    refine alike_ite Iff.rfl (fun _ _ => alike_ite Iff.rfl (fun _ _ => ?_) fun _ _ => ?_)
      fun _ _ => ?_
    · exact (alike_njsHeapsort h base n).bind fun _ _ s t _ h => ih h _
    · refine (alike_split h base n).bind ?_
      rintro ⟨lt, gt⟩ _ s t rfl h
      exact alike_ite Iff.rfl (fun _ _ => ih h _) fun _ _ => ih h _
    · exact (alike_insertionSort h base n).bind fun _ _ s t _ h => ih h _

theorem njsQsort_map (l : List β) :
    njsQsort cmp (l.map f) = (njsQsort (fun a b => cmp (f a) (f b)) l).map (List.map f) := by
  obtain _ | ⟨a, _ | ⟨b, l⟩⟩ := l
  · rfl
  · rfl
  have hmemory : Renamed f (fun i => ((a :: b :: l).map f).getD i (f a))
      fun i => (a :: b :: l).getD i a := by
    funext i
    exact List.getD_map _ _ f
  have halike := alike_sortRanges cmp hmemory (2 * (a :: b :: l).length + 1)
    [(0, (a :: b :: l).length)]
  simp only [List.map_cons, njsQsort, List.length_cons, List.length_map] at halike ⊢
  rcases hrun : (sortRanges (fun a b => cmp (f a) (f b)) (2 * (l.length + 1 + 1) + 1)
      [(0, l.length + 1 + 1)]).run fun i => (a :: b :: l).getD i a with e | ⟨r, t⟩
  · rw [halike.of_error hrun]
    rfl
  · obtain ⟨r', s, hrun', -, rfl⟩ := halike.of_run hrun
    rw [hrun']
    simp only [bind, Except.bind, pure, Except.pure, Except.map, List.map_map]

end Njs.Sorting
