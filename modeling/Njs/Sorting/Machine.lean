import Njs.Lib.Memory
import Njs.Lib.StateExcept

/-!
# `njs_qsort` on memory

The sort as it runs on bytes, with pointers, the stack of ranges in its sixteen slots, and a
comparison that may be any function of the bytes of two elements and of a state of its own. A
pointer that is to no element, a range that does not fit on the stack, and a loop that does not end
are errors of the model.
-/

namespace Njs.Sorting.Machine

open StateExcept

/-! ### Swaps -/

/-- `njs_swap_u8`, `njs_swap_u16`, `njs_swap_u32` and `njs_swap_u64`, for the size of the word. -/
def njsSwapWord (size : ℕ) (m : Memory) (a b : ℕ) : Memory :=
  (m.write a (m.read b size)).write b (m.read a size)

def njsSwapU128 (m : Memory) (a b : ℕ) : Memory :=
  let u := m.read a 8
  let v := m.read (a + 8) 8
  let m := m.write a (m.read b 8)
  let m := m.write (a + 8) (m.read (b + 8) 8)
  (m.write b u).write (b + 8) v

/-- `njs_swap_u128x`, for the number of its passes. -/
def njsSwapU128x : ℕ → Memory → ℕ → ℕ → Memory
  | 0, m, _, _ => m
  | passes + 1, m, a, b => njsSwapU128x passes (njsSwapU128 m a b) (a + 16) (b + 16)

def njsSwapBytes : ℕ → Memory → ℕ → ℕ → Memory
  | 0, m, _, _ => m
  | size + 1, m, a, b => njsSwapBytes size (njsSwapWord 1 m a b) (a + 1) (b + 1)

/-- `njs_choose_swap`, for a size that is not zero. -/
def njsChooseSwap (size : ℕ) (m : Memory) (a b : ℕ) : Memory :=
  if size = 2 then njsSwapWord 2 m a b
  else if size = 4 then njsSwapWord 4 m a b
  else if size = 8 then njsSwapWord 8 m a b
  else if size = 16 then njsSwapU128 m a b
  else if size % 16 = 0 then njsSwapU128x (size / 16) m a b
  else if size = 1 then njsSwapWord 1 m a b
  else njsSwapBytes size m a b

/-! ### The sort -/

/-- The arguments of the sort, with what the comparison makes of its context. -/
structure Arguments (σ : Type) where
  arr : ℕ
  n : ℕ
  esize : ℕ
  cmp : σ → Bytes → Bytes → ℤ × σ

/-- What must not happen: memory is used outside of the array, the stack is full, a loop goes on. -/
inductive Fault
  | outside
  | overflow
  | endless

variable {σ : Type}

abbrev Run (σ β : Type) : Type := Prog (Memory × σ) Fault β

variable (args : Arguments σ)

def IsElement (p : ℕ) : Prop :=
  args.arr ≤ p ∧ p + args.esize ≤ args.arr + args.n * args.esize ∧ (p - args.arr) % args.esize = 0

instance (p : ℕ) : Decidable (IsElement args p) := inferInstanceAs (Decidable (_ ∧ _))

/-- `cmp` of two elements. -/
def cmp (p q : ℕ) : Run σ ℤ :=
  if IsElement args p ∧ IsElement args q then do
    let s ← get
    let r := args.cmp s.2 (s.1.read p args.esize) (s.1.read q args.esize)
    set (s.1, r.2)
    return r.1
  else throw .outside

/-- `swap` of two elements. -/
def swap (p q : ℕ) : Run σ PUnit :=
  if IsElement args p ∧ IsElement args q then
    modify fun s => (njsChooseSwap args.esize s.1 p q, s.2)
  else throw .outside

/-- The greater of `m` and its child `c`, if there is one. -/
def greater (base n m c : ℕ) : Run σ ℕ :=
  if c < n then do
    let r ← cmp args (base + m) (base + c)
    return if r < 0 then c else m
  else return m

/-- `njs_sift_down`. Positions and the length are counted in bytes. -/
def njsSiftDown (base n : ℕ) : ℕ → ℕ → Run σ PUnit
  | 0, _ => throw .endless
  | fuel + 1, i => do
    let c := 2 * i + args.esize
    let m ← greater args base n i c
    let m ← greater args base n m (c + args.esize)
    if m = i then return ⟨⟩
    else
      swap args (base + i) (base + m)
      njsSiftDown base n fuel m

def makeHeap (fuel base n : ℕ) : ℕ → ℕ → Run σ PUnit
  | 0, _ => throw .endless
  | passes + 1, i => do
    njsSiftDown args base n fuel i
    if i = 0 then return ⟨⟩ else makeHeap fuel base n passes (i - args.esize)

/-- The loop that takes the greatest elements from the heap. -/
def popAll (fuel base : ℕ) : ℕ → ℕ → Run σ PUnit
  | 0, _ => throw .endless
  | passes + 1, n =>
    if n > args.esize then do
      swap args base (base + n - args.esize)
      njsSiftDown args base (n - args.esize) fuel 0
      popAll fuel base passes (n - args.esize)
    else return ⟨⟩

def njsHeapsort (fuel base n : ℕ) : Run σ PUnit := do
  makeHeap args fuel base (n * args.esize) fuel (n / 2 * args.esize)
  popAll args fuel base fuel (n * args.esize)

def njsPivot (a b c : ℕ) : Run σ ℕ := do
  if (← cmp args a c) < 0 then
    if (← cmp args b c) < 0 then
      return if (← cmp args a b) < 0 then b else a
    else return c
  else if (← cmp args b a) < 0 then
    return if (← cmp args b c) < 0 then c else b
  else return a

/-- The loop that puts elements before `lt`, leaves them where they are, or puts them after `gt`. -/
def partition : ℕ → ℕ → ℕ → ℕ → Run σ (ℕ × ℕ)
  | 0, _, _, _ => throw .endless
  | fuel + 1, lt, p, gt =>
    if p < gt then do
      let r ← cmp args p lt
      if r ≤ 0 then
        if r < 0 then
          swap args lt p
          partition fuel (lt + args.esize) (p + args.esize) gt
        else partition fuel lt (p + args.esize) gt
      else
        swap args (gt - args.esize) p
        partition fuel lt p (gt - args.esize)
    else return (lt, gt)

/-- The inner loop of the insertion sort. -/
def insert (base : ℕ) : ℕ → ℕ → Run σ PUnit
  | 0, _ => throw .endless
  | fuel + 1, c =>
    if c > base then do
      if (← cmp args c (c - args.esize)) < 0 then
        swap args c (c - args.esize)
        insert base fuel (c - args.esize)
      else return ⟨⟩
    else return ⟨⟩

def insertionSort (fuel base stop : ℕ) : ℕ → ℕ → Run σ PUnit
  | 0, _ => throw .endless
  | passes + 1, p =>
    if p < stop then do
      insert args base fuel p
      insertionSort fuel base stop passes (p + args.esize)
    else return ⟨⟩

/-- `NJS_MAX_DEPTH`. -/
def njsMaxDepth : ℕ := 16

def split (fuel base n stop : ℕ) : Run σ (ℕ × ℕ) := do
  let m4 := n / 4 * args.esize
  let p ← njsPivot args (base + m4) (base + 2 * m4) (base + 3 * m4)
  swap args base p
  partition args fuel base (base + args.esize) stop

/-- `njs_qsort_state_t`. -/
structure QsortState where
  base : ℕ
  elems : ℕ

def push (stack : ℕ → QsortState) (sp : ℕ) (state : QsortState) : ℕ → QsortState :=
  fun i => if i = sp then state else stack i

/-- The loop that takes ranges from the stack, and in it the loop that splits them. In the former
`elems` is none, and in the latter it is the number of elements of the range at hand. -/
def sortLoop (fuel : ℕ) : ℕ → Option (ℕ × ℕ) → (ℕ → QsortState) → ℕ → Run σ PUnit
  | 0, _, _, _ => throw .endless
  | passes + 1, none, stack, sp =>
    if sp > 0 then
      sortLoop fuel passes (some ((stack (sp - 1)).base, (stack (sp - 1)).elems)) stack (sp - 1)
    else return ⟨⟩
  | passes + 1, some (base, n), stack, sp => do
    let stop := base + n * args.esize
    if n > 6 then
      if sp = njsMaxDepth - 1 then
        njsHeapsort args fuel base n
        insertionSort args fuel base base fuel (base + args.esize)
        sortLoop fuel passes none stack sp
      else
        let (lt, gt) ← split args fuel base n stop
        if njsMaxDepth ≤ sp then throw .overflow
        else if lt - base > stop - gt then
          sortLoop fuel passes (some (gt, (stop - gt) / args.esize))
            (push stack sp ⟨base, (lt - base) / args.esize⟩) (sp + 1)
        else
          sortLoop fuel passes (some (base, (lt - base) / args.esize))
            (push stack sp ⟨gt, (stop - gt) / args.esize⟩) (sp + 1)
    else
      insertionSort args fuel base stop fuel (base + args.esize)
      sortLoop fuel passes none stack sp

/-- `njs_qsort`. The slots of the stack are not initialized. -/
def njsQsort (fuel : ℕ) (stack : ℕ → QsortState) : Run σ PUnit :=
  if args.n < 2 then return ⟨⟩
  else sortLoop args fuel fuel none (push stack 0 ⟨args.arr, args.n⟩) 1

/-! ### All bytes are exchanged -/

open Memory

variable {m : Memory} {a b : ℕ}

theorem njsSwapWord_eq {size : ℕ} (h : Apart a b size) :
    njsSwapWord size m a b = m.exchange a b size :=
  write_write_read h

theorem njsSwapU128_eq (h : Apart a b (8 + 8)) : njsSwapU128 m a b = m.exchange a b 16 := by
  obtain rfl | hab := h
  · simp only [njsSwapU128, write_read_self, exchange_self]
  have hfirst := write_write_read (m := m) (show Apart a b 8 from .inr (by omega))
  have hread {p : ℕ} (hp : p = a + 8 ∨ p = b + 8) : (m.exchange a b 8).read p 8 = m.read p 8 :=
    read_congr fun i hi => by rw [exchange, if_neg (by omega), if_neg (by omega)]
  have hread' : (m.write a (m.read b 8)).read (b + 8) 8 = m.read (b + 8) 8 :=
    read_congr fun i hi => write_outside (by rw [length_read]; omega)
  rw [← exchange_exchange (k := 8) (n := 8) (.inr hab),
    ← write_write_read (m := m.exchange a b 8) (.inr (by omega)), hread (.inr rfl),
    hread (.inl rfl), ← hfirst, njsSwapU128]
  rw [hread', write_comm (p := a + 8) (q := b)]
  rw [length_read, length_read]
  omega

theorem njsSwapU128x_eq {passes : ℕ} (h : Apart a b (16 * passes)) :
    njsSwapU128x passes m a b = m.exchange a b (16 * passes) := by
  induction passes generalizing m a b with
  | zero => exact (exchange_zero m a b).symm
  | succ passes ih =>
    rw [show 16 * (passes + 1) = 16 + 16 * passes by omega] at h ⊢
    rw [njsSwapU128x, njsSwapU128_eq h.left, ih h.right, exchange_exchange h]

theorem njsSwapBytes_eq {size : ℕ} (h : Apart a b size) :
    njsSwapBytes size m a b = m.exchange a b size := by
  induction size generalizing m a b with
  | zero => exact (exchange_zero m a b).symm
  | succ size ih =>
    rw [Nat.add_comm] at h
    rw [njsSwapBytes, njsSwapWord_eq h.left, ih h.right, exchange_exchange h, Nat.add_comm]

theorem njsChooseSwap_eq {size : ℕ} (h : Apart a b size) :
    njsChooseSwap size m a b = m.exchange a b size := by
  rw [njsChooseSwap]
  split_ifs with h2 h4 h8 h16 hmany h1
  · rw [← h2, njsSwapWord_eq h]
  · rw [← h4, njsSwapWord_eq h]
  · rw [← h8, njsSwapWord_eq h]
  · subst h16
    exact njsSwapU128_eq h
  · have hsize : 16 * (size / 16) = size := by omega
    rw [njsSwapU128x_eq (by rwa [hsize]), hsize]
  · rw [← h1, njsSwapWord_eq h]
  · exact njsSwapBytes_eq h

end Njs.Sorting.Machine

/-!
## The context of a sort

A comparison has a context that it may change. What each comparison keeps of it, the sort keeps.
-/

namespace Njs.Sorting.Machine

open StateExcept

variable {σ β γ : Type} {args : Arguments σ} {J : σ → Prop}

def KeepsContext (J : σ → Prop) (x : Run σ β) : Prop :=
  ∀ s, J s.2 → Post x s (fun _ t => J t.2) fun _ => True

theorem keepsContext_pure (b : β) : KeepsContext J (pure b : Run σ β) := fun _ hs => post_pure.2 hs

theorem keepsContext_throw (e : Fault) : KeepsContext J (throw e : Run σ β) :=
  fun _ _ => post_throw.2 trivial

theorem KeepsContext.bind {x : Run σ β} {f : β → Run σ γ} (hx : KeepsContext J x)
    (hf : ∀ b, KeepsContext J (f b)) : KeepsContext J (x >>= f) :=
  fun s hs => (hx s hs).bind fun b t ht => hf b t ht

theorem keepsContext_ite {c : Prop} [Decidable c] {x y : Run σ β} (hx : KeepsContext J x)
    (hy : KeepsContext J y) : KeepsContext J (if c then x else y) := by
  split_ifs
  exacts [hx, hy]

theorem keepsContext_swap (p q : ℕ) : KeepsContext J (swap args p q) :=
  keepsContext_ite (fun _ hs => hs) (keepsContext_throw _)

section

variable (hcmp : ∀ s a b, J s → J (args.cmp s a b).2)

include hcmp

theorem keepsContext_cmp (p q : ℕ) : KeepsContext J (cmp args p q) :=
  keepsContext_ite (fun s hs => hcmp s.2 _ _ hs) (keepsContext_throw _)

theorem keepsContext_greater (base n m c : ℕ) : KeepsContext J (greater args base n m c) :=
  keepsContext_ite ((keepsContext_cmp hcmp _ _).bind fun _ => keepsContext_pure _)
    (keepsContext_pure _)

theorem keepsContext_njsSiftDown (base n fuel i : ℕ) :
    KeepsContext J (njsSiftDown args base n fuel i) := by
  induction fuel generalizing i with
  | zero => exact keepsContext_throw _
  | succ fuel ih =>
    refine (keepsContext_greater hcmp _ _ _ _).bind fun m => ?_
    refine (keepsContext_greater hcmp _ _ _ _).bind fun m => ?_
    exact keepsContext_ite (keepsContext_pure _) ((keepsContext_swap _ _).bind fun _ => ih m)

theorem keepsContext_makeHeap (fuel base n passes i : ℕ) :
    KeepsContext J (makeHeap args fuel base n passes i) := by
  induction passes generalizing i with
  | zero => exact keepsContext_throw _
  | succ passes ih =>
    refine (keepsContext_njsSiftDown hcmp _ _ _ _).bind fun _ => ?_
    exact keepsContext_ite (keepsContext_pure _) (ih _)

theorem keepsContext_popAll (fuel base passes n : ℕ) :
    KeepsContext J (popAll args fuel base passes n) := by
  induction passes generalizing n with
  | zero => exact keepsContext_throw _
  | succ passes ih =>
    refine keepsContext_ite ((keepsContext_swap _ _).bind fun _ => ?_) (keepsContext_pure _)
    exact (keepsContext_njsSiftDown hcmp _ _ _ _).bind fun _ => ih _

theorem keepsContext_njsHeapsort (fuel base n : ℕ) : KeepsContext J (njsHeapsort args fuel base n)
    :=
  (keepsContext_makeHeap hcmp _ _ _ _ _).bind fun _ => keepsContext_popAll hcmp _ _ _ _

theorem keepsContext_njsPivot (a b c : ℕ) : KeepsContext J (njsPivot args a b c) := by
  have hcmp := keepsContext_cmp hcmp
  refine (hcmp a c).bind fun _ => keepsContext_ite ?_ ?_
  · refine (hcmp b c).bind fun _ => keepsContext_ite ?_ (keepsContext_pure _)
    exact (hcmp a b).bind fun _ => keepsContext_pure _
  · refine (hcmp b a).bind fun _ => keepsContext_ite ?_ (keepsContext_pure _)
    exact (hcmp b c).bind fun _ => keepsContext_pure _

theorem keepsContext_partition (fuel lt p gt : ℕ) :
    KeepsContext J (partition args fuel lt p gt) := by
  induction fuel generalizing lt p gt with
  | zero => exact keepsContext_throw _
  | succ fuel ih =>
    refine keepsContext_ite ((keepsContext_cmp hcmp _ _).bind fun r => ?_) (keepsContext_pure _)
    refine keepsContext_ite (keepsContext_ite ?_ (ih _ _ _)) ?_
    · exact (keepsContext_swap _ _).bind fun _ => ih _ _ _
    · exact (keepsContext_swap _ _).bind fun _ => ih _ _ _

theorem keepsContext_insert (base fuel c : ℕ) : KeepsContext J (insert args base fuel c) := by
  induction fuel generalizing c with
  | zero => exact keepsContext_throw _
  | succ fuel ih =>
    refine keepsContext_ite ((keepsContext_cmp hcmp _ _).bind fun r => ?_) (keepsContext_pure _)
    exact keepsContext_ite ((keepsContext_swap _ _).bind fun _ => ih _) (keepsContext_pure _)

theorem keepsContext_insertionSort (fuel base stop passes p : ℕ) :
    KeepsContext J (insertionSort args fuel base stop passes p) := by
  induction passes generalizing p with
  | zero => exact keepsContext_throw _
  | succ passes ih =>
    exact keepsContext_ite ((keepsContext_insert hcmp _ _ _).bind fun _ => ih _)
      (keepsContext_pure _)

theorem keepsContext_split (fuel base n stop : ℕ) :
    KeepsContext J (split args fuel base n stop) := by
  refine (keepsContext_njsPivot hcmp _ _ _).bind fun _ => ?_
  exact (keepsContext_swap _ _).bind fun _ => keepsContext_partition hcmp _ _ _ _

theorem keepsContext_sortLoop (fuel passes : ℕ) (range : Option (ℕ × ℕ)) (stack : ℕ → QsortState)
    (sp : ℕ) : KeepsContext J (sortLoop args fuel passes range stack sp) := by
  induction passes generalizing range stack sp with
  | zero => exact keepsContext_throw _
  | succ passes ih =>
    have hinsert := keepsContext_insertionSort hcmp
    obtain _ | ⟨base, n⟩ := range
    · exact keepsContext_ite (ih _ _ _) (keepsContext_pure _)
    refine keepsContext_ite (keepsContext_ite ?_ ?_) ?_
    · refine (keepsContext_njsHeapsort hcmp _ _ _).bind fun _ => ?_
      exact (hinsert _ _ _ _ _).bind fun _ => ih _ _ _
    · refine (keepsContext_split hcmp _ _ _ _).bind fun _ => ?_
      exact keepsContext_ite (keepsContext_throw _) (keepsContext_ite (ih _ _ _) (ih _ _ _))
    · exact (hinsert _ _ _ _ _).bind fun _ => ih _ _ _

theorem keepsContext_njsQsort (fuel : ℕ) (stack : ℕ → QsortState) :
    KeepsContext J (njsQsort args fuel stack) :=
  keepsContext_ite (keepsContext_pure _) (keepsContext_sortLoop hcmp _ _ _ _ _)

end

end Njs.Sorting.Machine
