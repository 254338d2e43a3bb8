import Njs.Sorting.Stable
import Njs.TypedArrays.Elements

/-!
# Sorting of typed arrays

The elements of a typed array are sorted in place, or in a copy if script compares them. The sort is
not stable, and no positions are kept: with more than six elements, those that are equal for a
comparison function may be exchanged.
-/

namespace Njs.TypedArrays

open Buffer (ObjectType TypedArray Heap Thrown njsTypedArrayElementSize uint32Max)
open Sorting (Answer Compares Fails Inserts Program njsQsort sortRanges)
open List (zipIdxLE)

variable {X : Type}

/-! ### The code -/

/-- A comparison function of script, without other effects. -/
abbrev Comparefn (X : Type) : Type := Num → Num → Except X Answer

/-- The argument of the methods. -/
inductive Argument (X : Type) where
  | undefined
  | function (f : Comparefn X)
  | other

/-- What the methods throw. -/
inductive SortError (X : Type) where
  | thrown (e : Thrown)
  | script (x : X)
  deriving DecidableEq

def sign : Answer → ℤ
  | .nan | .zero => 0
  | .positive => 1
  | .negative => -1

/-- `njs_typed_array_generic_compare`. After an exception the code goes on without calls, and what
is sorted is dropped. -/
def njsTypedArrayGenericCompare (get : Bytes → Num) (f : Comparefn X) (a b : Bytes) :
    Except X ℤ := do
  let num ← f (get a) (get b)
  return sign num

def cmpOf (type : ObjectType) : Option (Comparefn X) → Bytes → Bytes → Except X ℤ
  | none => fun a b => .ok (njsTypedArrayComparator type a b)
  | some f => njsTypedArrayGenericCompare (njsTypedArrayGet type) f

/-- The methods from `njs_typed_array_writable` on. -/
def sortWritable (h : Heap) (array : TypedArray) (function : Option (Comparefn X)) :
    Except (SortError X) Unit × Heap :=
  match h.njsTypedArrayWritable array with
  | .error e => (.error (.thrown e), h)
  | .ok (d, h) =>
    let base := chunks (h.block d) array.start (njsTypedArrayElementSize array.type)
      (njsTypedArrayLength array)
    match njsQsort (cmpOf array.type function) base with
    | .error x => (.error (.script x), h)
    | .ok sorted => (.ok (), h.store d ((h.block d).write array.start sorted.flatten))

/-- The methods from the test of the comparison function on. -/
def sortArray (h : Heap) (array : TypedArray) : Argument X → Except (SortError X) Unit × Heap
  | .undefined => sortWritable h array none
  | .function f => sortWritable h array (some f)
  | .other =>
    (.error (.thrown (.typeError "comparefn must be callable or undefined")), h)

def njsTypedArrayPrototypeSort (h : Heap) (array : TypedArray) (comparefn : Argument X) :
    Except (SortError X) Unit × Heap :=
  if (h.buffer array.buffer).data = none then
    (.error (.thrown (.typeError "detached buffer")), h)
  else sortArray h array comparefn

/-- `njs_array_buffer_alloc`, at an address of the allocator, without zeroing. -/
def njsArrayBufferAlloc (h : Heap) (address size : ℕ) : Except Thrown Heap :=
  if uint32Max < size then .error (.rangeError "Invalid array length")
  else .ok
    { h with
      buffer := fun c => if c = address then ⟨some h.fresh, size, false⟩ else h.buffer c
      fresh := h.fresh + 1 }

/-- `njs_typed_array_alloc` for a length, at an address of the allocator, without zeroing. -/
def njsTypedArrayAllocLength (h : Heap) (address length : ℕ) (type : ObjectType) :
    Except Thrown (TypedArray × Heap) := do
  let size := length * njsTypedArrayElementSize type
  let h ← njsArrayBufferAlloc h address size
  return (⟨address, 0, size, type⟩, h)

/-- `njs_typed_array_prototype_sort` for `toSorted`. -/
def njsTypedArrayPrototypeToSorted (h : Heap) (address : ℕ) (self : TypedArray)
    (comparefn : Argument X) : Except (SortError X) TypedArray × Heap :=
  match (h.buffer self.buffer).data with
  | none => (.error (.thrown (.typeError "detached buffer")), h)
  | some d =>
    match njsTypedArrayAllocLength h address (njsTypedArrayLength self) self.type with
    | .error e => (.error (.thrown e), h)
    | .ok (array, h') =>
      let bytes := (h.block d).read self.start self.byteLength
      let (ret, h') := sortArray (h'.store h.fresh ((h'.block h.fresh).write 0 bytes)) array
        comparefn
      (ret.map fun _ => array, h')

/-! ### Comparisons -/

/-- A comparison function answers on some numbers with a total preorder. -/
structure Induces (f : Comparefn X) (le : Num → Num → Bool) (P : Num → Prop) : Prop where
  trans : ∀ x y z, le x y → le y z → le x z
  total : ∀ x y, le x y || le y x
  answers : ∀ x y, P x → P y → ∃ answer, f x y = .ok answer ∧ Agrees le (sign answer) x y

/-- Bytes are compared by a total preorder of their numbers. -/
structure Orders (cmp : Bytes → Bytes → Except X ℤ) (get : Bytes → Num) (le : Num → Num → Bool)
    (P : Num → Prop) : Prop where
  trans : ∀ x y z, le x y → le y z → le x z
  total : ∀ x y, le x y || le y x
  answers : ∀ a b, P (get a) → P (get b) → ∃ r, cmp a b = .ok r ∧ Agrees le r (get a) (get b)

theorem Induces.orders {f : Comparefn X} {le : Num → Num → Bool} {P : Num → Prop}
    (h : Induces f le P) (type : ObjectType) :
    Orders (cmpOf type (some f)) (njsTypedArrayGet type) le P := by
  refine ⟨h.trans, h.total, fun a b ha hb => ?_⟩
  obtain ⟨answer, hf, hagrees⟩ := h.answers _ _ ha hb
  refine ⟨sign answer, ?_, hagrees⟩
  rw [cmpOf, njsTypedArrayGenericCompare, hf]
  rfl

theorem orders_numericLE (type : ObjectType) (P : Num → Prop) :
    Orders (cmpOf (X := X) type none) (njsTypedArrayGet type) numericLE P :=
  ⟨numericLE_trans, numericLE_total,
    fun a b _ _ => ⟨_, rfl, agrees_njsTypedArrayComparator type a b⟩⟩

/-! ### The sort -/

section

variable {cmp : Bytes → Bytes → Except X ℤ} {get : Bytes → Num} {le : Num → Num → Bool}
  {P : Num → Prop} {l : List Bytes}

theorem Orders.not_fails (h : Orders cmp get le P) (hl : ∀ a ∈ l, P (get a)) (x : X) :
    ¬Fails cmp (· ∈ l) x := by
  rintro ⟨a, b, ha, hb, hx⟩
  obtain ⟨r, hr, -⟩ := h.answers a b (hl a ha) (hl b hb)
  exact nomatch hr.symm.trans hx

theorem Orders.agrees (h : Orders cmp get le P) {a b : Bytes} (ha : P (get a)) (hb : P (get b))
    {r : ℤ} (hr : cmp a b = .ok r) : Agrees le r (get a) (get b) := by
  obtain ⟨r', hr', hagrees⟩ := h.answers a b ha hb
  obtain rfl := Except.ok.inj (hr'.symm.trans hr)
  exact hagrees

theorem Orders.compares (h : Orders cmp get le P) (hl : ∀ a ∈ l, P (get a)) :
    Compares cmp (fun a b => le (get a) (get b) = true) (· ∈ l) where
  le_of_nonpos ha hb hr := (h.agrees (hl _ ha) (hl _ hb) hr).1.1
  ge_of_nonneg ha hb hr := (h.agrees (hl _ ha) (hl _ hb) hr).2.1
  trans _ _ _ := h.trans _ _ _
  total _ _ := by simpa using h.total _ _

theorem Orders.inserts (h : Orders cmp get le P) {slots : List (Bytes × ℕ)}
    (hslots : ∀ a ∈ slots, P (get a.1)) :
    Inserts (fun a b => cmp a.1 b.1)
      (fun a b => zipIdxLE (fun a b => le (get a) (get b)) a b = true) (· ∈ slots)
      fun a b => a.2 < b.2 := by
  have htrans : ∀ a b c : Bytes, le (get a) (get b) → le (get b) (get c) → le (get a) (get c) :=
    fun _ _ _ => h.trans _ _ _
  refine ⟨fun {a b r} ha hb hba hr hneg => ?_, fun {a b r} ha hb hba hr hpos => ?_,
    fun _ _ _ => List.zipIdxLE_trans htrans _ _ _⟩
  · obtain ⟨hle, hge⟩ := h.agrees (hslots a ha) (hslots b hb) hr
    exact Sorting.zipIdxLE_iff.2 ⟨hle.1 hneg.le, fun h => absurd (hge.2 h) hneg.not_ge⟩
  · obtain ⟨-, hge⟩ := h.agrees (hslots a ha) (hslots b hb) hr
    exact Sorting.zipIdxLE_iff.2 ⟨hge.1 hpos, fun _ => le_of_lt hba⟩

theorem pairwise_zipIdx {α : Type} (l : List α) : l.zipIdx.Pairwise fun a b => a.2 < b.2 := by
  refine List.pairwise_iff_getElem.2 fun i j hi hj hij => ?_
  rw [List.getElem_zipIdx, List.getElem_zipIdx]
  exact Nat.add_lt_add_left hij 0

theorem njsQsort_few (h : Orders cmp get le P) (hl : ∀ a ∈ l, P (get a)) (hlength : l.length ≤ 6) :
    ∃ l', njsQsort cmp l = .ok l' ∧ l'.Perm l ∧ l'.map get = (l.map get).mergeSort le := by
  have hslots : ∀ a ∈ l.zipIdx, P (get a.1) := fun a ha => hl a.1 (List.fst_mem_of_mem_zipIdx ha)
  have hmap : njsQsort cmp (l.zipIdx.map Prod.fst) =
      (njsQsort (fun a b => cmp a.1 b.1) l.zipIdx).map (List.map Prod.fst) :=
    Sorting.njsQsort_map l.zipIdx
  rw [List.zipIdx_map_fst] at hmap
  have hsorts := (h.inserts hslots).sorts (pairwise_zipIdx l) (by rwa [List.length_zipIdx])
  rw [Sorting.Sorts] at hsorts
  rcases hsort : njsQsort (fun a b => cmp a.1 b.1) l.zipIdx with x | slots
  · rw [hsort] at hsorts
    obtain ⟨a, b, ha, hb, hx⟩ := hsorts
    exact absurd ⟨a.1, b.1, List.fst_mem_of_mem_zipIdx ha, List.fst_mem_of_mem_zipIdx hb, hx⟩
      (h.not_fails hl x)
  rw [hsort] at hsorts
  obtain ⟨hperm, hsorted⟩ := hsorts
  refine ⟨slots.map Prod.fst, by rw [hmap, hsort]; rfl, ?_, ?_⟩
  · have hfst := hperm.map Prod.fst
    rwa [List.zipIdx_map_fst] at hfst
  · have hstable := StableSort.map_fst_eq_mergeSort (fun a b c => h.trans (get a) (get b) (get c))
      (fun a b => h.total (get a) (get b)) (pairwise_zipIdx l) hperm hsorted
    rw [hstable, List.zipIdx_map_fst]
    exact List.map_mergeSort fun _ _ _ _ => rfl

theorem njsQsort_strict (h : Orders cmp get le P) (hl : ∀ a ∈ l, P (get a))
    (hstrict : ∀ x y, P x → P y → le x y → le y x → x = y) :
    ∃ l', njsQsort cmp l = .ok l' ∧ l'.Perm l ∧ l'.map get = (l.map get).mergeSort le := by
  have hsorts := (h.compares hl).sorts
  rw [Sorting.Sorts] at hsorts
  rcases hsort : njsQsort cmp l with x | l'
  · rw [hsort] at hsorts
    exact absurd hsorts (h.not_fails hl x)
  rw [hsort] at hsorts
  obtain ⟨hperm, hsorted⟩ := hsorts
  refine ⟨l', rfl, hperm, ?_⟩
  have hmem : ∀ x ∈ l'.map get, P x := by
    rintro x hx
    obtain ⟨a, ha, rfl⟩ := List.mem_map.1 hx
    exact hl a (hperm.mem_iff.1 ha)
  refine ((hperm.map get).trans (List.mergeSort_perm _ le).symm).eq_of_pairwise ?_
    (List.pairwise_map.2 hsorted) (List.pairwise_mergeSort h.trans h.total _)
  intro x y hx hy hxy hyx
  exact hstrict x y (hmem x hx) (hmem y (((hperm.map get).trans
    (List.mergeSort_perm _ le).symm).mem_iff.2 hy)) hxy hyx

theorem njsQsort_orders (h : Orders cmp get le P) (hl : ∀ a ∈ l, P (get a))
    (hstable : l.length ≤ 6 ∨ ∀ x y, P x → P y → le x y → le y x → x = y) :
    ∃ l', njsQsort cmp l = .ok l' ∧ l'.Perm l ∧ l'.map get = (l.map get).mergeSort le :=
  hstable.elim (njsQsort_few h hl) (njsQsort_strict h hl)

end

/-! ### Elements that are all equal -/

section Ties

variable {α β ε : Type} {cmp : α → α → Except ε ℤ} {m : ℕ → α}

theorem run_compare (h : ∀ i j, cmp (m i) (m j) = .ok 0) (i j : ℕ) (f : ℤ → Program α ε β) :
    (Sorting.compare cmp i j >>= f).run m = (f 0).run m := by
  simp only [Sorting.compare, StateT.run_bind, StateT.run_get, pure_bind, h]
  rfl

theorem run_njsPivot (h : ∀ i j, cmp (m i) (m j) = .ok 0) (a b c : ℕ) (f : ℕ → Program α ε β) :
    (Sorting.njsPivot cmp a b c >>= f).run m = (f a).run m := by
  rw [Sorting.njsPivot, bind_assoc, run_compare h, if_neg (lt_irrefl 0), bind_assoc, run_compare h,
    if_neg (lt_irrefl 0), pure_bind]

theorem run_partition (h : ∀ i j, cmp (m i) (m j) = .ok 0) (lt p unprocessed : ℕ) :
    (Sorting.partition cmp lt p unprocessed).run m = .ok ((lt, p + unprocessed), m) := by
  induction unprocessed generalizing p with
  | zero => rfl
  | succ unprocessed ih =>
    rw [Sorting.partition, run_compare h, if_pos le_rfl, if_neg (lt_irrefl 0), ih, Nat.add_assoc,
      Nat.add_comm 1]

theorem run_split (h : ∀ i j, cmp (m i) (m j) = .ok 0) {base n : ℕ} (hn : 0 < n) :
    (Sorting.split cmp base n).run m =
      .ok ((base, base + n), m ∘ Equiv.swap base (base + n / 4)) := by
  have hlength : base + 1 + (n - 1) = base + n := by omega
  rw [Sorting.split, run_njsPivot h, ← hlength]
  exact run_partition (fun i j => h _ _) base (base + 1) (n - 1)

theorem run_sortRanges_nil (passes : ℕ) : (sortRanges cmp passes []).run m = .ok ((), m) := by
  cases passes <;> rfl

theorem run_sortRanges_empty (passes base : ℕ) (stack : List (ℕ × ℕ)) :
    sortRanges cmp (passes + 1) ((base, 0) :: stack) = sortRanges cmp passes stack := by
  rw [sortRanges, if_neg (by decide)]
  rfl

theorem njsQsort_ties {l : List α} {a : α} (hlength : 6 < l.length)
    (hcmp : ∀ x ∈ l, ∀ y ∈ l, cmp x y = .ok 0) (ha : l.head? = some a) :
    njsQsort cmp l =
      .ok ((List.range l.length).map ((l.getD · a) ∘ Equiv.swap 0 (l.length / 4))) := by
  obtain _ | ⟨x, _ | ⟨y, l⟩⟩ := l
  · exact nomatch ha
  · exact absurd hlength (by simp)
  obtain rfl := Option.some.inj ha
  have hmem := fun i => Sorting.getD_mem (List.mem_cons_self (a := x) (l := y :: l)) i
  have hsplit := @run_split _ _ cmp _ (fun i j => hcmp _ (hmem i) _ (hmem j)) 0
    (x :: y :: l).length (Nat.zero_lt_of_lt hlength)
  rw [Nat.zero_add, Nat.zero_add] at hsplit
  have hranges : (sortRanges cmp (2 * (x :: y :: l).length + 1) [(0, (x :: y :: l).length)]).run
      ((x :: y :: l).getD · x) =
        .ok ((), ((x :: y :: l).getD · x) ∘ Equiv.swap 0 ((x :: y :: l).length / 4)) := by
    generalize (x :: y :: l).length = n at hlength hsplit
    obtain ⟨passes, rfl⟩ : ∃ passes, n = passes + 1 := ⟨n - 1, by omega⟩
    rw [sortRanges, if_pos hlength, if_neg (by decide), StateT.run_bind, hsplit]
    dsimp only [bind, Except.bind]
    rw [Nat.zero_add, Nat.sub_self, Nat.sub_self, if_neg (lt_irrefl 0),
      show 2 * (passes + 1) = 2 * passes + 1 + 1 from rfl, run_sortRanges_empty,
      run_sortRanges_empty, run_sortRanges_nil]
  rw [njsQsort]
  dsimp only
  rw [hranges]
  rfl

end Ties
/-! ### The methods -/

variable {h : Heap} {array : TypedArray} {d : ℕ} {f : Option (Comparefn X)}

/-- A view that is within its array buffer, which is attached. -/
structure Live (h : Heap) (array : TypedArray) : Prop where
  ok : h.Ok
  within : array.Within h
  attached : (h.buffer array.buffer).data ≠ none

/-- Nothing is changed outside of a view. -/
def KeptOutside (h h' : Heap) (array : TypedArray) : Prop :=
  ∀ c i, ¬(c = array.buffer ∧ array.start ≤ i ∧ i < array.start + array.byteLength) →
    h'.get c i = h.get c i

theorem sortWritable_eq (hlive : Live h array) : ∃ e h', Heap.Writable h h' array.buffer e ∧
      elementBytes h' array = elementBytes h array ∧ sortWritable h array f =
        match njsQsort (cmpOf array.type f) (elementBytes h array) with
        | .error x => (.error (.script x), h')
        | .ok sorted => (.ok (), h'.store e ((h'.block e).write array.start sorted.flatten)) := by
  obtain ⟨d, hd⟩ := Option.ne_none_iff_exists'.1 hlive.attached
  obtain ⟨e, h', heq, hwritable⟩ := Heap.njsTypedArrayWritable_of_data hlive.ok hd
  have hbytes : elementBytes h' array = elementBytes h array :=
    elementBytes_congr hlive.within hlive.attached (hwritable.owns.data ▸ Option.some_ne_none e)
      fun i _ _ => hwritable.same _ i
  refine ⟨e, h', hwritable, hbytes, ?_⟩
  rw [sortWritable, heq, ← hbytes, elementBytes_of_data hwritable.owns.data]

theorem sortWritable_error (hlive : Live h array) {x : SortError X}
    (hx : (sortWritable h array f).1 = .error x) :
    Heap.Same h (sortWritable h array f).2 := by
  obtain ⟨e, h', hwritable, -, heq⟩ := sortWritable_eq (f := f) hlive
  rw [heq] at hx ⊢
  cases hsort : njsQsort (cmpOf array.type f) (elementBytes h array) with
  | error x => exact hwritable.same
  | ok sorted =>
    rw [hsort] at hx
    exact nomatch hx

theorem sortWritable_ok (hlive : Live h array) {l : List Bytes}
    (hsort : njsQsort (cmpOf array.type f) (elementBytes h array) = .ok l)
    (hperm : l.Perm (elementBytes h array)) :
    ∃ h', sortWritable h array f = (.ok (), h') ∧ elementBytes h' array = l ∧
      KeptOutside h h' array := by
  obtain ⟨e, h', hwritable, -, heq⟩ := sortWritable_eq (f := f) hlive
  rw [hsort] at heq
  have hlength : l.length = njsTypedArrayLength array := by
    rw [hperm.length_eq, length_elementBytes hlive.attached]
  have hsizes : ∀ a ∈ l, a.length = njsTypedArrayElementSize array.type :=
    fun a ha => length_of_mem_elementBytes (hperm.mem_iff.1 ha)
  have hflatten : l.flatten.length ≤ array.byteLength := by
    rw [length_flatten hsizes, hlength]
    exact length_mul_le array
  have hfits : array.start + l.flatten.length ≤ (h'.buffer array.buffer).size := by
    have := hlive.within.fits hlive.attached
    rw [hwritable.size, TypedArray.start]
    omega
  refine ⟨_, heq, elementBytes_store hwritable.owns.data hlength hsizes, fun c i hout => ?_⟩
  have hchanged := hwritable.same.changed (hwritable.owns.changed hfits) c i
  rwa [if_neg fun h => hout ⟨h.1, h.2.1, by omega⟩] at hchanged

/-- A view with whole elements, and an address that is free for another array buffer. -/
structure Ready (h : Heap) (address : ℕ) (array : TypedArray) : Prop extends Live h array where
  whole : njsTypedArrayElementSize array.type ∣ array.byteLength
  free : (h.buffer address).data = none

/-- A new array buffer has a block of its own, and the others are left as they are. -/
structure Allocated (h h' : Heap) (address size : ℕ) : Prop where
  ok : h'.Ok
  buffer : h'.buffer address = ⟨some h.fresh, size, false⟩
  owns : h'.Owns address h.fresh
  kept : ∀ c ≠ address, h'.buffer c = h.buffer c
  block : h'.block = h.block

theorem njsArrayBufferAlloc_ok (hok : h.Ok) (address : ℕ) {size : ℕ}
    (hsize : (size : ℤ) ≤ uint32Max) :
    ∃ h', njsArrayBufferAlloc h address size = .ok h' ∧ Allocated h h' address size := by
  have hold : ∀ c e, (h.buffer c).data = some e → e ≠ h.fresh :=
    fun c e he => Nat.ne_of_lt (hok.old c e he)
  refine ⟨_, if_neg (not_lt.2 hsize), ⟨⟨fun c e he => ?_, fun b c e hne hb hc => ?_, fun c => ?_⟩,
    if_pos rfl, ⟨?_, fun c hc => ?_⟩, fun c hc => if_neg hc, rfl⟩⟩
  all_goals dsimp only at *
  · split_ifs at he
    · cases he
      exact Nat.lt_succ_self _
    · exact Nat.lt_succ_of_lt (hok.old c e he)
  · split_ifs at hb hc ⊢ with hb' hc'
    · exact absurd (hb'.trans hc'.symm) hne
    · cases hb
      exact absurd rfl (hold c _ hc)
    · cases hc
      exact absurd rfl (hold b _ hb)
    · exact hok.apart b c e hne hb hc
  · split_ifs
    · exact hsize
    · exact hok.size_le c
  · rw [if_pos rfl]
  · rw [if_neg hc]
    exact fun he => hold c _ he rfl

def copyAt (address : ℕ) (self : TypedArray) : TypedArray :=
  ⟨address, 0, self.byteLength, self.type⟩

theorem njsTypedArrayPrototypeToSorted_eq {address : ℕ} (hready : Ready h address array)
    (comparefn : Argument X) : ∃ h', Live h' (copyAt address array) ∧
      elementBytes h' (copyAt address array) = elementBytes h array ∧
      (∀ c ≠ address, ∀ i, h'.get c i = h.get c i) ∧
      njsTypedArrayPrototypeToSorted h address array comparefn =
        ((sortArray h' (copyAt address array) comparefn).1.map fun _ => copyAt address array,
          (sortArray h' (copyAt address array) comparefn).2) := by
  obtain ⟨d, hd⟩ := Option.ne_none_iff_exists'.1 hready.attached
  have hsize : njsTypedArrayLength array * njsTypedArrayElementSize array.type =
      array.byteLength := Nat.div_mul_cancel hready.whole
  obtain ⟨h', halloc, hnew⟩ := njsArrayBufferAlloc_ok hready.ok address hready.within.length_le
  have hbuffer : (h'.buffer (copyAt address array).buffer).data = some h.fresh := by
    rw [copyAt, hnew.buffer]
  have hstart : (copyAt address array).start = 0 := Nat.zero_mul _
  refine ⟨h'.store h.fresh ((h'.block h.fresh).write 0
    ((h.block d).read array.start array.byteLength)), ⟨hnew.ok.store _ _, ⟨fun _ => ?_,
      hready.within.length_le⟩, ?_⟩, ?_, fun c hc i => ?_, ?_⟩
  · change 0 * _ + array.byteLength ≤ (h'.buffer address).size
    rw [Nat.zero_mul, Nat.zero_add, hnew.buffer]
  · exact hbuffer ▸ Option.some_ne_none _
  · have hbuffer' : ((h'.store h.fresh ((h'.block h.fresh).write 0 ((h.block d).read array.start
        array.byteLength))).buffer (copyAt address array).buffer).data = some h.fresh := hbuffer
    rw [elementBytes_of_data hbuffer', elementBytes_of_data hd, hstart, Heap.store]
    refine List.map_congr_left fun i hi => Memory.read_congr fun j hj => ?_
    have hplace : i * njsTypedArrayElementSize array.type + j < array.byteLength := by
      have hi := Nat.mul_le_mul_right (njsTypedArrayElementSize array.type)
        (Nat.succ_le_of_lt (List.mem_range.1 hi))
      have hj : j < njsTypedArrayElementSize array.type := hj
      rw [Nat.succ_mul] at hi
      change _ ≤ njsTypedArrayLength array * _ at hi
      omega
    dsimp only
    rw [if_pos rfl, Nat.zero_add, Nat.add_assoc]
    have hread := Memory.write_add (m := h'.block h.fresh) (p := 0)
      (l := (h.block d).read array.start array.byteLength)
      (i := i * njsTypedArrayElementSize array.type + j) (by rwa [Memory.length_read])
    rwa [Nat.zero_add, Memory.getElem_read] at hread
  · have hc' : (h'.buffer c) = h.buffer c := hnew.kept c hc
    rw [Heap.get, Heap.get, Heap.store, hc']
    rcases hdata : (h.buffer c).data with _ | e
    · rfl
    · have he : e ≠ h.fresh := Nat.ne_of_lt (hready.ok.old c e hdata)
      simp only [Option.bind_some, if_neg he, hnew.block]
  · rw [njsTypedArrayPrototypeToSorted, hd]
    dsimp only
    rw [njsTypedArrayAllocLength, hsize, halloc]
    rfl

/-- The elements are sorted stably in place, and in a copy that leaves the view as it is. -/
structure Sorts (comparefn : Argument X) (le : Num → Num → Bool) (h : Heap) (address : ℕ)
    (array : TypedArray) : Prop where
  sort : ∃ h', njsTypedArrayPrototypeSort h array comparefn = (.ok (), h') ∧
    elements h' array = (elements h array).mergeSort le ∧ KeptOutside h h' array
  toSorted : ∃ copy h', njsTypedArrayPrototypeToSorted h address array comparefn = (.ok copy, h') ∧
    copy.buffer = address ∧ copy.type = array.type ∧
    elements h' copy = (elements h array).mergeSort le ∧ ∀ c ≠ address, ∀ i, h'.get c i = h.get c i

variable {comparefn : Argument X} {le : Num → Num → Bool} {address : ℕ}

theorem njsTypedArrayPrototypeSort_eq (hlive : Live h array) (comparefn : Argument X) :
    njsTypedArrayPrototypeSort h array comparefn = sortArray h array comparefn :=
  if_neg hlive.attached

theorem sorts_of_njsQsort (hready : Ready h address array)
    (harg : ∀ h array, sortArray h array comparefn = sortWritable h array f)
    (hsort : ∃ l, njsQsort (cmpOf array.type f) (elementBytes h array) = .ok l ∧
      l.Perm (elementBytes h array) ∧
      l.map (njsTypedArrayGet array.type) = (elements h array).mergeSort le) :
    Sorts comparefn le h address array := by
  obtain ⟨l, hsort, hperm, hl⟩ := hsort
  constructor
  · obtain ⟨h', heq, hbytes, hkept⟩ := sortWritable_ok hready.toLive hsort hperm
    refine ⟨h', ?_, ?_, hkept⟩
    · rw [njsTypedArrayPrototypeSort_eq hready.toLive, harg, heq]
    · rw [elements, hbytes, hl]
  obtain ⟨h₁, hlive, hcopy, hkept₁, heq₁⟩ := njsTypedArrayPrototypeToSorted_eq hready comparefn
  obtain ⟨h', heq, hbytes, hkept⟩ := sortWritable_ok (f := f) hlive (hcopy ▸ hsort) (hcopy ▸ hperm)
  refine ⟨copyAt address array, h', ?_, rfl, rfl, ?_, fun c hc i => ?_⟩
  · rw [heq₁, harg, heq]
    rfl
  · rw [elements, hbytes]
    exact hl
  · rw [hkept c i fun h => hc h.1, hkept₁ c hc i]

def IsValue (type : ObjectType) (x : Num) : Prop :=
  ∃ l : Bytes, l.length = njsTypedArrayElementSize type ∧ njsTypedArrayGet type l = x

theorem isValue_of_mem {l : Bytes} (hl : l ∈ elementBytes h array) :
    IsValue array.type (njsTypedArrayGet array.type l) :=
  ⟨l, length_of_mem_elementBytes hl, rfl⟩

theorem sorts_undefined (hready : Ready h address array) :
    Sorts (.undefined : Argument X) numericLE h address array :=
  sorts_of_njsQsort (f := none) hready (fun _ _ => rfl)
    (njsQsort_strict (orders_numericLE array.type (IsValue array.type))
      (fun _ => isValue_of_mem) fun _ _ _ _ => numericLE_antisymm)

theorem sorts_function {f : Comparefn X} (hready : Ready h address array)
    (hf : Induces f le (IsValue array.type))
    (hstable : njsTypedArrayLength array ≤ 6 ∨
      ∀ x y, IsValue array.type x → IsValue array.type y → le x y → le y x → x = y) :
    Sorts (.function f) le h address array := by
  refine sorts_of_njsQsort (f := some f) hready (fun _ _ => rfl)
    (njsQsort_orders (hf.orders array.type) (fun _ => isValue_of_mem) ?_)
  rwa [length_elementBytes hready.attached]

/-! ### Elements that are exchanged -/

theorem elementSize_pos (type : ObjectType) : 0 < njsTypedArrayElementSize type := by
  cases type <;> decide

def heapOf (l : Bytes) : Heap where
  block _ := Memory.write (fun _ => 0) 0 l
  buffer b := if b = 0 then ⟨some 0, l.length, false⟩ else ⟨none, 0, false⟩
  fresh := 1

def arrayOf (type : ObjectType) (l : Bytes) : TypedArray := ⟨0, 0, l.length, type⟩

variable {type : ObjectType}

theorem ready_heapOf {l : Bytes} (hl : (l.length : ℤ) ≤ uint32Max)
    (hwhole : njsTypedArrayElementSize type ∣ l.length) : Ready (heapOf l) 1 (arrayOf type l) := by
  have hdata : ∀ b d, ((heapOf l).buffer b).data = some d → b = 0 ∧ d = 0 := by
    intro b d h
    by_cases hb : b = 0
    · subst hb
      cases h
      exact ⟨rfl, rfl⟩
    · rw [show (heapOf l).buffer b = ⟨none, 0, false⟩ from if_neg hb] at h
      cases h
  refine ⟨⟨⟨fun b d h => ?_, fun b c d hne hb hc => ?_, fun b => ?_⟩, ⟨fun _ => ?_, hl⟩,
    Option.some_ne_none 0⟩, hwhole, rfl⟩
  · rw [(hdata b d h).2]
    exact Nat.one_pos
  · exact absurd ((hdata b d hb).1.trans (hdata c d hc).1.symm) hne
  · rw [heapOf]
    dsimp only
    split_ifs
    · exact hl
    · decide
  · change 0 * _ + l.length ≤ l.length
    rw [Nat.zero_mul, Nat.zero_add]

theorem elementBytes_heapOf {ls : List Bytes}
    (hls : ∀ l ∈ ls, l.length = njsTypedArrayElementSize type) :
    elementBytes (heapOf ls.flatten) (arrayOf type ls.flatten) = ls := by
  have hdata : ((heapOf ls.flatten).buffer (arrayOf type ls.flatten).buffer).data = some 0 := rfl
  have hlength : njsTypedArrayLength (arrayOf type ls.flatten) = ls.length := by
    change ls.flatten.length / njsTypedArrayElementSize type = _
    rw [length_flatten hls, Nat.mul_div_cancel _ (elementSize_pos type)]
  have hstart : (arrayOf type ls.flatten).start = 0 := Nat.zero_mul _
  rw [elementBytes_of_data hdata, hlength, hstart]
  exact chunks_write _ 0 hls

theorem not_sorts_ties {type : ObjectType} {f : Comparefn X} (hf : Induces f le (IsValue type))
    {n : ℕ} (hn : 6 < n) (hsize : (n * njsTypedArrayElementSize type : ℤ) ≤ uint32Max)
    {a b : Bytes} (ha : a.length = njsTypedArrayElementSize type)
    (hb : b.length = njsTypedArrayElementSize type)
    (hne : njsTypedArrayGet type a ≠ njsTypedArrayGet type b)
    (hab : le (njsTypedArrayGet type a) (njsTypedArrayGet type b))
    (hba : le (njsTypedArrayGet type b) (njsTypedArrayGet type a)) :
    ¬Sorts (.function f) le (heapOf (a :: List.replicate (n - 1) b).flatten) 1
      (arrayOf type (a :: List.replicate (n - 1) b).flatten) := by
  intro hsorts
  set ls := a :: List.replicate (n - 1) b with hls
  have hlength : ls.length = n := by
    rw [hls, List.length_cons, List.length_replicate]
    omega
  have hmem : ∀ l ∈ ls, l = a ∨ l = b := fun l hl =>
    (List.mem_cons.1 hl).imp_right List.eq_of_mem_replicate
  have hsizes : ∀ l ∈ ls, l.length = njsTypedArrayElementSize type := fun l hl =>
    (hmem l hl).elim (fun h => h ▸ ha) fun h => h ▸ hb
  have hties : ∀ x ∈ ls, ∀ y ∈ ls, le (njsTypedArrayGet type x) (njsTypedArrayGet type y) := by
    have haa : ∀ x, le x x = true := fun x => by simpa using hf.total x x
    rintro x hx y hy
    obtain rfl | rfl := hmem x hx <;> obtain rfl | rfl := hmem y hy
    exacts [haa _, hab, hba, haa _]
  have horders := hf.orders type
  have hvalues : ∀ l ∈ ls, IsValue type (njsTypedArrayGet type l) := fun l hl =>
    ⟨l, hsizes l hl, rfl⟩
  -- all comparisons are zero, so that two elements are exchanged
  have hcmp : ∀ x ∈ ls, ∀ y ∈ ls, cmpOf type (some f) x y = .ok 0 := by
    intro x hx y hy
    obtain ⟨r, hr, hle, hge⟩ := horders.answers x y (hvalues x hx) (hvalues y hy)
    rw [hr, le_antisymm (hle.2 (hties x hx y hy)) (hge.2 (hties y hy x hx))]
  obtain ⟨sorted, hqsort, hfirst⟩ : ∃ sorted, njsQsort (cmpOf type (some f)) ls = .ok sorted ∧
      sorted.head? = some b := by
    refine ⟨_, njsQsort_ties (a := a) (by rwa [hlength]) hcmp rfl, ?_⟩
    obtain ⟨k, hk⟩ : ∃ k, ls.length / 4 = k + 1 := ⟨n / 4 - 1, by rw [hlength]; omega⟩
    have hget : ls.getD (k + 1) a = b := by
      rw [hls, List.getD_cons_succ,
        List.getD_eq_getElem _ _ (by rw [List.length_replicate]; omega), List.getElem_replicate]
    rw [hk, hls, List.length_cons, List.range_succ_eq_map, List.map_cons, List.head?_cons, ← hls,
      Function.comp_apply, Equiv.swap_apply_left, hget]
  have hperm := (horders.compares hvalues).sorts
  rw [Sorting.Sorts, hqsort] at hperm
  have hbytes := elementBytes_heapOf hsizes
  have hready : Ready (heapOf ls.flatten) 1 (arrayOf type ls.flatten) := by
    refine ready_heapOf ?_ ?_
    · rw [length_flatten hsizes, hlength]
      exact_mod_cast hsize
    · rw [length_flatten hsizes]
      exact Nat.dvd_mul_left _ _
  obtain ⟨h', heq, hbytes', -⟩ := sortWritable_ok (f := some f) hready.toLive
    (by rw [hbytes]; exact hqsort)
    (by rw [hbytes]; exact hperm.1)
  obtain ⟨h'', heq', helements, -⟩ := hsorts.sort
  rw [njsTypedArrayPrototypeSort_eq hready.toLive] at heq'
  obtain rfl : h' = h'' := (Prod.mk.inj (heq.symm.trans heq')).2
  -- the stable order is the one of before
  have hstable : (elements (heapOf ls.flatten) (arrayOf type ls.flatten)).mergeSort le =
      ls.map (njsTypedArrayGet type) := by
    rw [elements, hbytes]
    refine List.mergeSort_of_pairwise (List.pairwise_map.2 ?_)
    exact List.pairwise_of_forall_mem_list hties
  rw [hstable, elements, hbytes'] at helements
  have hhead := congrArg List.head? helements
  rw [List.head?_map, hfirst, hls, List.map_cons, List.head?_cons] at hhead
  exact hne (Option.some.inj hhead).symm

theorem sorts_iff {n : ℕ} {f : Comparefn X} (hf : Induces f le (IsValue type))
    (hsize : (n * njsTypedArrayElementSize type : ℤ) ≤ uint32Max) :
    (∀ h address array, Ready h address array → array.type = type → njsTypedArrayLength array = n →
      Sorts (.function f) le h address array) ↔
    n ≤ 6 ∨ ∀ x y, IsValue type x → IsValue type y → le x y → le y x → x = y := by
  constructor
  · intro hsorts
    by_contra hnot
    obtain ⟨hn, hties⟩ := not_or.1 hnot
    refine hties fun x y hx hy hxy hyx => ?_
    by_contra hne
    obtain ⟨a, ha, rfl⟩ := hx
    obtain ⟨b, hb, rfl⟩ := hy
    have hn : 6 < n := Nat.lt_of_not_le hn
    have hsizes : ∀ l ∈ a :: List.replicate (n - 1) b, l.length = njsTypedArrayElementSize type
      := by
      intro l hl
      obtain rfl | hl := List.mem_cons.1 hl
      · exact ha
      · exact (List.eq_of_mem_replicate hl).symm ▸ hb
    have hlength : (a :: List.replicate (n - 1) b).length = n := by
      rw [List.length_cons, List.length_replicate]
      omega
    have hflatten := length_flatten hsizes
    rw [hlength] at hflatten
    refine not_sorts_ties hf hn hsize ha hb hne hxy hyx (hsorts _ _ _ (ready_heapOf ?_ ?_) rfl ?_)
    · rw [hflatten]
      exact_mod_cast hsize
    · rw [hflatten]
      exact Nat.dvd_mul_left _ _
    · rw [njsTypedArrayLength, arrayOf, hflatten]
      exact Nat.mul_div_cancel _ (elementSize_pos type)
  · rintro hstable h address array hready rfl rfl
    exact sorts_function hready hf hstable

/-! ### Exceptions -/

theorem sortArray_error (hlive : Live h array) {x : SortError X}
    (hx : (sortArray h array comparefn).1 = .error x) :
    Heap.Same h (sortArray h array comparefn).2 := by
  cases comparefn with
  | undefined => exact sortWritable_error hlive hx
  | function f => exact sortWritable_error hlive hx
  | other => exact Heap.same_refl h

/-- A method that throws changes no byte that there was. -/
structure Keeps (comparefn : Argument X) (h : Heap) (address : ℕ) (array : TypedArray) : Prop where
  sort : ∀ x, (njsTypedArrayPrototypeSort h array comparefn).1 = .error x →
    Heap.Same h (njsTypedArrayPrototypeSort h array comparefn).2
  toSorted : ∀ x, (njsTypedArrayPrototypeToSorted h address array comparefn).1 = .error x →
    ∀ c ≠ address, ∀ i,
      (njsTypedArrayPrototypeToSorted h address array comparefn).2.get c i = h.get c i

theorem keeps (hready : Ready h address array) (comparefn : Argument X) :
    Keeps comparefn h address array := by
  constructor
  · intro x hx
    rw [njsTypedArrayPrototypeSort_eq hready.toLive] at hx ⊢
    exact sortArray_error hready.toLive hx
  intro x hx c hc i
  obtain ⟨h', hlive, -, hkept, heq⟩ := njsTypedArrayPrototypeToSorted_eq hready comparefn
  rw [heq] at hx ⊢
  cases hsort : (sortArray h' (copyAt address array) comparefn).1 with
  | error e => exact (sortArray_error hlive hsort c i).trans (hkept c hc i)
  | ok r =>
    rw [hsort] at hx
    exact nomatch hx

/-- With a comparison function of script, the views of a type and a length are sorted stably, just
when there are few elements or no ties between different values; without one, all views are sorted
as numbers; and a method that throws changes nothing. -/
theorem typedArrays_sorted :
    (∀ (type : ObjectType) (n : ℕ) (f : Comparefn X) (le : Num → Num → Bool),
      Induces f le (IsValue type) → (n * njsTypedArrayElementSize type : ℤ) ≤ uint32Max →
      ((∀ h address array, Ready h address array → array.type = type →
          njsTypedArrayLength array = n → Sorts (.function f) le h address array) ↔
        n ≤ 6 ∨ ∀ x y, IsValue type x → IsValue type y → le x y → le y x → x = y)) ∧
    ∀ (h : Heap) (address : ℕ) (array : TypedArray), Ready h address array →
      Sorts (.undefined : Argument X) numericLE h address array ∧
      ∀ comparefn : Argument X, Keeps comparefn h address array :=
  ⟨fun _ _ _ _ hf hsize => sorts_iff hf hsize,
    fun _ _ _ hready => ⟨sorts_undefined hready, keeps hready⟩⟩

theorem induces_zero (P : Num → Prop) :
    Induces (fun _ _ => .ok .zero : Comparefn Empty) (fun _ _ => true) P :=
  ⟨fun _ _ _ _ _ => rfl, fun _ _ => rfl,
    fun _ _ _ _ => ⟨.zero, rfl, iff_of_true le_rfl rfl, iff_of_true le_rfl rfl⟩⟩

/-- Seven bytes, of which the first one is exchanged with another one. -/
theorem not_sorts_seven : ¬∀ (f : Comparefn Empty) (le : Num → Num → Bool) (h : Heap) (address : ℕ)
    (array : TypedArray), Induces f le (IsValue array.type) → Ready h address array →
      Sorts (.function f) le h address array := by
  intro hsorts
  have hne : njsTypedArrayGet .uint8Array [0] ≠ njsTypedArrayGet .uint8Array [1] := by decide
  refine not_sorts_ties (a := [0]) (b := [1]) (n := 7) (induces_zero (IsValue .uint8Array))
    (by decide) (by decide) rfl rfl hne rfl rfl (hsorts _ _ _ _ _ (induces_zero _) ?_)
  exact ready_heapOf (by decide) (by decide)

end Njs.TypedArrays
