import Njs.Sorting.Correct
import Njs.Sorting.Safety

/-!
# `njs_qsort` sorts

If the comparison is that of a total preorder, the sort on memory does what the sort of elements
does.
-/

namespace Njs.Sorting.Machine

open StateExcept Rearrange Memory

variable {σ : Type} {args : Arguments σ} {le : Bytes → Bytes → Prop} {P : Bytes → Prop}

/-! ### The comparison -/

/-- Whatever the context is, the answers for elements in `P` say how a total preorder has them. -/
structure Orders (args : Arguments σ) (le : Bytes → Bytes → Prop) (P : Bytes → Prop) : Prop where
  le_iff : ∀ s a b, P a → P b → ((args.cmp s a b).1 ≤ 0 ↔ le a b)
  ge_iff : ∀ s a b, P a → P b → (0 ≤ (args.cmp s a b).1 ↔ le b a)
  trans : ∀ a b c, P a → P b → P c → le a b → le b c → le a c
  total : ∀ a b, P a → P b → le a b ∨ le b a

open Classical in
noncomputable def answer (le : Bytes → Bytes → Prop) (a b : Bytes) : ℤ :=
  if le a b then if le b a then 0 else -1 else 1

/-- A comparison that has no context. -/
noncomputable abbrev plain (le : Bytes → Bytes → Prop) (a b : Bytes) : Except Fault ℤ :=
  .ok (answer le a b)

theorem answer_iff {a b : Bytes} (htotal : le a b ∨ le b a) :
    (answer le a b ≤ 0 ↔ le a b) ∧ (0 ≤ answer le a b ↔ le b a) := by
  rw [answer]
  split_ifs with hab hba
  · exact ⟨iff_of_true (Int.le_refl 0) hab, iff_of_true (Int.le_refl 0) hba⟩
  · exact ⟨iff_of_true (by decide) hab, iff_of_false (by decide) hba⟩
  · exact ⟨iff_of_false (by decide) hab, iff_of_true (by decide) (htotal.resolve_left hab)⟩

theorem Orders.compares (h : Orders args le P) : Compares (plain le) le P where
  le_of_nonpos := by
    rintro a b _ ha hb ⟨⟩
    exact (answer_iff (h.total a b ha hb)).1.1
  ge_of_nonneg := by
    rintro a b _ ha hb ⟨⟩
    exact (answer_iff (h.total a b ha hb)).2.1
  trans ha hb hc := h.trans _ _ _ ha hb hc
  total ha hb := h.total _ _ ha hb

/-! ### Elements in memory -/

/-- The elements in memory, up to the length of the array. -/
def Shows (args : Arguments σ) (P : Bytes → Prop) (s : Memory × σ) (e : ℕ → Bytes) : Prop :=
  (∀ i < args.n, e i = elements args s.1 i) ∧ ∀ i, P (e i)

/-- Answers that the sort does not tell apart. -/
def SameSign (r r' : ℤ) : Prop := (r ≤ 0 ↔ r' ≤ 0) ∧ (0 ≤ r ↔ 0 ≤ r')

theorem SameSign.neg_iff {r r' : ℤ} (h : SameSign r r') : r < 0 ↔ r' < 0 := by
  rw [SameSign] at h
  omega

theorem place_le_iff (hesize : 0 < args.esize) {i j : ℕ} : place args i ≤ place args j ↔ i ≤ j := by
  rw [← not_lt, ← not_lt, place_lt_place hesize]

theorem lt_of_isElement (hesize : 0 < args.esize) {i : ℕ} (h : IsElement args (place args i)) :
    i < args.n := by
  have hend := h.2.1
  rw [place_succ] at hend
  exact (place_le_iff hesize).1 hend

variable {s : Memory × σ} {e : ℕ → Bytes}

section

variable (hesize : 0 < args.esize) (horders : Orders args le P)

include hesize

theorem leads_cmp (horders : Orders args le P) (h : Shows args P s e) (i j : ℕ) :
    Leads (Shows args P) SameSign (cmp args (place args i) (place args j))
      (compare (plain le) i j) s e := by
  rw [cmp]
  split_ifs with hplaces
  · have hi := lt_of_isElement hesize hplaces.1
    have hj := lt_of_isElement hesize hplaces.2
    rintro _ _ ⟨⟩
    refine ⟨answer le (e i) (e j), e, rfl, ?_, h⟩
    have hanswer := answer_iff (horders.total _ _ (h.2 i) (h.2 j))
    rw [SameSign, hanswer.1, hanswer.2, ← elements, ← elements, ← h.1 i hi, ← h.1 j hj]
    exact ⟨horders.le_iff _ _ _ (h.2 i) (h.2 j), horders.ge_iff _ _ _ (h.2 i) (h.2 j)⟩
  · exact leads_throw

theorem leads_swap (h : Shows args P s e) (i j : ℕ) :
    Leads (Shows args P) (fun _ _ => True) (swap args (place args i) (place args j))
      (Sorting.swap i j : Program Bytes Fault PUnit) s e := by
  rw [swap]
  split_ifs with hplaces
  · have hi := lt_of_isElement hesize hplaces.1
    have hj := lt_of_isElement hesize hplaces.2
    rintro _ _ ⟨⟩
    refine ⟨⟨⟩, e ∘ Equiv.swap i j, rfl, trivial, fun k hk => ?_, fun k => h.2 _⟩
    have hapart : Apart (place args i) (place args j) args.esize := by
      by_cases hij : i = j
      · exact .inl (congrArg _ hij)
      · exact .inr (apart_place _ hij)
    dsimp only
    rw [njsChooseSwap_eq hapart, elements_exchange, Function.comp_apply, Function.comp_apply]
    refine h.1 _ ?_
    rw [Equiv.swap_apply_def]
    split_ifs
    · exact hj
    · exact hi
    · exact hk
  · exact leads_throw

/-! ### The heapsort -/

include horders

theorem leads_greater (h : Shows args P s e) (b n k c : ℕ) :
    Leads (Shows args P) (fun g g' => g = g' * args.esize ∧ (g' = k ∨ g' = c))
      (greater args (place args b) (n * args.esize) (k * args.esize) (c * args.esize))
      (Sorting.greater (plain le) b n k c) s e := by
  rw [greater, Sorting.greater, place_add, place_add]
  refine leads_ite (mul_lt_mul_esize hesize) (fun _ _ => ?_) fun _ _ =>
    leads_pure ⟨rfl, .inl rfl⟩ h
  refine (leads_cmp hesize horders h _ _).bind fun r r' s e hr h => leads_pure ?_ h
  by_cases hneg : r < 0
  · rw [if_pos hneg, if_pos (hr.neg_iff.1 hneg)]
    exact ⟨rfl, .inr rfl⟩
  · rw [if_neg hneg, if_neg fun hneg' => hneg (hr.neg_iff.2 hneg')]
    exact ⟨rfl, .inl rfl⟩

variable {b n fuel passes : ℕ}

theorem leads_njsSiftDown (h : Shows args P s e) (fuel passes : ℕ) {i : ℕ}
    (hpasses : n ≤ i + passes) :
    Leads (Shows args P) (fun _ _ => True)
      (njsSiftDown args (place args b) (n * args.esize) fuel (i * args.esize))
      (Sorting.njsSiftDown (plain le) b n passes i) s e := by
  induction fuel generalizing passes i s e with
  | zero => exact leads_throw
  | succ fuel ih =>
    have hc : 2 * (i * args.esize) + args.esize = (2 * i + 1) * args.esize := by ring
    have hc' : (2 * i + 1) * args.esize + args.esize = (2 * i + 2) * args.esize := by ring
    have hnone {c : ℕ} (hi : n ≤ i) (hc : i ≤ c) :
        greater args (place args b) (n * args.esize) (i * args.esize) (c * args.esize) =
          pure (i * args.esize) :=
      if_neg fun hlt => by
        have hlt := (mul_lt_mul_esize hesize).1 hlt
        omega
    rw [njsSiftDown, hc, hc']
    obtain _ | passes := passes
    · rw [hnone (by omega) (by omega), pure_bind, hnone (by omega) (by omega), pure_bind, if_pos rfl]
      exact leads_pure trivial h
    rw [Sorting.njsSiftDown]
    refine (leads_greater hesize horders h b n i (2 * i + 1)).bind ?_
    rintro _ g s e ⟨rfl, hg⟩ h
    refine (leads_greater hesize horders h b n g (2 * i + 2)).bind ?_
    rintro _ k s e ⟨rfl, hk⟩ h
    rw [place_add, place_add]
    refine leads_ite ⟨Nat.eq_of_mul_eq_mul_right hesize, fun hk => hk ▸ rfl⟩
      (fun _ _ => leads_pure trivial h) fun _ hne => ?_
    exact (leads_swap hesize h _ _).bind fun _ _ s e _ h => ih h _ (by omega)

theorem leads_makeHeap (h : Shows args P s e) {i : ℕ} : Leads (Shows args P) (fun _ _ => True)
      (makeHeap args fuel (place args b) (n * args.esize) passes (i * args.esize))
      (forM (List.range (i + 1)).reverse fun i => Sorting.njsSiftDown (plain le) b n n i) s e := by
  induction passes generalizing i s e with
  | zero => exact leads_throw
  | succ passes ih =>
    rw [makeHeap, List.range_succ, List.reverse_append, List.reverse_singleton,
      List.singleton_append, List.forM_cons]
    refine (leads_njsSiftDown hesize horders h _ _ (by omega)).bind fun _ _ s e _ h => ?_
    obtain _ | i := i
    · rw [if_pos (Nat.zero_mul _)]
      exact leads_pure trivial h
    · rw [if_neg (Nat.mul_ne_zero (Nat.succ_ne_zero i) (Nat.ne_of_gt hesize)), Nat.succ_mul,
        Nat.add_sub_cancel]
      exact ih h

theorem leads_popAll (h : Shows args P s e) : Leads (Shows args P) (fun _ _ => True)
      (popAll args fuel (place args b) passes (n * args.esize))
      (Sorting.popAll (plain le) b n) s e := by
  induction passes generalizing n s e with
  | zero => exact leads_throw
  | succ passes ih =>
    have hlong : n * args.esize > args.esize ↔ 1 < n := by
      have hone : 1 * args.esize < n * args.esize ↔ 1 < n := mul_lt_mul_esize hesize
      rwa [Nat.one_mul] at hone
    rw [popAll]
    obtain _ | _ | n := n
    · rw [if_neg fun hgt => absurd (hlong.1 hgt) (by omega)]
      exact leads_pure trivial h
    · rw [if_neg fun hgt => absurd (hlong.1 hgt) (by omega)]
      exact leads_pure trivial h
    have hsub : (n + 1 + 1) * args.esize - args.esize = (n + 1) * args.esize := by
      rw [Nat.succ_mul, Nat.add_sub_cancel]
    rw [if_pos (hlong.2 (by omega)), place_add, place_sub (by omega), hsub, Sorting.popAll]
    refine (leads_swap hesize h _ _).bind fun _ _ s e _ h => ?_
    have hsift := leads_njsSiftDown hesize horders h fuel (n + 1) (b := b) (n := n + 1) (i := 0)
      (by omega)
    rw [Nat.zero_mul] at hsift
    exact hsift.bind fun _ _ s e _ h => ih h

theorem leads_njsHeapsort (h : Shows args P s e) :
    Leads (Shows args P) (fun _ _ => True) (njsHeapsort args fuel (place args b) n)
      (Sorting.njsHeapsort (plain le) b n) s e := by
  rw [njsHeapsort, Sorting.njsHeapsort]
  exact (leads_makeHeap hesize horders h).bind fun _ _ s e _ h => leads_popAll hesize horders h

/-! ### The quicksort -/

theorem leads_njsPivot (h : Shows args P s e) (i j k : ℕ) :
    Leads (Shows args P) (fun p p' => p = place args p')
      (njsPivot args (place args i) (place args j) (place args k))
      (Sorting.njsPivot (plain le) i j k) s e := by
  have hlast {s : Memory × σ} {e : ℕ → Bytes} (h : Shows args P s e) (i j k l : ℕ) :
      Leads (Shows args P) (fun p p' => p = place args p')
        (do
          let r ← cmp args (place args i) (place args j)
          return if r < 0 then place args k else place args l)
        (do
          let r ← compare (plain le) i j
          return if r < 0 then k else l) s e := by
    refine (leads_cmp hesize horders h _ _).bind fun r r' s e hr h => leads_pure ?_ h
    by_cases hneg : r < 0
    · rw [if_pos hneg, if_pos (hr.neg_iff.1 hneg)]
    · rw [if_neg hneg, if_neg fun hneg' => hneg (hr.neg_iff.2 hneg')]
  rw [njsPivot, Sorting.njsPivot]
  refine (leads_cmp hesize horders h _ _).bind fun r r' s e hr h =>
    leads_ite hr.neg_iff (fun _ _ => ?_) fun _ _ => ?_
  · exact (leads_cmp hesize horders h _ _).bind fun r r' s e hr h =>
      leads_ite hr.neg_iff (fun _ _ => hlast h i j j i) fun _ _ => leads_pure rfl h
  · exact (leads_cmp hesize horders h _ _).bind fun r r' s e hr h =>
      leads_ite hr.neg_iff (fun _ _ => hlast h j k k j) fun _ _ => leads_pure rfl h

theorem leads_partition (h : Shows args P s e) {l k unprocessed : ℕ} :
    Leads (Shows args P) (fun r r' => r = (place args r'.1, place args r'.2))
      (partition args fuel (place args l) (place args k) (place args (k + unprocessed)))
      (Sorting.partition (plain le) l k unprocessed) s e := by
  induction fuel generalizing l k unprocessed s e with
  | zero => exact leads_throw
  | succ fuel ih =>
    rw [partition]
    obtain _ | unprocessed := unprocessed
    · rw [if_neg fun hlt => absurd ((place_lt_place hesize).1 hlt) (by omega)]
      exact leads_pure rfl h
    rw [if_pos ((place_lt_place hesize).2 (by omega)), Sorting.partition, place_succ, place_succ,
      place_sub (by omega), show k + (unprocessed + 1) - 1 = k + unprocessed by omega]
    refine (leads_cmp hesize horders h _ _).bind fun r r' s e hr h =>
      leads_ite hr.1 (fun _ _ => leads_ite hr.neg_iff (fun _ _ => ?_) fun _ _ => ?_) fun _ _ => ?_
    · refine (leads_swap hesize h _ _).bind fun _ _ s e _ h => ?_
      rw [show k + (unprocessed + 1) = k + 1 + unprocessed by omega]
      exact ih h
    · rw [show k + (unprocessed + 1) = k + 1 + unprocessed by omega]
      exact ih h
    · exact (leads_swap hesize h _ _).bind fun _ _ s e _ h => ih h

theorem leads_split (h : Shows args P s e) (hn : 0 < n) :
    Leads (Shows args P) (fun r r' => r = (place args r'.1, place args r'.2))
      (split args fuel (place args b) n (place args (b + n)))
      (Sorting.split (plain le) b n) s e := by
  have hquarter (c : ℕ) : place args b + c * (n / 4 * args.esize) =
      place args (b + c * (n / 4)) := by
    rw [← Nat.mul_assoc, place_add]
  have hone := hquarter 1
  rw [Nat.one_mul] at hone
  rw [split, Sorting.split, hone, hquarter, hquarter, place_succ, Nat.one_mul]
  refine (leads_njsPivot hesize horders h _ _ _).bind ?_
  rintro _ p s e rfl h
  refine (leads_swap hesize h _ _).bind fun _ _ s e _ h => ?_
  rw [show b + n = b + 1 + (n - 1) by omega]
  exact leads_partition hesize horders h

theorem leads_insert (h : Shows args P s e) {c : ℕ} :
    Leads (Shows args P) (fun _ _ => True) (insert args (place args b) fuel (place args (b + c)))
      (Sorting.insert (plain le) b c) s e := by
  induction fuel generalizing c s e with
  | zero => exact leads_throw
  | succ fuel ih =>
    rw [insert]
    obtain _ | c := c
    · rw [if_neg fun hlt => absurd ((place_lt_place hesize).1 hlt) (by omega)]
      exact leads_pure trivial h
    · rw [if_pos ((place_lt_place hesize).2 (by omega)), Sorting.insert, place_sub (by omega)]
      refine (leads_cmp hesize horders h _ _).bind fun r r' s e hr h =>
        leads_ite hr.neg_iff (fun _ _ => ?_) fun _ _ => leads_pure trivial h
      exact (leads_swap hesize h _ _).bind fun _ _ s e _ h => ih h

theorem leads_insertions (h : Shows args P s e) {k : ℕ} : Leads (Shows args P) (fun _ _ => True)
      (insertionSort args fuel (place args b) (place args (b + n)) passes (place args (b + k)))
      (forM (List.range' k (n - k)) fun p => Sorting.insert (plain le) b p) s e := by
  induction passes generalizing k s e with
  | zero => exact leads_throw
  | succ passes ih =>
    rw [insertionSort]
    by_cases hk : k < n
    · rw [if_pos ((place_lt_place hesize).2 (by omega)),
        show n - k = n - (k + 1) + 1 by omega, List.range'_succ, List.forM_cons, place_succ,
        Nat.add_assoc]
      exact (leads_insert hesize horders h).bind fun _ _ s e _ h => ih h
    · rw [if_neg fun hlt => absurd ((place_lt_place hesize).1 hlt) (by omega),
        Nat.sub_eq_zero_of_le (not_lt.1 hk)]
      exact leads_pure trivial h

theorem leads_insertionSort (h : Shows args P s e) (fuel b n : ℕ) :
    Leads (Shows args P) (fun _ _ => True)
      (insertionSort args fuel (place args b) (place args (b + n)) fuel (place args b + args.esize))
      (Sorting.insertionSort (plain le) b n) s e := by
  rw [place_succ, Sorting.insertionSort]
  exact leads_insertions hesize horders h

/-! ### The stack -/

/-- The ranges in the slots of the stack, the last one first. -/
def StackList (args : Arguments σ) (stack : ℕ → QsortState) : ℕ → List (ℕ × ℕ) → Prop
  | 0, l => l = []
  | sp + 1, l => ∃ r l', l = r :: l' ∧ (stack sp).base = place args r.1 ∧ (stack sp).elems = r.2 ∧
      StackList args stack sp l'

omit hesize horders in
theorem StackList.length {stack : ℕ → QsortState} {sp : ℕ} {l : List (ℕ × ℕ)}
    (h : StackList args stack sp l) : l.length = sp := by
  induction sp generalizing l with
  | zero =>
    rw [StackList] at h
    rw [h, List.length_nil]
  | succ sp ih =>
    obtain ⟨r, l', rfl, -, -, h⟩ := h
    rw [List.length_cons, ih h]

omit hesize horders in
theorem StackList.push {stack : ℕ → QsortState} {sp : ℕ} {l : List (ℕ × ℕ)}
    (h : StackList args stack sp l) (r : ℕ × ℕ) :
    StackList args (Machine.push stack sp ⟨place args r.1, r.2⟩) (sp + 1) (r :: l) := by
  have hbelow (k : ℕ) (hk : k ≤ sp) (l : List (ℕ × ℕ)) (h : StackList args stack k l) :
      StackList args (Machine.push stack sp ⟨place args r.1, r.2⟩) k l := by
    induction k generalizing l with
    | zero => exact h
    | succ k ih =>
      obtain ⟨r', l', rfl, hbase, helems, h⟩ := h
      refine ⟨r', l', rfl, ?_, ?_, ih (by omega) l' h⟩
      · rwa [Machine.push, if_neg (by omega)]
      · rwa [Machine.push, if_neg (by omega)]
  refine ⟨r, l, rfl, ?_, ?_, hbelow sp (Nat.le_refl sp) l h⟩
  · rw [Machine.push, if_pos rfl]
  · rw [Machine.push, if_pos rfl]

omit hesize horders in
theorem place_sub_place_mul (i j : ℕ) : place args i - place args j = (i - j) * args.esize := by
  rw [place, place, Nat.add_sub_add_left, ← Nat.sub_mul]

theorem leads_sortLoop (h : Shows args P s e) {passes' : ℕ} (range : Option (ℕ × ℕ))
    {stack : ℕ → QsortState} {sp : ℕ} {l : List (ℕ × ℕ)} (hstack : StackList args stack sp l)
    (hpasses : passes ≤ passes') :
    Leads (Shows args P) (fun _ _ => True)
      (sortLoop args fuel passes (range.map fun r => (place args r.1, r.2)) stack sp)
      (sortRanges (plain le) passes' (range.toList ++ l)) s e := by
  induction passes generalizing range stack sp l passes' s e with
  | zero =>
    obtain _ | r := range <;> exact leads_throw
  | succ passes ih =>
    obtain ⟨passes', rfl⟩ := Nat.exists_eq_add_of_le' (Nat.zero_lt_of_lt hpasses)
    obtain _ | ⟨c, k⟩ := range
    · rw [Option.map_none, sortLoop, Option.toList_none, List.nil_append]
      obtain _ | sp := sp
      · rw [if_neg (Nat.lt_irrefl 0), show l = [] from hstack]
        exact leads_pure trivial h
      · obtain ⟨r, l, rfl, hbase, helems, hstack⟩ := hstack
        rw [if_pos (Nat.succ_pos sp), Nat.add_sub_cancel, hbase, helems]
        exact ih h (some r) hstack (by omega)
    have hpop {s : Memory × σ} {e : ℕ → Bytes} (h : Shows args P s e) :
        Leads (Shows args P) (fun _ _ => True) (sortLoop args fuel passes none stack sp)
          (sortRanges (plain le) passes' l) s e :=
      ih h none hstack (by omega)
    rw [Option.map_some, sortLoop, Option.toList_some, List.singleton_append, sortRanges]
    dsimp only
    rw [place_add, hstack.length]
    refine leads_ite Iff.rfl (fun _ _ => leads_ite Iff.rfl (fun _ _ => ?_) fun _ _ => ?_)
      fun _ _ => ?_
    · refine (leads_njsHeapsort hesize horders h).bind fun _ _ s e _ h => ?_
      refine Leads.bind_left ?_ fun _ s e h => hpop h
      exact leads_insertionSort hesize horders h fuel c 0
    · refine (leads_split hesize horders h (by omega)).bind ?_
      rintro _ ⟨lt, gt⟩ s e rfl h
      dsimp only
      by_cases hfull : njsMaxDepth ≤ sp
      · rw [if_pos hfull]
        exact leads_throw
      rw [if_neg hfull, place_sub_place hesize, place_sub_place hesize]
      refine leads_ite ?_ (fun _ _ => ?_) fun _ _ => ?_
      · rw [place_sub_place_mul, place_sub_place_mul]
        exact mul_lt_mul_esize hesize
      · exact ih h (some (gt, c + k - gt)) (hstack.push (c, lt - c)) (by omega)
      · exact ih h (some (c, lt - c)) (hstack.push (gt, c + k - gt)) (by omega)
    · exact (leads_insertionSort hesize horders h fuel c k).bind fun _ _ s e _ h => hpop h

end

/-! ### The sort -/

def array (args : Arguments σ) (m : Memory) : List Bytes := (List.range args.n).map (elements args
    m)

theorem array_pairwise (hesize : 0 < args.esize) {m m' : Memory} {ctx ctx' : σ} {fuel : ℕ}
    {stack : ℕ → QsortState} (hfuel : 3 * args.n + 3 ≤ fuel)
    (horders : Orders args le (· ∈ array args m))
    (hrun : (njsQsort args fuel stack).run (m, ctx) = .ok (⟨⟩, (m', ctx'))) :
    (array args m').Pairwise le := by
  rw [njsQsort] at hrun
  split_ifs at hrun with hfew
  · rw [array]
    obtain hzero | hone : args.n = 0 ∨ args.n = 1 := by omega
    · rw [hzero]
      exact List.Pairwise.nil
    · rw [hone]
      exact List.pairwise_singleton _ _
  have hmem {i : ℕ} (hi : i < args.n) : elements args m i ∈ array args m :=
    List.mem_map_of_mem (List.mem_range.2 hi)
  have hshows : Shows args (· ∈ array args m) (m, ctx) fun i =>
      elements args m (if i < args.n then i else 0) := by
    refine ⟨fun i hi => by dsimp only; rw [if_pos hi], fun i => ?_⟩
    dsimp only
    split_ifs with hi
    · exact hmem hi
    · exact hmem (by omega)
  have hpushed : StackList args (push stack 0 ⟨args.arr, args.n⟩) 1 [(0, args.n)] := by
    have hbase : args.arr = place args 0 := by rw [place, Nat.zero_mul, Nat.add_zero]
    rw [hbase]
    exact StackList.push (show StackList args stack 0 [] from rfl) (0, args.n)
  obtain ⟨_, e, hsort, -, hshows'⟩ :=
    leads_sortLoop hesize horders hshows none hpushed (Nat.le_refl fuel) _ _ hrun
  have hpost := post_sortRanges horders.compares (n := args.n) fuel [(0, args.n)]
    (by simp only [passesOf, List.map_cons, List.map_nil, List.sum_cons, List.sum_nil]; omega)
    hshows.2 ⟨fun r hr => by
      rw [List.mem_singleton.1 hr, Nat.zero_add], List.pairwise_singleton _ _⟩
    (fun i j hij hj hnone => by
      refine absurd ⟨?_, ?_⟩ (hnone _ List.mem_cons_self) <;> simp only [Holds] <;> omega)
  obtain ⟨-, hbetween⟩ := hpost.of_run hsort
  have hsorted := pairwise_of_sortedBetween hbetween
  rwa [List.map_congr_left fun i hi => hshows'.1 i (List.mem_range.1 hi)] at hsorted

/-- Elements of three bytes, and a comparison whose answers change with each call. -/
def fickle : Arguments ℕ := ⟨1000, 9, 3, fun calls _ _ => ((calls % 3 : ℤ) - 1, calls + 1)⟩

end Njs.Sorting.Machine
