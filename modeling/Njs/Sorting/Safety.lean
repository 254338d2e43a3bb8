import Mathlib.Algebra.Order.Ring.Nat
import Mathlib.Tactic.Ring.RingNF
import Njs.Lib.Rearranged
import Njs.Sorting.Machine

/-!
# `njs_qsort` stays inside of its array

Whatever the comparison answers, the sort ends, uses nothing but the elements of the array and the
slots of its stack, and leaves the elements in some order.
-/

namespace Njs.Sorting.Machine

open StateExcept Rearrange Memory

variable {σ : Type} {args : Arguments σ} {m m₀ : Memory}

/-! ### Places -/

def place (args : Arguments σ) (i : ℕ) : ℕ := args.arr + i * args.esize

def elements (args : Arguments σ) (m : Memory) (i : ℕ) : Bytes := m.read (place args i) args.esize

theorem place_add (i j : ℕ) : place args i + j * args.esize = place args (i + j) := by
  rw [place, place, Nat.add_mul, Nat.add_assoc]

theorem place_succ (i : ℕ) : place args i + args.esize = place args (i + 1) := by
  rw [← place_add, Nat.one_mul]

variable {i j : ℕ}

theorem place_sub (hi : 0 < i) : place args i - args.esize = place args (i - 1) := by
  obtain ⟨j, rfl⟩ := Nat.exists_eq_add_of_lt hi
  rw [← place_succ, Nat.add_sub_cancel, Nat.add_sub_cancel]

theorem place_le (h : i ≤ j) : place args i ≤ place args j :=
  Nat.add_le_add_left (Nat.mul_le_mul_right _ h) _

theorem place_lt_place (hesize : 0 < args.esize) : place args i < place args j ↔ i < j := by
  rw [place, place, Nat.add_lt_add_iff_left, Nat.mul_lt_mul_right hesize]

theorem apart_place (args : Arguments σ) (h : i ≠ j) :
    place args i + args.esize ≤ place args j ∨ place args j + args.esize ≤ place args i := by
  rw [place_succ, place_succ]
  obtain hlt | hgt := Nat.lt_or_gt_of_ne h
  · exact .inl (place_le hlt)
  · exact .inr (place_le hgt)

theorem place_sub_place (hesize : 0 < args.esize) (i j : ℕ) :
    (place args i - place args j) / args.esize = i - j := by
  rw [place, place, Nat.add_sub_add_left, ← Nat.sub_mul, Nat.mul_div_cancel _ hesize]

theorem isElement_place (hi : i < args.n) : IsElement args (place args i) := by
  refine ⟨Nat.le_add_right _ _, ?_, ?_⟩
  · rw [place_succ]
    exact place_le hi
  · rw [place, Nat.add_sub_cancel_left, Nat.mul_mod_left]

theorem elements_exchange (i j : ℕ) :
    elements args (m.exchange (place args i) (place args j) args.esize) =
      elements args m ∘ Equiv.swap i j := by
  funext k
  refine read_congr fun t ht => ?_
  by_cases hki : k = i
  · subst hki
    rw [exchange, if_pos (by omega), Equiv.swap_apply_left, Nat.add_sub_cancel_left]
  have hi := apart_place args hki
  by_cases hkj : k = j
  · subst hkj
    rw [exchange, if_neg (by omega), if_pos (by omega), Equiv.swap_apply_right,
      Nat.add_sub_cancel_left]
  · have hj := apart_place args hkj
    rw [exchange, if_neg (by omega), if_neg (by omega),
      Equiv.swap_apply_of_ne_of_ne hki hkj]

/-! ### Safe programs -/

/-- The elements are in another order, and nothing else has changed. -/
structure Kept (args : Arguments σ) (m₀ m : Memory) : Prop where
  rearranged : Rearranged 0 args.n (elements args m₀) (elements args m)
  outside : ∀ q, q < args.arr ∨ args.arr + args.n * args.esize ≤ q → m q = m₀ q

theorem kept_refl (args : Arguments σ) (m : Memory) : Kept args m m :=
  ⟨Rearranged.refl _ _ _, fun _ _ => rfl⟩

theorem Kept.exchange (h : Kept args m₀ m) (hi : i < args.n) (hj : j < args.n) :
    Kept args m₀ (m.exchange (place args i) (place args j) args.esize) := by
  refine ⟨?_, fun q hq => ?_⟩
  · rw [elements_exchange]
    exact h.rearranged.trans (rearranged_swap ⟨Nat.zero_le i, hi⟩ ⟨Nat.zero_le j, hj⟩)
  · have hi := (isElement_place hi).2.1
    have hj := (isElement_place hj).2.1
    have hi' : args.arr ≤ place args i := Nat.le_add_right _ _
    have hj' : args.arr ≤ place args j := Nat.le_add_right _ _
    rw [Memory.exchange, if_neg (by omega), if_neg (by omega), h.outside q hq]

/-- A program meets no fault, and puts just the elements into another order. -/
def Safe {β : Type} (args : Arguments σ) (m₀ : Memory) (x : Run σ β) (Q : β → Prop) : Prop :=
  ∀ m s, Kept args m₀ m → Post x (m, s) (fun r t => Q r ∧ Kept args m₀ t.1) fun _ => False

variable {β γ : Type} {x y : Run σ β} {Q Q' : β → Prop}

theorem safe_pure {r : β} (h : Q r) : Safe args m₀ (pure r : Run σ β) Q :=
  fun _ _ hkept => ⟨h, hkept⟩

theorem Safe.bind {f : β → Run σ γ} {Q' : γ → Prop} (h : Safe args m₀ x Q)
    (hf : ∀ r, Q r → Safe args m₀ (f r) Q') : Safe args m₀ (x >>= f) Q' :=
  fun m s hkept => Post.bind (h m s hkept) fun r t hr => hf r hr.1 t.1 t.2 hr.2

theorem Safe.mono (h : Safe args m₀ x Q) (hQ : ∀ r, Q r → Q' r) : Safe args m₀ x Q' :=
  fun m s hkept => (h m s hkept).mono (fun _ _ hr => ⟨hQ _ hr.1, hr.2⟩) fun _ he => he

theorem safe_ite {c : Prop} [Decidable c] (hx : c → Safe args m₀ x Q)
    (hy : ¬c → Safe args m₀ y Q) : Safe args m₀ (if c then x else y) Q := by
  split_ifs with hc
  · exact hx hc
  · exact hy hc

theorem safe_cmp (hi : i < args.n) (hj : j < args.n) :
    Safe args m₀ (cmp args (place args i) (place args j)) fun _ => True := by
  intro m s hkept
  rw [cmp, if_pos ⟨isElement_place hi, isElement_place hj⟩]
  exact ⟨trivial, hkept⟩

theorem safe_swap (hi : i < args.n) (hj : j < args.n) :
    Safe args m₀ (swap args (place args i) (place args j)) fun _ => True := by
  intro m s hkept
  rw [swap, if_pos ⟨isElement_place hi, isElement_place hj⟩]
  refine ⟨trivial, ?_⟩
  have hapart : Apart (place args i) (place args j) args.esize := by
    by_cases hij : i = j
    · exact .inl (congrArg _ hij)
    · exact .inr (apart_place _ hij)
  change Kept args m₀ (njsChooseSwap args.esize m (place args i) (place args j))
  rw [njsChooseSwap_eq hapart]
  exact hkept.exchange hi hj

/-! ### The heapsort -/

section

variable (hesize : 0 < args.esize) {b n fuel : ℕ} (hb : b + n ≤ args.n)

include hesize

theorem mul_lt_mul_esize {i j : ℕ} : i * args.esize < j * args.esize ↔ i < j :=
  Nat.mul_lt_mul_right hesize

include hb

theorem safe_greater {k : ℕ} (hk : k < n) (c : ℕ) :
    Safe args m₀ (greater args (place args b) (n * args.esize) (k * args.esize) (c * args.esize))
      fun g => g = k * args.esize ∨ g = c * args.esize ∧ c < n := by
  rw [greater]
  refine safe_ite (fun hc => ?_) fun _ => safe_pure (.inl rfl)
  have hc := (mul_lt_mul_esize hesize).1 hc
  rw [place_add, place_add]
  refine (safe_cmp (by omega) (by omega)).bind fun r _ => safe_pure ?_
  split_ifs
  · exact .inr ⟨rfl, hc⟩
  · exact .inl rfl

theorem safe_njsSiftDown {i : ℕ} (hi : i < n) (hfuel : n ≤ i + fuel) :
    Safe args m₀ (njsSiftDown args (place args b) (n * args.esize) fuel (i * args.esize))
      fun _ => True := by
  induction fuel generalizing i with
  | zero => omega
  | succ fuel ih =>
    have hc : 2 * (i * args.esize) + args.esize = (2 * i + 1) * args.esize := by ring
    have hc' : (2 * i + 1) * args.esize + args.esize = (2 * i + 2) * args.esize := by ring
    have hstep {k : ℕ} (hk : k = i ∨ 2 * i + 1 ≤ k ∧ k < n) :
        Safe args m₀ (if k * args.esize = i * args.esize then pure ⟨⟩
          else do
            swap args (place args b + i * args.esize) (place args b + k * args.esize)
            njsSiftDown args (place args b) (n * args.esize) fuel (k * args.esize))
          fun _ => True := by
      refine safe_ite (fun _ => safe_pure trivial) fun hne => ?_
      have hki : k ≠ i := fun h => hne (h ▸ rfl)
      rw [place_add, place_add]
      exact (safe_swap (by omega) (by omega)).bind fun _ _ => ih (by omega) (by omega)
    rw [njsSiftDown]
    rw [hc, hc']
    refine (safe_greater hesize hb hi (2 * i + 1)).bind ?_
    rintro _ (rfl | ⟨rfl, hlt⟩)
    · refine (safe_greater hesize hb hi (2 * i + 2)).bind ?_
      rintro _ (rfl | ⟨rfl, hlt⟩)
      · exact hstep (.inl rfl)
      · exact hstep (.inr ⟨by omega, hlt⟩)
    · refine (safe_greater hesize hb hlt (2 * i + 2)).bind ?_
      rintro _ (rfl | ⟨rfl, hlt'⟩)
      · exact hstep (.inr ⟨by omega, hlt⟩)
      · exact hstep (.inr ⟨by omega, hlt'⟩)

theorem safe_makeHeap {passes i : ℕ} (hi : i < n) (hpasses : i < passes) (hfuel : n ≤ fuel) :
    Safe args m₀ (makeHeap args fuel (place args b) (n * args.esize) passes (i * args.esize))
      fun _ => True := by
  induction passes generalizing i with
  | zero => omega
  | succ passes ih =>
    rw [makeHeap]
    refine (safe_njsSiftDown hesize hb hi (by omega)).bind fun _ _ => ?_
    refine safe_ite (fun _ => safe_pure trivial) fun hne => ?_
    obtain _ | i := i
    · exact absurd (Nat.zero_mul _) hne
    · rw [Nat.succ_mul, Nat.add_sub_cancel]
      exact ih (by omega) (by omega)

theorem safe_popAll {passes : ℕ} (hpasses : n < passes) (hfuel : n ≤ fuel) :
    Safe args m₀ (popAll args fuel (place args b) passes (n * args.esize)) fun _ => True := by
  induction passes generalizing n with
  | zero => omega
  | succ passes ih =>
    rw [popAll]
    refine safe_ite (fun hlong => ?_) fun _ => safe_pure trivial
    have hn : 1 < n := (mul_lt_mul_esize hesize).1 (by rwa [Nat.one_mul])
    obtain ⟨k, rfl⟩ := Nat.exists_eq_add_of_lt hn
    have hsub : (1 + k + 1) * args.esize - args.esize = (1 + k) * args.esize := by
      rw [Nat.succ_mul, Nat.add_sub_cancel]
    rw [place_add, place_sub (by omega), hsub]
    refine (safe_swap (by omega) (by omega)).bind fun _ _ => ?_
    have hsift := @safe_njsSiftDown σ args m₀ hesize b (1 + k) fuel (by omega) 0 (by omega)
      (by omega)
    rw [Nat.zero_mul] at hsift
    exact hsift.bind fun _ _ => ih (by omega) (by omega) (by omega)

theorem safe_njsHeapsort (hn : 0 < n) (hfuel : n < fuel) :
    Safe args m₀ (njsHeapsort args fuel (place args b) n) fun _ => True := by
  rw [njsHeapsort]
  exact (safe_makeHeap hesize hb (by omega) (by omega) (by omega)).bind fun _ _ =>
    safe_popAll hesize hb hfuel (by omega)

end

/-! ### The quicksort -/

theorem safe_njsPivot {k : ℕ} (hi : i < args.n) (hj : j < args.n) (hk : k < args.n) :
    Safe args m₀ (njsPivot args (place args i) (place args j) (place args k)) fun p =>
      ∃ l < args.n, p = place args l := by
  rw [njsPivot]
  refine (safe_cmp hi hk).bind fun r _ => safe_ite (fun _ => ?_) fun _ => ?_
  · refine (safe_cmp hj hk).bind fun r _ => safe_ite (fun _ => ?_) fun _ => safe_pure ⟨k, hk, rfl⟩
    refine (safe_cmp hi hj).bind fun r _ => safe_pure ?_
    split_ifs
    · exact ⟨j, hj, rfl⟩
    · exact ⟨i, hi, rfl⟩
  · refine (safe_cmp hj hi).bind fun r _ => safe_ite (fun _ => ?_) fun _ => safe_pure ⟨i, hi, rfl⟩
    refine (safe_cmp hj hk).bind fun r _ => safe_pure ?_
    split_ifs
    · exact ⟨k, hk, rfl⟩
    · exact ⟨j, hj, rfl⟩

section

variable (hesize : 0 < args.esize) {b n fuel : ℕ}

include hesize

theorem safe_partition {l k g : ℕ} (hlk : l < k) (hkg : k ≤ g) (hg : g ≤ args.n)
    (hfuel : g - k < fuel) :
    Safe args m₀ (partition args fuel (place args l) (place args k) (place args g)) fun r =>
      ∃ l' g', r = (place args l', place args g') ∧ l ≤ l' ∧ l' < g' ∧ g' ≤ g := by
  induction fuel generalizing l k g with
  | zero => omega
  | succ fuel ih =>
    rw [partition]
    refine safe_ite (fun hlt => ?_) fun hle => safe_pure ⟨l, g, rfl, Nat.le_refl l, ?_⟩
    · have hlt := (place_lt_place hesize).1 hlt
      rw [place_succ, place_succ, place_sub (by omega)]
      refine (safe_cmp (by omega) (by omega)).bind fun r _ => safe_ite (fun _ => ?_) fun _ => ?_
      · refine safe_ite (fun _ => ?_) fun _ => ?_
        · refine (safe_swap (by omega) (by omega)).bind fun _ _ => ?_
          refine (ih (by omega) (by omega) hg (by omega)).mono ?_
          rintro r ⟨l', g', hr, hl', hlt', hg'⟩
          exact ⟨l', g', hr, by omega, hlt', hg'⟩
        · exact ih (by omega) (by omega) hg (by omega)
      · refine (safe_swap (by omega) (by omega)).bind fun _ _ => ?_
        refine (ih hlk (by omega) (by omega) (by omega)).mono ?_
        rintro r ⟨l', g', hr, hl', hlt', hg'⟩
        exact ⟨l', g', hr, hl', hlt', by omega⟩
    · omega

theorem safe_split (hb : b + n ≤ args.n) (hn : 6 < n) (hfuel : n ≤ fuel) :
    Safe args m₀ (split args fuel (place args b) n (place args (b + n))) fun r =>
      ∃ l g, r = (place args l, place args g) ∧ b ≤ l ∧ l < g ∧ g ≤ b + n := by
  have hquarter (c : ℕ) : place args b + c * (n / 4 * args.esize) =
      place args (b + c * (n / 4)) := by
    rw [← Nat.mul_assoc, place_add]
  have hone := hquarter 1
  rw [Nat.one_mul] at hone
  rw [split]
  rw [hone, hquarter, hquarter, place_succ]
  refine (safe_njsPivot (by omega) (by omega) (by omega)).bind ?_
  rintro _ ⟨p, hp, rfl⟩
  refine (safe_swap (by omega) hp).bind fun _ _ => ?_
  exact safe_partition hesize (Nat.lt_succ_self b) (by omega) hb (by omega)

theorem safe_insert {c : ℕ} (hc : c < args.n) (hbc : b ≤ c) (hfuel : c < b + fuel) :
    Safe args m₀ (insert args (place args b) fuel (place args c)) fun _ => True := by
  induction fuel generalizing c with
  | zero => omega
  | succ fuel ih =>
    rw [insert]
    refine safe_ite (fun hlt => ?_) fun _ => safe_pure trivial
    have hlt := (place_lt_place hesize).1 hlt
    rw [place_sub (by omega)]
    refine (safe_cmp hc (by omega)).bind fun r _ => safe_ite (fun _ => ?_) fun _ => safe_pure trivial
    exact (safe_swap hc (by omega)).bind fun _ _ => ih (by omega) (by omega) (by omega)

theorem safe_insertionSort {passes t k : ℕ} (ht : t ≤ args.n) (hbk : b ≤ k) (hfuel : args.n ≤ fuel)
    (hpasses : t < k + passes) (hpos : 0 < passes) :
    Safe args m₀ (insertionSort args fuel (place args b) (place args t) passes (place args k))
      fun _ => True := by
  induction passes generalizing k with
  | zero => omega
  | succ passes ih =>
    rw [insertionSort]
    refine safe_ite (fun hlt => ?_) fun _ => safe_pure trivial
    have hlt := (place_lt_place hesize).1 hlt
    refine (safe_insert hesize (by omega) hbk (by omega)).bind fun _ _ => ?_
    rw [place_succ]
    exact ih (by omega) (by omega) (by omega)

/-! ### The stack -/

/-- The ranges in the slots of the stack are inside of the array. -/
def Stacked (args : Arguments σ) (stack : ℕ → QsortState) (sp : ℕ) : Prop :=
  ∀ i < sp, ∃ b, (stack i).base = place args b ∧ b + (stack i).elems ≤ args.n

/-- The passes that the ranges on the stack need. -/
def weight (stack : ℕ → QsortState) : ℕ → ℕ
  | 0 => 0
  | sp + 1 => weight stack sp + (3 * (stack sp).elems + 2)

omit hesize in
theorem weight_push (stack : ℕ → QsortState) (sp : ℕ) (state : QsortState) :
    weight (push stack sp state) (sp + 1) = weight stack sp + (3 * state.elems + 2) := by
  have hbelow (k : ℕ) (hk : k ≤ sp) : weight (push stack sp state) k = weight stack k := by
    induction k with
    | zero => rfl
    | succ k ih => rw [weight, weight, ih (by omega), push, if_neg (by omega)]
  rw [weight, hbelow sp (Nat.le_refl sp), push, if_pos rfl]

omit hesize in
theorem Stacked.push {stack : ℕ → QsortState} {sp : ℕ} (h : Stacked args stack sp) {c k : ℕ}
    (hc : c + k ≤ args.n) :
    Stacked args (Machine.push stack sp ⟨place args c, k⟩) (sp + 1) := by
  intro i hi
  by_cases hsp : i = sp
  · exact ⟨c, by rw [Machine.push, if_pos hsp], by rw [Machine.push, if_pos hsp]; exact hc⟩
  · rw [Machine.push, if_neg hsp]
    exact h i (by omega)

/-- The passes that a range at hand needs, if there is one. -/
def need : Option (ℕ × ℕ) → ℕ
  | none => 1
  | some (_, n) => 3 * n + 2

theorem safe_sortLoop {passes : ℕ} (hfuel : args.n < fuel) (range : Option (ℕ × ℕ))
    (hrange : ∀ p k, range = some (p, k) → ∃ c, p = place args c ∧ c + k ≤ args.n)
    {stack : ℕ → QsortState} {sp : ℕ} (hstack : Stacked args stack sp)
    (hsp : sp + range.toList.length ≤ njsMaxDepth)
    (hpasses : weight stack sp + need range ≤ passes) :
    Safe args m₀ (sortLoop args fuel passes range stack sp) fun _ => True := by
  have hmax : njsMaxDepth = 16 := rfl
  induction passes generalizing range stack sp with
  | zero =>
    obtain _ | ⟨p, k⟩ := range
    · rw [need] at hpasses
      omega
    · rw [need] at hpasses
      omega
  | succ passes ih =>
    obtain _ | ⟨p, k⟩ := range
    · rw [sortLoop]
      refine safe_ite (fun hpos => ?_) fun _ => safe_pure trivial
      obtain ⟨sp, rfl⟩ := Nat.exists_eq_succ_of_ne_zero (Nat.ne_of_gt hpos)
      rw [Nat.succ_sub_one]
      refine ih _ ?_ (fun i hi => hstack i (by omega)) ?_ ?_
      · rintro _ _ ⟨⟩
        exact hstack sp (Nat.lt_succ_self sp)
      · exact hsp
      · rw [weight, need] at hpasses
        rw [need]
        omega
    obtain ⟨c, rfl, hc⟩ := hrange p k rfl
    rw [Option.toList_some, List.length_singleton] at hsp
    rw [need] at hpasses
    have hpop : Safe args m₀ (sortLoop args fuel passes none stack sp) fun _ => True :=
      ih none nofun hstack (by rw [Option.toList_none, List.length_nil]; omega)
        (by rw [need]; omega)
    have hsorted {t : ℕ} (ht : t ≤ args.n) : Safe args m₀
        (insertionSort args fuel (place args c) (place args t) fuel (place args c + args.esize))
        fun _ => True := by
      rw [place_succ]
      exact safe_insertionSort hesize ht (by omega) (by omega) (by omega) (by omega)
    rw [sortLoop]
    dsimp only
    rw [place_add]
    refine safe_ite (fun hlong => safe_ite (fun _ => ?_) fun hroom => ?_) fun _ => ?_
    · refine (safe_njsHeapsort hesize hc (by omega) (by omega)).bind fun _ _ => ?_
      exact (hsorted (by omega)).bind fun _ _ => hpop
    · refine (safe_split hesize hc hlong (by omega)).bind ?_
      rintro _ ⟨l, g, rfl, hl, hlg, hg⟩
      dsimp only
      rw [if_neg (by omega), place_sub_place hesize, place_sub_place hesize]
      refine safe_ite (fun _ => ?_) fun _ => ?_
      · refine ih _ ?_ (hstack.push (by omega)) ?_ ?_
        · rintro _ _ ⟨⟩
          exact ⟨g, rfl, by omega⟩
        · rw [Option.toList_some, List.length_singleton]
          omega
        · rw [weight_push, need]
          dsimp only
          omega
      refine ih _ ?_ (hstack.push (by omega)) ?_ ?_
      · rintro _ _ ⟨⟩
        exact ⟨c, rfl, by omega⟩
      · rw [Option.toList_some, List.length_singleton]
        omega
      · rw [weight_push, need]
        dsimp only
        omega
    · exact (hsorted hc).bind fun _ _ => hpop

theorem safe_njsQsort (hfuel : 3 * args.n + 3 ≤ fuel) (stack : ℕ → QsortState) :
    Safe args m₀ (njsQsort args fuel stack) fun _ => True := by
  rw [njsQsort]
  refine safe_ite (fun _ => safe_pure trivial) fun _ => ?_
  have hbase : args.arr = place args 0 := by rw [place, Nat.zero_mul, Nat.add_zero]
  have hempty : Stacked args stack 0 := fun i hi => absurd hi (Nat.not_lt_zero i)
  rw [hbase]
  refine safe_sortLoop hesize (by omega) none nofun (hempty.push (by omega)) (by decide) ?_
  rw [weight_push, weight, need]
  dsimp only
  omega

end

end Njs.Sorting.Machine
