import Mathlib.Data.List.Infix
import Mathlib.Data.Nat.Find

/-!
# First occurrences

`List.dropInfix?` finds the first occurrence of a pattern. This module collects what a scanner
relies on: more input does not change what was found, a pattern whose first element does not come
again in it cannot overlap another occurrence of that element, and a long pattern may be found by
looking for its beginning first.
-/

namespace Occurrence

variable {α : Type*} {l r u v s pat : List α} {a : α}

/-! ### Overlaps -/

theorem prefix_of_append_eq {u' v' : List α} (h : u ++ u' = v ++ v') (hle : u.length ≤ v.length) :
    u <+: v :=
  List.prefix_of_prefix_length_le ⟨u', h⟩ ⟨v', rfl⟩ hle

theorem le_or_le_of_anchored {t r' : List α} (ha : a ∉ t) (h : l ++ a :: t ++ r = u ++ a :: r') :
    u.length ≤ l.length ∨ l.length + (t.length + 1) ≤ u.length := by
  by_contra! hno
  obtain ⟨hlt, hlt'⟩ := hno
  have hget : (l ++ a :: t ++ r)[u.length]? = some a := by
    rw [h]
    simp
  rw [List.append_assoc, List.getElem?_append_right (by omega), List.cons_append,
    show u.length - l.length = (u.length - l.length - 1) + 1 by omega, List.getElem?_cons_succ,
    List.getElem?_append_left (by omega)] at hget
  exact ha (List.mem_of_getElem? hget)

/-! ### The first occurrence -/

variable [BEq α] [LawfulBEq α]

theorem dropInfix?_iff : s.dropInfix? pat = some (l, r) ↔
      s = l ++ pat ++ r ∧ ∀ l' r', s = l' ++ pat ++ r' → l.length ≤ l'.length := by
  rw [List.dropInfix?_eq_some_iff]
  constructor
  · rintro ⟨⟨i, hs, hi⟩, hmin⟩
    obtain rfl := eq_of_beq hi
    exact ⟨hs, fun l' r' hs' => hmin l' i r' hs' hi⟩
  · rintro ⟨hs, hmin⟩
    refine ⟨⟨pat, hs, beq_self_eq_true pat⟩, fun l' i r' hs' hi => ?_⟩
    obtain rfl := eq_of_beq hi
    exact hmin l' r' hs'

theorem dropInfix?_eq_none_iff : s.dropInfix? pat = none ↔ ∀ l r, s ≠ l ++ pat ++ r := by
  constructor
  · intro hnone
    by_contra! hex
    obtain ⟨l, r, hs⟩ := hex
    -- the shortest text in front of an occurrence would have been found
    let P : ℕ → Prop := fun n => ∃ l r, s = l ++ pat ++ r ∧ l.length = n
    have hP : ∃ n, P n := ⟨l.length, l, r, hs, rfl⟩
    classical
    obtain ⟨l', r', hs', hlen⟩ := Nat.find_spec hP
    have hfirst : s.dropInfix? pat = some (l', r') := by
      refine dropInfix?_iff.mpr ⟨hs', fun l'' r'' hs'' => ?_⟩
      rw [hlen]
      exact Nat.find_min' hP ⟨l'', r'', hs'', rfl⟩
    rw [hnone] at hfirst
    simp at hfirst
  · intro hno
    rcases hs : s.dropInfix? pat with _ | ⟨l, r⟩
    · rfl
    · exact absurd (dropInfix?_iff.mp hs).1 (hno l r)

theorem eq_of_dropInfix? (h : s.dropInfix? pat = some (l, r)) : s = l ++ pat ++ r :=
  (dropInfix?_iff.mp h).1

theorem length_of_dropInfix? (h : s.dropInfix? pat = some (l, r)) :
    s.length = l.length + pat.length + r.length := by
  rw [eq_of_dropInfix? h]
  simp only [List.length_append]

theorem dropInfix?_append (h : s.dropInfix? pat = some (l, r)) (u : List α) :
    (s ++ u).dropInfix? pat = some (l, r ++ u) := by
  obtain ⟨hs, hmin⟩ := dropInfix?_iff.mp h
  refine dropInfix?_iff.mpr ⟨by rw [hs]; simp only [List.append_assoc], ?_⟩
  intro l' r' hs'
  by_contra! hlt
  -- an earlier occurrence would lie in the first part already
  have hlen : s.length = l.length + pat.length + r.length := length_of_dropInfix? h
  have hpre : l' ++ pat <+: s :=
    prefix_of_append_eq hs'.symm (by simp only [List.length_append]; omega)
  obtain ⟨r'', hr''⟩ := hpre
  have hle := hmin l' r'' hr''.symm
  omega

theorem dropInfix?_of_not_infix {t : List α} (ha : a ∉ t) (hl : ¬ a :: t <:+: l) :
    (l ++ a :: t ++ r).dropInfix? (a :: t) = some (l, r) := by
  refine dropInfix?_iff.mpr ⟨rfl, fun l' r' hs => ?_⟩
  have heq : l' ++ a :: t ++ r' = l ++ a :: (t ++ r) := by
    rw [← hs]
    simp
  rcases le_or_le_of_anchored ha heq with hle | hle
  · exact hle
  · -- the occurrence would lie in the text
    have hpre : l' ++ a :: t <+: l :=
      prefix_of_append_eq (hs.symm.trans (List.append_assoc ..)) (by simpa using hle)
    exact absurd ((List.suffix_append l' (a :: t)).isInfix.trans hpre.isInfix) hl

theorem dropInfix?_next {t : List α} (ha : a ∉ t)
    (h : s.dropInfix? (a :: t) = some (l, r)) (hv : ¬ v <+: r) :
    s.dropInfix? (a :: t ++ v) =
      (r.dropInfix? (a :: t ++ v)).map fun p => (l ++ a :: t ++ p.1, p.2) := by
  obtain ⟨hs, hmin⟩ := dropInfix?_iff.mp h
  have hbehind : ∀ l' r', s = l' ++ (a :: t ++ v) ++ r' →
      ∃ m, l' = l ++ a :: t ++ m ∧ r = m ++ (a :: t ++ v) ++ r' := by
    intro l' r' hs'
    have hle : l.length ≤ l'.length := hmin l' (v ++ r') (by rw [hs']; simp)
    have heq : l ++ a :: t ++ r = l' ++ a :: (t ++ v ++ r') := by
      rw [← hs, hs']
      simp
    rcases le_or_le_of_anchored ha heq with hle' | hle'
    · -- the beginning that was found is followed by something else
      have hlen : l.length = l'.length := by omega
      have hlr : a :: t ++ r = a :: (t ++ v ++ r') :=
        (List.append_inj (by rw [← List.append_assoc]; exact heq) hlen).2
      have hr : r = v ++ r' := by simpa using hlr
      exact absurd ⟨r', hr.symm⟩ hv
    have hpre : l ++ a :: t <+: l' := by
      have hleft : l ++ a :: t <+: s := by
        rw [hs]
        exact List.prefix_append _ _
      have hright : l' <+: s := by
        rw [hs', List.append_assoc]
        exact List.prefix_append _ _
      exact List.prefix_of_prefix_length_le hleft hright (by simpa using hle')
    obtain ⟨m, rfl⟩ := hpre
    refine ⟨m, rfl, ?_⟩
    have hr : l ++ a :: t ++ r = l ++ a :: t ++ (m ++ (a :: t ++ v) ++ r') := by
      rw [heq]
      simp
    exact List.append_cancel_left hr
  rcases hr : r.dropInfix? (a :: t ++ v) with _ | ⟨m, r'⟩
  · refine dropInfix?_eq_none_iff.mpr fun l' r' hs' => ?_
    obtain ⟨m, -, hm⟩ := hbehind l' r' hs'
    exact dropInfix?_eq_none_iff.mp hr m r' hm
  obtain ⟨hm, hmmin⟩ := dropInfix?_iff.mp hr
  refine dropInfix?_iff.mpr ⟨by rw [hs, hm]; simp only [List.append_assoc], fun l' r'' hs' => ?_⟩
  obtain ⟨m', hl', hm'⟩ := hbehind l' r'' hs'
  have hle := hmmin m' r'' hm'
  rw [hl']
  simp only [List.length_append]
  omega

theorem dropInfix?_eq_none_of_append (h : s.dropInfix? u = none) :
    s.dropInfix? (u ++ v) = none := by
  refine dropInfix?_eq_none_iff.mpr fun l r hs => ?_
  exact dropInfix?_eq_none_iff.mp h l (v ++ r) (by rw [hs]; simp)

theorem dropInfix?_here (h : s.dropInfix? u = some (l, v ++ r)) :
    s.dropInfix? (u ++ v) = some (l, r) := by
  obtain ⟨hs, hmin⟩ := dropInfix?_iff.mp h
  refine dropInfix?_iff.mpr ⟨by rw [hs]; simp, fun l' r' hs' => ?_⟩
  exact hmin l' (v ++ r') (by rw [hs']; simp)

end Occurrence

/-!
## Cutting and replacing

A text is cut at the occurrences of a pattern, from left to right, or its occurrences are replaced,
each by what the texts before and behind it give.
-/

namespace Occurrence

variable {α : Type*} [BEq α] [LawfulBEq α] {l r s x : List α} {a : α}

/-! ### The first occurrence by the first element -/

theorem dropInfix?_of_begins (h : x <+: s) : s.dropInfix? x = some ([], s.drop x.length) := by
  obtain ⟨t, rfl⟩ := h
  rw [List.drop_left]
  exact dropInfix?_iff.2 ⟨rfl, fun l' _ _ => Nat.zero_le l'.length⟩

theorem dropInfix?_cons (h : ¬x <+: a :: s) :
    (a :: s).dropInfix? x = (s.dropInfix? x).map fun p => (a :: p.1, p.2) := by
  have hcons : ∀ {l' r'}, a :: s = l' ++ x ++ r' → ∃ m, l' = a :: m ∧ s = m ++ x ++ r' := by
    intro l' r' hs
    obtain _ | ⟨b, m⟩ := l'
    · exact absurd ⟨r', hs.symm⟩ h
    · obtain ⟨rfl, hs'⟩ := List.cons.inj hs
      exact ⟨m, rfl, hs'⟩
  rcases hfirst : s.dropInfix? x with _ | ⟨m, r⟩
  · refine dropInfix?_eq_none_iff.2 fun l' r' hs => ?_
    obtain ⟨m, -, hm⟩ := hcons hs
    exact dropInfix?_eq_none_iff.1 hfirst m r' hm
  · obtain ⟨hs, hmin⟩ := dropInfix?_iff.1 hfirst
    refine dropInfix?_iff.2 ⟨congrArg (a :: ·) hs, fun l' r' hs' => ?_⟩
    obtain ⟨m', rfl, hm'⟩ := hcons hs'
    exact Nat.succ_le_succ (hmin m' r' hm')

omit [LawfulBEq α] in
theorem length_lt_of_dropInfix? (hx : x ≠ []) (h : s.dropInfix? x = some (l, r)) :
    r.length < s.length := by
  obtain ⟨⟨i, rfl, hi⟩, -⟩ := List.dropInfix?_eq_some_iff.1 h
  have hpos := List.length_pos_iff.2 hx
  have hlength := List.length_eq_of_beq hi
  rw [List.length_append, List.length_append]
  omega

theorem not_infix_of_dropInfix? (hx : x ≠ []) (h : s.dropInfix? x = some (l, r)) : ¬x <:+: l := by
  rintro ⟨l', r', hl⟩
  obtain ⟨hs, hmin⟩ := dropInfix?_iff.1 h
  have hpos := List.length_pos_iff.2 hx
  have hle := hmin l' (r' ++ (x ++ r)) (by rw [hs, ← hl]; simp only [List.append_assoc])
  have hlength := congrArg List.length hl
  rw [List.length_append, List.length_append] at hlength
  omega

/-! ### Pieces -/

/-- The pieces of a text between the occurrences of a pattern. -/
inductive Pieces (x : List α) : List α → List (List α) → Prop
  | last {s : List α} (h : s.dropInfix? x = none) : Pieces x s [s]
  | piece {s l r : List α} {pieces : List (List α)} (h : s.dropInfix? x = some (l, r))
      (hrest : Pieces x r pieces) : Pieces x s (l :: pieces)

namespace Pieces

variable {pieces : List (List α)}

theorem flatMap_append (h : Pieces x s pieces) : pieces.flatMap (· ++ x) = s ++ x := by
  induction h with
  | last h => exact List.append_nil _
  | piece h hrest ih => rw [List.flatMap_cons, ih, eq_of_dropInfix? h, List.append_assoc _ _ x]

theorem not_contains (h : Pieces x s pieces) (hx : x ≠ []) : ∀ p ∈ pieces, ¬x <:+: p := by
  induction h with
  | last h =>
    intro p hp hinfix
    obtain ⟨l, r, hs⟩ := hinfix
    obtain rfl := List.mem_singleton.1 hp
    exact dropInfix?_eq_none_iff.1 h l r hs.symm
  | piece h hrest ih => exact List.forall_mem_cons.2 ⟨not_infix_of_dropInfix? hx h, ih⟩

omit [LawfulBEq α] in
theorem length_le (h : Pieces x s pieces) (hx : x ≠ []) : pieces.length ≤ s.length + 1 := by
  induction h with
  | last h => exact Nat.succ_le_succ (Nat.zero_le _)
  | piece h hrest ih =>
    have hlt := length_lt_of_dropInfix? hx h
    rw [List.length_cons]
    omega

end Pieces

/-! ### Replacements -/

section

omit [LawfulBEq α]

variable (e : List α → List α → List α)

def replaceFirst (x s : List α) : List α :=
  match s.dropInfix? x with
  | none => s
  | some (l, r) => l ++ e l r ++ r

/-- The occurrences of a pattern that is not empty are replaced, behind another text. -/
def replaceAll {x : List α} (hx : x ≠ []) (before s : List α) : List α :=
  match _h : s.dropInfix? x with
  | none => s
  | some (l, r) => l ++ e (before ++ l) r ++ replaceAll hx (before ++ l ++ x) r
termination_by s.length
decreasing_by exact length_lt_of_dropInfix? hx _h

/-- The occurrences of the empty pattern are replaced, behind another text. -/
def replaceEach : List α → List α → List α
  | before, [] => e before []
  | before, a :: s => e before (a :: s) ++ a :: replaceEach (before ++ [a]) s

variable {e}

theorem replaceAll_of_none {hx : x ≠ []} (before : List α) (h : s.dropInfix? x = none) :
    replaceAll e hx before s = s := by
  rw [replaceAll]
  split
  · rfl
  · rename_i h'
    rw [h] at h'
    exact absurd h' (Option.some_ne_none _).symm

theorem replaceAll_of_some {hx : x ≠ []} (before : List α) (h : s.dropInfix? x = some (l, r)) :
    replaceAll e hx before s = l ++ e (before ++ l) r ++ replaceAll e hx (before ++ l ++ x) r := by
  rw [replaceAll]
  split
  · rename_i h'
    rw [h] at h'
    exact absurd h' (Option.some_ne_none _)
  · rename_i h'
    obtain ⟨rfl, rfl⟩ := Prod.mk.inj (Option.some.inj (h'.symm.trans h))
    rfl

end

end Occurrence
