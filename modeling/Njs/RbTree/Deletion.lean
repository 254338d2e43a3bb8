import Njs.RbTree.Insertion

/-!
# Deletion from a red-black tree

A black node is missing in a subtree. The fix-up moves the gap up until a red node can become
black, or two rotations at most fill it. The subtree may be a leaf: then the parent link of the
sentinel leads to the node above it.
-/

namespace Njs.RbTree

open RedBlack RedBlack.Tree

variable {ι : Type} [DecidableEq ι] {m : Heap ι} {path : List (Frame ι)} {s : Side}
  {c d : Color} {t u near far : RedBlack.Tree ι} {p w : ι} {n : ℕ}

variable {a b : RedBlack.Tree ι}

omit [DecidableEq ι] in
theorem fields_sibling {i : ι} (h : Whole m (zip (⟨s, c, p, mk s d a i b⟩ :: path) t)) :
    m.child s.other (some p) = some i ∧ m.child s (some i) = a.root ∧
      m.child s.other (some i) = b.root ∧ m.color (some i) = d ∧ m.color (some p) = c ∧
      m.color a.root = a.color ∧ m.color b.root = b.color := by
  have hsib : Whole m (zip (⟨s.other, c, p, t⟩ :: path) (mk s d a i b)) := by
    rw [zip_cons, mk_other]
    exact h
  have hb : Whole m (zip (⟨s.other, d, i, a⟩ :: ⟨s.other, c, p, t⟩ :: path) b) := by
    rw [zip_cons, mk_other]
    exact hsib
  obtain ⟨hs, ho, -, hd⟩ := fields_mk _ hsib
  obtain ⟨-, hp, -, hc⟩ := fields_mk path h
  rw [root_mk] at hp
  exact ⟨hp, hs, ho, hd, hc,
    color_zip (⟨s, d, i, b⟩ :: ⟨s.other, c, p, t⟩ :: path) (t := a) hsib, color_zip _ hb⟩

theorem setColor_sibling {i : ι} (h : Whole m (zip (⟨s, c, p, mk s d a i b⟩ :: path) t))
    (e : Color) : Whole (m.setColor (some i) e) (zip (⟨s, c, p, mk s e a i b⟩ :: path) t) := by
  have hsib : Whole m (zip (⟨s.other, c, p, t⟩ :: path) (mk s d a i b)) := by
    rw [zip_cons, mk_other]
    exact h
  have hset := setColor_zip _ hsib e
  rw [zip_cons, mk_other] at hset
  exact hset

theorem blackSibling_zip (h : Whole m (zip (⟨s, c, p, u⟩ :: path) t))
    (hp : BalancedPath (⟨s, c, p, u⟩ :: path) .black (n + 1)) :
    ∃ m' d near w far path' e f, blackSibling s (some p) m = (some w, m') ∧
      Whole m' (zip (⟨s, d, p, mk s .black near w far⟩ :: path') t) ∧ Balanced near e n ∧
      Balanced far f n ∧ BalancedPath path' d (d.rise (n + 1)) ∧
      (zip (⟨s, d, p, mk s .black near w far⟩ :: path') t).toList =
        (zip (⟨s, c, p, u⟩ :: path) t).toList ∧ (d = .red ∨ path' = path) := by
  obtain ⟨hpath, e, hu, hred⟩ := hp.frame
  cases e with
  | black =>
    obtain ⟨near, w, far, e, f, rfl, hnear, hfar⟩ := hu.exists_black s
    obtain ⟨ho, -, -, hw, -⟩ := fields_sibling h
    refine ⟨m, c, near, w, far, path, e, f, ?_, h, hnear, hfar, hpath, rfl, .inr rfl⟩
    rw [blackSibling, ho]
    exact if_neg (not_not_intro hw)
  | red =>
    obtain rfl : c = .black := by
      cases c with
      | black => rfl
      | red => cases hred rfl
    obtain ⟨a, v, b, rfl, ha, hb⟩ := hu.exists_red s
    obtain ⟨ho, -, -, hv, -⟩ := fields_sibling h
    have h₂ := setColor_zip path (setColor_sibling h .black) .red
    have h₃ : Whole _ (zip (⟨s, .red, p, a⟩ :: ⟨s, .black, v, b⟩ :: path) t) := rotate_zip h₂
    obtain ⟨near, w, far, e, f, rfl, hnear, hfar⟩ := ha.exists_black s
    obtain ⟨ho', -⟩ := fields_sibling h₃
    refine ⟨_, .red, near, w, far, _, e, f, ?_, h₃, hnear, hfar, .black hb hpath, ?_, .inl rfl⟩
    · rw [blackSibling, ho]
      have hne : m.color (some v) ≠ .black := hv.trans_ne (by decide : Color.red ≠ .black)
      rw [if_pos hne]
      exact congrArg (·, _) ho'
    · refine toList_zip_congr path _ _ ?_
      cases s <;> simp [mk, toList]

theorem deleteRotate_zip {v : ι}
    (h : Whole m (zip (⟨s, c, p, mk s d near w (mk s .red a v b)⟩ :: path) t)) {e : Color}
    (ht : Balanced t .black n) (hnear : Balanced near e n) (ha : Balanced a .black n)
    (hb : Balanced b .black n) (hpath : BalancedPath path c (c.rise (n + 1))) :
    ∃ t' k, Whole (deleteRotate s (some p) (some w) m) t' ∧ Balanced t' .black k ∧
      t'.toList = (zip (⟨s, c, p, mk s d near w (mk s .red a v b)⟩ :: path) t).toList := by
  obtain ⟨-, -, -, -, hc, -⟩ := fields_sibling h
  have h₁ := setColor_sibling h c
  have h₂ : Whole ((m.setColor (some w) c).setColor (some p) .black)
      (zip (⟨s, .black, p, mk s c near w (mk s .red a v b)⟩ :: path) t) :=
    setColor_zip path h₁ .black
  obtain ⟨-, -, hfar, -⟩ := fields_sibling h₂
  have h₃ : Whole ((m.setColor (some w) c).setColor (some p) .black)
      (zip (⟨s.other, c, w, near⟩ :: ⟨s.other, .black, p, t⟩ :: path) (mk s .red a v b)) := by
    rw [zip_cons, mk_other, zip_cons, mk_other]
    exact h₂
  have h₄ := setColor_zip _ h₃ .black
  rw [zip_cons, mk_other, zip_cons, mk_other] at h₄
  have h₅ := rotate_zip h₄
  obtain ⟨k, hk⟩ := hpath.zip
    (.mk_black_children c (.mk_black ht hnear) (.mk_black ha hb) : Balanced
      (mk s c (mk s .black t p near) w (mk s .black a v b)) c (c.rise (n + 1)))
  refine ⟨_, k, ?_, hk, ?_⟩
  · rw [root_mk] at hfar
    simp only [deleteRotate, hc, hfar]
    exact h₅
  · refine toList_zip_congr path _ _ ?_
    cases s <;> simp [mk, toList]

theorem deleteFixup_eq (rounds : ℕ) :
    ∀ (m : Heap ι) (path : List (Frame ι)) (t : RedBlack.Tree ι) (n : ℕ), Whole m (zip path t) →
      Lacking t n → BalancedPath path .black (n + 1) → m.parent t.root = above path →
      (t.color = .black → path.length < rounds) → 0 < rounds →
      ∃ m' t' k, njsRbtreeDeleteFixup rounds t.root m = some m' ∧ Whole m' t' ∧
        Balanced t' .black k ∧ t'.toList = (zip path t).toList := by
  induction rounds with
  | zero => exact fun _ _ _ _ _ _ _ _ _ hlt => absurd hlt (Nat.lt_irrefl 0)
  | succ rounds ih =>
    intro m path t n h hlack hp hpar hlt _
    have hcol := color_zip path h
    rw [njsRbtreeDeleteFixup]
    cases hlack with
    | @red s a x b _ hb =>
      -- A red root becomes black.
      have hne : m.color (mk s .red a x b).root ≠ .black := by
        rw [hcol, color_mk]
        decide
      obtain ⟨k, hk⟩ := hp.zip hb
      refine ⟨_, _, k, if_neg fun hr => hne hr.2, ?_, hk, ?_⟩
      · rw [root_mk]
        exact setColor_zip path h .black
      · exact toList_zip_congr _ _ _ (toList_mk_color ..)
    | black ht =>
      have htc : m.color t.root = .black := hcol.trans ht.color_eq
      cases path with
      | nil =>
        -- The gap is at the root.
        have hroot : njsRbtreeRoot m = t.root := h.top
        obtain ⟨t', hw', hl', hb'⟩ := setColor_root h
        obtain ⟨k, hk⟩ := hb' _ _ ht
        rw [hroot] at hw'
        exact ⟨_, t', k, if_neg fun hr => hr.1 hroot.symm, hw', hk, hl'⟩
      | cons f path =>
        obtain ⟨s, c, p, u⟩ := f
        obtain ⟨hpath, e, hu, -⟩ := hp.frame
        have hlen : (⟨s, c, p, u⟩ :: path : List (Frame ι)).length < rounds + 1 :=
          hlt ht.color_eq
        rw [List.length_cons] at hlen
        have hune : u.root ≠ none := by
          cases hu <;> simp [root]
        have hne : t.root ≠ u.root := by
          cases ht' : t.root with
          | none => exact hune.symm
          | some x => exact ht' ▸ root_ne h.nodup ht'
        have hroot : t.root ≠ njsRbtreeRoot m := fun he => by
          obtain ⟨i, hi, hr⟩ := root_zip_cons path t ⟨s, c, p, u⟩
          have ht' : t.root = some i := he.trans (h.top.trans hr)
          exact ((nodup_zip _ _).mp h.nodup).2.2 (root_mem i ht') hi
        have hside := side_eq h hne
        obtain ⟨m', d, near, w, far, path', e', f', hbs, hw, hnear, hfar, hpath', hl, hd⟩ :=
          blackSibling_zip h hp
        obtain ⟨-, -, hwo, -, -, -, hfc⟩ := fields_sibling hw
        rw [if_pos ⟨hroot, htc⟩, hpar, above]
        simp only
        rw [hside, hbs]
        simp only [hwo, hfc]
        cases hfc' : far.color with
        | red =>
          obtain ⟨a, v, b, rfl, ha, hb⟩ := (hfar.color_eq.symm.trans hfc' ▸ hfar).exists_red s
          obtain ⟨t', k, hw', hk, hl'⟩ := deleteRotate_zip hw ht hnear ha hb hpath'
          exact ⟨_, t', k, if_neg (by decide), hw', hk, hl'.trans hl⟩
        | black =>
          rw [if_pos rfl]
          have hfar' : Balanced far .black n := hfar.color_eq.symm.trans hfc' ▸ hfar
          have h₁ := setColor_sibling hw .red
          obtain ⟨-, hnw, -, -, -, hnc, -⟩ := fields_sibling h₁
          rw [hnw, hnc]
          cases hnc' : near.color with
          | black =>
            -- The sibling becomes red, and the gap moves up.
            have hnear' : Balanced near .black n := hnear.color_eq.symm.trans hnc' ▸ hnear
            have hlist : (zip path' (mk s d t p (mk s .red near w far))).toList =
                (zip (⟨s, c, p, u⟩ :: path) t).toList := by
              refine (toList_zip_congr path' _ _ ?_).trans hl
              cases s <;> simp [mk, toList]
            have hpar' := parent_zip path' (t := mk s d t p (mk s .red near w far)) h₁ (root_mk ..)
            obtain ⟨m'', t', k, hm, hw', hk, hl'⟩ : ∃ m'' t' k,
                njsRbtreeDeleteFixup rounds (mk s d t p (mk s .red near w far)).root
                  (m'.setColor (some w) .red) = some m'' ∧ Whole m'' t' ∧ Balanced t' .black k ∧
                  t'.toList = (zip path' (mk s d t p (mk s .red near w far))).toList := by
              cases d with
              | red =>
                exact ih _ path' _ n h₁ (.red (.mk_black ht (.mk_red hnear' hfar')))
                  hpath'.to_black (by rw [root_mk]; exact hpar') (fun hr => by simp at hr)
                  (by omega)
              | black =>
                obtain rfl : path' = path := hd.resolve_left (by decide)
                exact ih _ path' _ (n + 1) h₁ (.black (.mk_black ht (.mk_red hnear' hfar'))) hpath'
                  (by rw [root_mk]; exact hpar') (fun _ => by omega) (by omega)
            rw [root_mk] at hm
            exact ⟨m'', t', k, by rw [if_pos rfl, hm], hw', hk, hl'.trans hlist⟩
          | red =>
            -- The red nephew on the near side is rotated to the far side.
            obtain ⟨a, v, b, rfl, ha, hb⟩ := (hnear.color_eq.symm.trans hnc' ▸ hnear).exists_red s
            rw [if_neg (by decide), root_mk]
            have h₂ : Whole (m'.setColor (some w) .red)
                (zip (⟨s, .red, w, far⟩ :: ⟨s.other, d, p, t⟩ :: path') (mk s .red a v b)) := by
              rw [zip_cons, zip_cons, mk_other]
              exact h₁
            have h₃ : Whole ((m'.setColor (some w) .red).setColor (some v) .black)
                (zip (⟨s.other, d, p, t⟩ :: path')
                  (mk s.other .red far w (mk s.other .black b v a))) := by
              rw [mk_other, mk_other]
              exact setColor_zip _ h₂ .black
            have h₄ := rotate_zip h₃
            rw [mk_other, mk_other, zip_cons, mk_other] at h₄
            have h₅ : Whole _ (zip (⟨s, d, p, mk s .black a v (mk s .red b w far)⟩ :: path') t) :=
              h₄
            obtain ⟨ho, -⟩ := fields_sibling h₅
            rw [ho]
            obtain ⟨t', k, hw', hk, hl'⟩ := deleteRotate_zip h₅ ht ha hb hfar' hpath'
            refine ⟨_, t', k, rfl, hw', hk, hl'.trans ((toList_zip_congr path' _ _ ?_).trans hl)⟩
            cases s <;> simp [mk, toList]

end Njs.RbTree

/-!
## Deletion from a red-black tree

A node with a leaf on one side gives its place to the child on the other side. A node with two
children gives its place to the node that follows it, whose own place its right child takes.
-/

namespace Njs.RbTree

open RedBlack RedBlack.Tree

variable {ι : Type} [DecidableEq ι] {m : Heap ι} {path : List (Frame ι)} {s : Side}
  {c : Color} {l r t : RedBlack.Tree ι} {x y : ι} {n : ℕ}

/-! ### Relinking -/

theorem relink_zip (h : Whole m (zip path (mk s c .leaf x t))) :
    Whole (njsRbtreeParentRelink t.root (some x) m) (zip path t) ∧
      (njsRbtreeParentRelink t.root (some x) m).parent t.root = above path ∧
      ∀ q, q ≠ t.root → (njsRbtreeParentRelink t.root (some x) m).parent q = m.parent q := by
  obtain ⟨hr, hp, hn, hs⟩ := whole_zip.mp h
  obtain ⟨-, -, hpar, -, -, ht⟩ := rep_mk.mp hr
  rw [root_mk] at hp
  obtain ⟨hmk, hpn, hdisj⟩ := (nodup_zip _ _).mp hn
  obtain ⟨-, htn, -, hxt, -⟩ := (nodup_toList_mk ..).mp hmk
  simp only [List.Disjoint, mem_toList_mk] at hdisj
  have hxp : x ∉ pathNodes path := hdisj (.inl rfl)
  rw [njsRbtreeParentRelink_eq hp hxp hpar]
  refine ⟨whole_zip.mpr ⟨?_, ?_, ?_, hs⟩, by simp, fun q hq => by simp [hq]⟩
  · refine ht.reparent htn (fun i hi t' => ?_) (fun i _ => rfl) (fun i _ hne => by simp [hne])
      fun i hi => by simp [hi]
    have hia : some i ≠ above path := fun he =>
      hdisj (.inr (.inr hi)) (above_mem he.symm)
    simp [hia]
  · refine hp.rehang hpn (fun t' q _ ht' => by simp [ht']) (by simp) (fun i hi => ?_) fun i _ => rfl
    have hit : some i ≠ t.root := fun he => hdisj (.inr (.inr (root_mem i he.symm))) hi
    simp [hit]
  · exact (nodup_zip _ _).mpr ⟨htn, hpn, fun i hi hi' => hdisj (.inr (.inr hi)) hi'⟩

theorem moveSubst_zip (h : Whole m (zip path (.node c l x r)))
    (hy : y ∉ (zip path (.node c l x r)).toList) :
    Whole (moveSubst (some y) (some x) m) (zip path (.node c l y r)) ∧
      (l ≠ .leaf → (moveSubst (some y) (some x) m).parent none =
        if r.root = none then some y else m.parent none) := by
  obtain ⟨hrep, hp, hn, hs⟩ := whole_zip.mp h
  obtain ⟨hl, hr, hpar, hc, hrl, hrr⟩ := hrep
  change OnPath m (some x) path at hp
  obtain ⟨hmk, hpn, hdisj⟩ := (nodup_zip _ _).mp hn
  obtain ⟨hln, hrn, hxl, hxr, hlr⟩ := (nodup_toList_mk .left c l r x).mp hmk
  have hmem : ∀ i, i ∈ (node c l x r).toList ↔ i = x ∨ i ∈ l.toList ∨ i ∈ r.toList :=
    mem_toList_mk .left c l r x
  rw [mem_zip, hmem] at hy
  push Not at hy
  obtain ⟨⟨hyx, hyl, hyr⟩, hyp⟩ := hy
  have hdisj' : ∀ {i}, i = x ∨ i ∈ l.toList ∨ i ∈ r.toList → i ∉ pathNodes path :=
    fun hi hi' => hdisj ((hmem _).mpr hi) hi'
  have hxp : x ∉ pathNodes path := hdisj' (.inl rfl)
  have hlx : l.root ≠ some x := fun he => hxl (root_mem x he)
  have hly : l.root ≠ some y := fun he => hyl (root_mem y he)
  have hrx : r.root ≠ some x := fun he => hxr (root_mem x he)
  have hry : r.root ≠ some y := fun he => hyr (root_mem y he)
  have hpx : above path ≠ some x := fun he => hxp (above_mem he)
  have hpy : above path ≠ some y := fun he => hyp (above_mem he)
  -- The memory before the node above is relinked.
  set m₁ := ((((m.setColor (some y) c).setChild .left (some y) l.root).setParent l.root
    (some y)).setChild .right (some y) r.root).setParent r.root (some y) with hm₁
  have hp₁ : OnPath m₁ (some x) path := by
    refine hp.congr (fun i hi => ?_) (by simp [hm₁])
    have hiy : i ≠ y := fun he => hyp (he ▸ hi)
    have hil : some i ≠ l.root := fun he => hdisj' (.inr (.inl (root_mem i he.symm))) hi
    have hir : some i ≠ r.root := fun he => hdisj' (.inr (.inr (root_mem i he.symm))) hi
    exact ⟨fun t => by simp [hm₁, hiy], by simp [hm₁, hil, hir], by simp [hm₁, hiy]⟩
  have hpar₁ : m₁.parent (some x) = above path := by
    simp [hm₁, Ne.symm hlx, Ne.symm hrx, hpar]
  have hmove : moveSubst (some y) (some x) m =
      (m₁.setParent (some y) (above path)).setChild (sideOf path) (above path) (some y) := by
    rw [← njsRbtreeParentRelink_eq hp₁ hxp hpar₁]
    have hxy : (some x : Option ι) ≠ some y := fun he => hyx (Option.some.inj he).symm
    simp only [moveSubst, hc, Heap.child_setColor, hl, Heap.child_setChild, and_self, if_true,
      Heap.child_setParent, hxy, and_false, if_false, hr, ← hm₁]
  rw [hmove]
  set m' := (m₁.setParent (some y) (above path)).setChild (sideOf path) (above path) (some y)
    with hm'
  have hchild : ∀ t i, i ≠ y → ¬(t = sideOf path ∧ some i = above path) →
      m'.child t (some i) = m.child t (some i) := fun t i hiy ht => by
    simp [hm', hm₁, hiy, ht]
  have hcolor : ∀ i, i ≠ y → m'.color (some i) = m.color (some i) := fun i hiy => by
    simp [hm', hm₁, hiy]
  have hparent : ∀ i, i ≠ y → some i ≠ l.root → some i ≠ r.root →
      m'.parent (some i) = m.parent (some i) := fun i hiy hil hir => by
    simp [hm', hm₁, hiy, hil, hir]
  have hsub : ∀ u : RedBlack.Tree ι, u = l ∨ u = r → u.toList.Nodup → y ∉ u.toList →
      Rep m (some x) u → Rep m' (some y) u := fun u hu hun hyu hrep => by
    have hin : ∀ i ∈ u.toList, i = x ∨ i ∈ l.toList ∨ i ∈ r.toList := fun i hi => by
      obtain rfl | rfl := hu
      · exact .inr (.inl hi)
      · exact .inr (.inr hi)
    have hne : ∀ i ∈ u.toList, i ≠ y := fun i hi he => hyu (he ▸ hi)
    refine hrep.reparent hun (fun i hi t => hchild t i (hne i hi) fun ht =>
      hdisj' (hin i hi) (above_mem ht.2.symm)) (fun i hi => hcolor i (hne i hi))
      (fun i hi hroot => hparent i (hne i hi) ?_ ?_) fun i hi => ?_
    · obtain rfl | rfl := hu
      · exact hroot
      · exact fun he => hlr (root_mem i he.symm) hi
    · obtain rfl | rfl := hu
      · exact fun he => hlr hi (root_mem i he.symm)
      · exact hroot
    · have hiy : i ≠ y := hne i (root_mem i hi)
      obtain rfl | rfl := hu <;> simp [hm', hm₁, hiy, hi]
  refine ⟨whole_zip.mpr ⟨⟨?_, ?_, ?_, ?_, hsub l (.inl rfl) hln hyl hrl,
    hsub r (.inr rfl) hrn hyr hrr⟩, ?_, ?_, ?_⟩, fun hleaf => ?_⟩
  · simp [hm', hm₁, Ne.symm hpy]
  · simp [hm', hm₁, Ne.symm hpy]
  · simp [hm']
  · simp [hm', hm₁]
  · refine hp.rehang hpn (fun t q hq ht => ?_) (by simp [hm', root]) (fun i hi => ?_) fun i hi => ?_
    · obtain rfl | ⟨i, hi, rfl⟩ := hq
      · simp only [hm', hm₁, Heap.child_setParent, Heap.child_setChild, if_neg ht]
        simp
      · exact hchild t i (fun he => hyp (he ▸ hi)) ht
    · exact hparent i (fun he => hyp (he ▸ hi))
        (fun he => hdisj' (.inr (.inl (root_mem i he.symm))) hi)
        (fun he => hdisj' (.inr (.inr (root_mem i he.symm))) hi)
    · exact hcolor i fun he => hyp (he ▸ hi)
  · refine (nodup_zip _ _).mpr ⟨(nodup_toList_mk .left c l r y).mpr ⟨hln, hrn, hyl, hyr, hlr⟩, hpn,
      fun i hi hi' => ?_⟩
    obtain rfl | hi | hi := (mem_toList_mk .left c l r y i).mp hi
    · exact hyp hi'
    · exact hdisj' (.inr (.inl hi)) hi'
    · exact hdisj' (.inr (.inr hi)) hi'
  · simp [hm', hm₁, hs]
  · have hlroot : none ≠ l.root := by
      cases l with
      | leaf => exact absurd rfl hleaf
      | node => simp [root]
    simp [hm', hm₁, hlroot, eq_comm]

/-! ### The first node of a subtree -/

omit [DecidableEq ι] in
/-- `njs_rbtree_branch_min` finds the first node of a subtree. -/
theorem branchMin_eq (t : RedBlack.Tree ι) :
    ∀ (p : Option ι) (rounds : ℕ), Rep m p t → t ≠ .leaf → t.toList.length ≤ rounds →
      ∃ fs c y r, t = zip fs (.node c .leaf y r) ∧ t.toList = y :: (zip fs r).toList ∧
        njsRbtreeBranchMin m rounds t.root = some (some y) := by
  induction t with
  | leaf => exact fun _ _ _ hne => absurd rfl hne
  | node c l i r ihl _ =>
    intro p rounds h _ hlt
    obtain ⟨hl, -, -, -, hrl, -⟩ := h
    obtain ⟨rounds, rfl⟩ : ∃ k, rounds = k + 1 := ⟨rounds - 1, by
      simp only [toList, List.length_append, List.length_cons] at hlt
      omega⟩
    rw [root, njsRbtreeBranchMin, hl]
    by_cases hleaf : l = .leaf
    · subst hleaf
      exact ⟨[], c, i, r, rfl, rfl, if_neg (not_not_intro rfl)⟩
    have hroot : l.root ≠ none := by
      cases l with
      | leaf => exact absurd rfl hleaf
      | node => simp [root]
    simp only [toList, List.length_append, List.length_cons] at hlt
    obtain ⟨fs, d, y, u, hz, hlist, hmin⟩ := ihl (some i) rounds hrl hleaf (by omega)
    refine ⟨fs ++ [⟨.left, c, i, r⟩], d, y, u, ?_, ?_, ?_⟩
    · rw [zip_append, ← hz]
      rfl
    · rw [zip_append, toList, hlist]
      rfl
    · rw [if_pos hroot, hmin]

/-! ### Deletion -/

theorem color_njsRbtreeParentRelink (subst node : Option ι) (m : Heap ι) :
    (njsRbtreeParentRelink subst node m).color = m.color := by
  rw [njsRbtreeParentRelink]
  split <;> rfl

theorem erase_middle {l₁ l₂ : List ι} (hn : (l₁ ++ x :: l₂).Nodup) :
    (l₁ ++ x :: l₂).erase x = l₁ ++ l₂ := by
  have hx : x ∉ l₁ := fun hx => List.disjoint_of_nodup_append hn hx List.mem_cons_self
  rw [List.erase_append_right _ hx, List.erase_cons_head]

/-- The end of a deletion: a child has taken the place of a node of the colour `c`. -/
theorem deleteFinish_eq {rounds : ℕ} (h : Whole m (zip path t))
    (hb : Balanced (mk s c .leaf x t) c n) (hp : BalancedPath path c n)
    (hpar : m.parent t.root = above path) (hlt : path.length < rounds) :
    ∃ m' t' k, (if c = .black then njsRbtreeDeleteFixup rounds t.root m else some m) = some m' ∧
      Whole m' t' ∧ Balanced t' .black k ∧ t'.toList = (zip path t).toList := by
  cases c with
  | red =>
    obtain ⟨-, -, ht⟩ := hb.of_mk_red
    obtain ⟨k, hk⟩ := hp.to_black.zip ht
    exact ⟨m, _, k, if_neg (by decide), h, hk, rfl⟩
  | black =>
    obtain ⟨d, e, k, -, rfl, hleaf, ht⟩ := hb.of_mk_black
    cases hleaf
    have hlack : Lacking t 0 := by
      cases e with
      | black => exact .black ht
      | red =>
        obtain ⟨a, i, b, rfl, ha, hb⟩ := ht.exists_red .left
        exact .red (.mk_black ha hb)
    rw [if_pos rfl]
    exact deleteFixup_eq rounds m path t 0 h hlack hp hpar (fun _ => hlt) (by omega)

theorem deleteOne_eq {rounds : ℕ} (h : Whole m (zip path (mk s c .leaf x t)))
    (hb : Balanced (mk s c .leaf x t) c n) (hp : BalancedPath path c n)
    (hlt : path.length < rounds)
    (hsubst : deleteSubst rounds (some x) m = some (some x, t.root)) :
    ∃ m' t' k, njsRbtreeDelete rounds (some x) m = some m' ∧ Whole m' t' ∧
      Balanced t' .black k ∧ t'.toList = (zip path t).toList := by
  obtain ⟨hw, hpar, -⟩ := relink_zip h
  obtain ⟨-, -, -, hc⟩ := fields_mk path h
  obtain ⟨m', t', k, hm, hw', hk, hl⟩ := deleteFinish_eq hw hb hp hpar hlt
  refine ⟨m', t', k, ?_, hw', hk, hl⟩
  rw [njsRbtreeDelete, hsubst]
  simp only [ne_eq, not_true_eq_false, if_false, color_njsRbtreeParentRelink, hc]
  exact hm

theorem deleteTwo_eq {rounds : ℕ} {fs : List (Frame ι)} {d : Color} {u : RedBlack.Tree ι}
    (h : Whole m (zip path (.node c l x (zip fs (.node d .leaf y u)))))
    (hb : Balanced (.node d .leaf y u) d n) (hleaf : l ≠ .leaf)
    (hp : BalancedPath (fs ++ ⟨.right, c, x, l⟩ :: path) d n)
    (hlt : (fs ++ ⟨.right, c, y, l⟩ :: path).length < rounds)
    (hsubst : deleteSubst rounds (some x) m = some (some y, m.child .right (some y))) :
    ∃ m' t' k, njsRbtreeDelete rounds (some x) m = some m' ∧ Whole m' t' ∧
      Balanced t' .black k ∧ t'.toList = (zip path (.node c l y (zip fs u))).toList := by
  have hz : ∀ (i : ι) (v : RedBlack.Tree ι), zip (fs ++ ⟨.right, c, i, l⟩ :: path) v =
      zip path (.node c l i (zip fs v)) := fun i v => by
    rw [zip_append]
    rfl
  have h₁ : Whole m (zip (fs ++ ⟨.right, c, x, l⟩ :: path) (mk .left d .leaf y u)) :=
    (hz x _).symm ▸ h
  obtain ⟨-, hu, -, hd⟩ := fields_mk _ h₁
  change m.child .right (some y) = u.root at hu
  rw [hu] at hsubst
  -- The child takes the place of the following node.
  obtain ⟨hw, hpar, -⟩ := relink_zip h₁
  have hc : (njsRbtreeParentRelink u.root (some y) m).color (some y) = d := by
    rw [color_njsRbtreeParentRelink, hd]
  set m₁ := njsRbtreeParentRelink u.root (some y) m with hm₁
  rw [hz] at hw
  have hnodup : (mk .left d .leaf y u).toList.Nodup ∧
      (pathNodes (fs ++ ⟨.right, c, x, l⟩ :: path)).Nodup ∧
      (mk .left d .leaf y u).toList.Disjoint (pathNodes (fs ++ ⟨.right, c, x, l⟩ :: path)) :=
    (nodup_zip _ _).mp h₁.nodup
  have hy : y ∉ (zip path (.node c l x (zip fs u))).toList := by
    rw [← hz, mem_zip]
    have hyu := ((nodup_toList_mk ..).mp hnodup.1).2.2.2.1
    rintro (hy | hy)
    · exact hyu hy
    · exact hnodup.2.2 ((mem_toList_mk ..).mpr (.inl rfl)) hy
  have hyx : some y ≠ some x := fun he => by
    obtain rfl : y = x := Option.some.inj he
    exact hy ((mem_zip ..).mpr (.inl (by simp [toList])))
  -- The following node takes the place of the deleted one.
  obtain ⟨hw₂, hsent⟩ := moveSubst_zip hw hy
  have hpar₂ : (moveSubst (some y) (some x) m₁).parent u.root =
      above (fs ++ ⟨.right, c, y, l⟩ :: path) := by
    rw [← hz] at hw₂
    cases hroot : u.root with
    | some i => exact parent_zip _ hw₂ hroot
    | none =>
      rw [hsent hleaf]
      cases fs with
      | nil => exact if_pos hroot
      | cons f fs =>
        obtain ⟨i, -, hi⟩ := root_zip_cons fs u f
        rw [hi, if_neg (by simp), ← hroot, hpar]
        rfl
  rw [← hz] at hw₂
  obtain ⟨m', t', k, hm, hw', hk, hl'⟩ :=
    deleteFinish_eq (s := .left) hw₂ hb (hp.rename y) hpar₂ hlt
  refine ⟨m', t', k, ?_, hw', hk, by rw [hl', hz]⟩
  rw [njsRbtreeDelete, hsubst]
  simp only [← hm₁, hc, ne_eq, hyx, not_false_eq_true, if_true]
  exact hm

theorem njsRbtreeDelete_eq {rounds k : ℕ} (h : Whole m t) (hb : Balanced t .black k)
    (hx : x ∈ t.toList) (hlt : t.toList.length < rounds) :
    ∃ m' t' k', njsRbtreeDelete rounds (some x) m = some m' ∧ Whole m' t' ∧
      Balanced t' .black k' ∧ t'.toList = t.toList.erase x := by
  obtain ⟨path, c, l, r, rfl⟩ := exists_zip t hx
  obtain ⟨d, n, hnode, hp⟩ := BalancedPath.of_zip hb
  obtain rfl : c = d := hnode.color_eq
  have hlen : path.length < rounds := Nat.lt_of_le_of_lt (path_length_le path _) hlt
  have hnodup := h.nodup
  rw [toList_zip] at hnodup
  simp only [toList, List.append_assoc, List.cons_append] at hnodup
  have herase : (zip path (.node c l x r)).toList.erase x =
      before path ++ (l.toList ++ (r.toList ++ after path)) := by
    rw [toList_zip]
    simp only [toList, List.append_assoc, List.cons_append]
    rw [← List.append_assoc (before path), erase_middle (by rwa [List.append_assoc]),
      List.append_assoc]
  rw [herase]
  obtain ⟨hcl, hcr, -, -, -, hrr⟩ := (whole_zip.mp h).1
  by_cases hl : l = .leaf
  · subst hl
    obtain ⟨m', t', k', hm, hw, hk, hlist⟩ := deleteOne_eq (s := .left) h hnode hp hlen
      (by rw [deleteSubst, hcl, hcr]; rfl)
    exact ⟨m', t', k', hm, hw, hk, by rw [hlist, toList_zip]; rfl⟩
  have hlroot : l.root ≠ none := by
    cases l with
    | leaf => exact absurd rfl hl
    | node => simp [root]
  by_cases hr : r = .leaf
  · subst hr
    obtain ⟨m', t', k', hm, hw, hk, hlist⟩ := deleteOne_eq (s := .right) h hnode hp hlen
      (by rw [deleteSubst, hcl, if_neg hlroot, hcr]; rfl)
    exact ⟨m', t', k', hm, hw, hk, by rw [hlist, toList_zip]; rfl⟩
  have hrroot : r.root ≠ none := by
    cases r with
    | leaf => exact absurd rfl hr
    | node => simp [root]
  have hrlen : r.toList.length ≤ rounds := by
    rw [toList_zip] at hlt
    simp only [toList, List.length_append, List.length_cons] at hlt
    omega
  obtain ⟨fs, d, y, u, hz, hrlist, hmin⟩ := branchMin_eq r _ rounds hrr hr hrlen
  subst hz
  have hsplit : zip path (.node c l x (zip fs (.node d .leaf y u))) =
      zip (fs ++ ⟨.right, c, x, l⟩ :: path) (.node d .leaf y u) := by
    rw [zip_append]
    rfl
  obtain ⟨e, n', hnode', hp'⟩ := BalancedPath.of_zip (hsplit ▸ hb)
  obtain rfl : d = e := hnode'.color_eq
  have hlen' : (fs ++ ⟨.right, c, y, l⟩ :: path).length < rounds := by
    have := path_length_le (fs ++ ⟨.right, c, x, l⟩ :: path) (.node d .leaf y u)
    rw [← hsplit] at this
    simp only [List.length_append, List.length_cons] at this ⊢
    omega
  obtain ⟨m', t', k', hm, hw, hk, hlist⟩ := deleteTwo_eq h hnode' hl hp' hlen'
    (by rw [deleteSubst, hcl, if_neg hlroot, hcr, if_neg hrroot, hmin])
  refine ⟨m', t', k', hm, hw, hk, ?_⟩
  rw [hlist, toList_zip, hrlist]
  simp only [toList, List.append_assoc, List.cons_append]

end Njs.RbTree
