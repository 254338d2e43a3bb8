import Njs.RbTree.Nodes

/-!
# Insertion into a red-black tree

The descent ends at a leaf between the nodes that are not greater than the new one and those that
are greater. The new node is red; the fix-up moves a red node with a red parent up, until two
rotations at most end it.
-/

namespace Njs.RbTree

open RedBlack RedBlack.Tree

variable {ι κ : Type} [DecidableEq ι] {m : Heap ι} {path : List (Frame ι)} {s : Side}
  {a b t u : RedBlack.Tree ι} {x p g : ι} {n : ℕ}

/-! ### The fix-up -/

theorem insertRotate_end {v w : RedBlack.Tree ι}
    (h : Whole m (zip path (mk s .black (mk s .red v x w) g u))) :
    Whole (rotate s.other (some g) ((m.setColor (some x) .black).setColor (some g) .red))
      (zip path (mk s.other .black (mk s.other .red u g w) x v)) := by
  have h₁ := setColor_zip (⟨s, .black, g, u⟩ :: path) h .black
  have h₂ := setColor_zip path h₁ .red
  refine rotate_zip ?_
  rw [mk_other, mk_other]
  exact h₂

theorem insertRotate_zip {s₁ : Side} {sib : RedBlack.Tree ι}
    (h : Whole m (zip (⟨s₁, .red, p, sib⟩ :: ⟨s, .black, g, u⟩ :: path) t))
    (hx : t.root = some x) (ht : Balanced t .red n) (hsib : Balanced sib .black n)
    (hu : Balanced u .black n) :
    ∃ t', Whole (insertRotate s (some x) (some p) (some g) m) (zip path t') ∧
      t'.toList = (zip [⟨s₁, .red, p, sib⟩, ⟨s, .black, g, u⟩] t).toList ∧
      Balanced t' .black (n + 1) := by
  obtain ⟨hps, hpo, -, -⟩ := fields_mk (⟨s, .black, g, u⟩ :: path) h
  have hsib' : some x ≠ sib.root := hx ▸ root_ne h.nodup hx
  rw [insertRotate]
  obtain rfl | rfl := s.eq_or_eq_other s₁
  · -- The node is on the outer side.
    rw [hx] at hps
    rw [if_neg fun he => hsib' (he.trans hpo)]
    simp only
    rw [parent_zip (⟨s₁, .red, p, sib⟩ :: ⟨s₁, .black, g, u⟩ :: path) h hx, above]
    refine ⟨_, insertRotate_end h, ?_, .mk_black (.mk_red hu hsib) ht⟩
    cases s₁ <;> simp [mk, toList, zip, Side.other]
  -- The node is on the inner side: another rotation brings it out.
  rw [hx] at hps
  obtain ⟨a, i, b, rfl, ha, hb⟩ := ht.exists_red s
  obtain rfl : i = x := by simpa using hx
  rw [if_pos hps.symm]
  have h₁ : Whole m (zip (⟨s, .black, g, u⟩ :: path) (mk s .red sib p (mk s .red a i b))) := by
    rw [← mk_other]
    exact h
  have h₂ := rotate_zip h₁
  simp only
  rw [parent_zip (⟨s, .red, i, b⟩ :: ⟨s, .black, g, u⟩ :: path) h₂ (root_mk ..), above]
  refine ⟨_, insertRotate_end h₂, ?_, .mk_black (.mk_red hu hb) (.mk_red hsib ha)⟩
  cases s <;> simp [mk, toList, zip, Side.other]

theorem insertFixup_eq (rounds : ℕ) :
    ∀ (m : Heap ι) (path : List (Frame ι)) (t : RedBlack.Tree ι) (x : ι) (n : ℕ),
      Whole m (zip path t) → t.root = some x → Balanced t .red n → BalancedPath path .black n →
        path.length < rounds →
      ∃ m' t', njsRbtreeInsertFixup rounds (some x) m = some m' ∧ Whole m' t' ∧
        t'.toList = (zip path t).toList ∧ ∃ c k, Balanced t' c k := by
  induction rounds with
  | zero => exact fun _ _ _ _ _ _ _ _ _ hlt => absurd hlt (Nat.not_lt_zero _)
  | succ rounds ih =>
    intro m path t x n h hx ht hp hlt
    rw [njsRbtreeInsertFixup, parent_zip _ h hx]
    cases hp with
    | nil => exact ⟨m, t, if_pos h.sentinel, h, rfl, _, _, ht⟩
    | @black s p u path _ _ _ hu hp =>
      obtain ⟨k, hk⟩ := hp.zip (.mk_black ht hu)
      obtain ⟨-, -, -, hc⟩ := fields_mk _ h
      exact ⟨m, _, if_pos hc, h, rfl, _, _, hk⟩
    | @red s₁ p sib path _ hsib hp =>
      obtain ⟨-, -, hpar, hc⟩ := fields_mk _ h
      obtain ⟨s, g, u, d, path, rfl, hu, hp'⟩ := hp.exists_black
      have hc' : m.color (some p) ≠ .black := hc.trans_ne (by decide : Color.red ≠ .black)
      have h₁ : Whole m (zip (⟨s, .black, g, u⟩ :: path) (mk s₁ .red t p sib)) := h
      obtain ⟨-, ho, -, -⟩ := fields_mk path h₁
      have hcu : m.color u.root = d :=
        (color_zip (⟨s.other, .black, g, mk s₁ .red t p sib⟩ :: path) (t := u)
          (by rw [zip_cons, mk_other]; exact h₁)).trans hu.color_eq
      have hside := side_eq h₁ (root_ne h₁.nodup (root_mk ..))
      rw [root_mk] at hside
      simp only [above] at hpar ⊢
      simp only [if_neg hc', hpar, hside, ho, hcu]
      cases d with
      | black =>
        obtain ⟨t', hw, hl, hb⟩ := insertRotate_zip h hx ht hsib hu
        obtain ⟨k, hk⟩ := hp'.zip hb
        refine ⟨_, _, if_pos rfl, hw, ?_, _, _, hk⟩
        rw [toList_zip_congr _ _ _ hl]
        rfl
      | red =>
        -- The red moves up from the parent and the uncle to the grandparent.
        obtain ⟨ul, i, ur, rfl, hul, hur⟩ := hu.exists_red s
        rw [if_neg (by decide), root_mk]
        have h₂ : Whole m (zip (⟨s.other, .black, g, mk s₁ .red t p sib⟩ :: path)
            (mk s .red ul i ur)) := by
          rw [zip_cons, mk_other]
          exact h₁
        have h₃ : Whole (m.setColor (some i) .black) (zip (⟨s, .black, g, mk s .black ul i ur⟩ ::
            path) (mk s₁ .red t p sib)) := by
          have := setColor_zip _ h₂ .black
          rw [zip_cons, mk_other] at this
          exact this
        have h₄ := setColor_zip path (setColor_zip _ h₃ .black) .red
        obtain ⟨m', t', hm', hw, hl, hb⟩ := ih _ path _ g (n + 1) h₄ (root_mk ..)
          (.mk_red (.mk_black ht hsib) (.mk_black hul hur)) hp' (by simp at hlt; omega)
        refine ⟨m', t', hm', hw, hl.trans ?_, hb⟩
        refine toList_zip_congr _ _ _ ?_
        cases s <;> cases s₁ <;> simp [mk, toList]

/-! ### The descent -/

/-- A comparison that orders the keys, up to ties. -/
structure TotalPreorder (compare : κ → κ → ℤ) : Prop where
  symm : ∀ k l, compare k l < 0 ↔ 0 < compare l k
  trans : ∀ k l j, compare k l ≤ 0 → compare l j ≤ 0 → compare k j ≤ 0

def InOrder (compare : κ → κ → ℤ) (key : ι → κ) (l : List ι) : Prop :=
  l.Pairwise fun i j => compare (key i) (key j) ≤ 0

variable {compare : κ → κ → ℤ} {key : ι → κ}

omit [DecidableEq ι] in
theorem insertLoop_eq (hcmp : TotalPreorder compare) (newNode : ι) (t : RedBlack.Tree ι) :
    ∀ (path : List (Frame ι)) (rounds : ℕ) (node : Option ι), Whole m (zip path t) →
      InOrder compare key (zip path t).toList →
      (∀ j ∈ before path, compare (key j) (key newNode) ≤ 0) →
      (∀ j ∈ after path, compare (key newNode) (key j) ≤ 0) →
      (t = .leaf → node = above path) → t.toList.length < rounds →
      ∃ path', zip path' .leaf = zip path t ∧
        insertLoop compare key newNode m rounds node (above path, sideOf path) =
          some (above path', above path', sideOf path') ∧
        (∀ j ∈ before path', compare (key j) (key newNode) ≤ 0) ∧
        ∀ j ∈ after path', compare (key newNode) (key j) ≤ 0 := by
  induction t with
  | leaf =>
    intro path rounds node h _ hb ha hnode hlt
    obtain ⟨rounds, rfl⟩ : ∃ k, rounds = k + 1 := ⟨rounds - 1, by simp at hlt; omega⟩
    refine ⟨path, rfl, ?_, hb, ha⟩
    rw [insertLoop, (whole_zip.mp h).2.1.hole_eq, hnode rfl]
    rfl
  | node c l i r ihl ihr =>
    intro path rounds node h hord hb ha _ hlt
    obtain ⟨rounds, rfl⟩ : ∃ k, rounds = k + 1 := ⟨rounds - 1, by omega⟩
    simp only [toList, List.length_append, List.length_cons] at hlt
    have hsub : InOrder compare key (l.toList ++ i :: r.toList) := by
      rw [toList_zip] at hord
      exact (List.pairwise_append.mp (List.pairwise_append.mp hord).2.1).1
    obtain ⟨-, hir, hli⟩ := List.pairwise_append.mp hsub
    rw [insertLoop, (whole_zip.mp h).2.1.hole_eq]
    simp only [root]
    by_cases hlt' : compare (key newNode) (key i) < 0
    · -- The node and what is right of it come after.
      rw [if_pos hlt']
      refine ihl (⟨.left, c, i, r⟩ :: path) rounds (some i) h hord hb (fun j hj => ?_)
        (fun _ => rfl) (by omega)
      simp only [after, List.mem_cons, List.mem_append] at hj
      obtain rfl | hj | hj := hj
      · omega
      · exact hcmp.trans _ (key i) _ (by omega) ((List.pairwise_cons.mp hir).1 j hj)
      · exact ha j hj
    -- The node and what is left of it come before.
    have hge : compare (key i) (key newNode) ≤ 0 := by
      have := hcmp.symm (key newNode) (key i)
      omega
    rw [if_neg hlt']
    refine ihr (⟨.right, c, i, l⟩ :: path) rounds (some i) h hord (fun j hj => ?_) ha
      (fun _ => rfl) (by omega)
    simp only [before, List.mem_append, List.mem_cons, List.not_mem_nil, or_false] at hj
    obtain hj | hj | rfl := hj
    · exact hb j hj
    · exact hcmp.trans _ (key i) _ (hli j hj i List.mem_cons_self) hge
    · exact hge

theorem attach_zip (h : Whole m (zip path .leaf)) (hx : x ∉ (zip path .leaf).toList)
    (hchild : ∀ s, m.child s (some x) = none) (hc : m.color (some x) = .red) :
    Whole ((m.setChild (sideOf path) (above path) (some x)).setParent (some x) (above path))
      (zip path (.node .red .leaf x .leaf)) := by
  obtain ⟨-, hp, hn, hs⟩ := whole_zip.mp h
  obtain ⟨-, hpn, -⟩ := (nodup_zip _ _).mp hn
  have hxp : x ∉ pathNodes path := fun hx' => hx ((mem_zip ..).mpr (.inr hx'))
  have hpx : above path ≠ some x := fun hx' => hxp (above_mem hx')
  refine whole_zip.mpr ⟨⟨?_, ?_, ?_, hc, trivial, trivial⟩, ?_, ?_, hs⟩
  · simp [hchild, Ne.symm hpx]
  · simp [hchild, Ne.symm hpx]
  · simp
  · refine hp.rehang hpn (fun t q _ ht => ?_) (by simp [root]) (fun i hi => ?_) fun i hi => rfl
    · simp [ht]
    · have hix : i ≠ x := fun hx' => hxp (hx' ▸ hi)
      simp [hix]
  · rw [nodup_zip]
    exact ⟨List.nodup_singleton x, hpn, by simpa [toList] using hxp⟩

theorem setColor_root (h : Whole m t) :
    ∃ t', Whole (m.setColor (njsRbtreeRoot m) .black) t' ∧ t'.toList = t.toList ∧
      ∀ c k, Balanced t c k → ∃ k', Balanced t' .black k' := by
  cases t with
  | leaf =>
    have hroot : njsRbtreeRoot m = none := h.top
    refine ⟨.leaf, h.congr (by simp) rfl ?_, rfl, fun c k hb => ⟨0, .leaf⟩⟩
    rw [hroot, h.sentinel]
    simp
  | node c l i r =>
    have hroot : njsRbtreeRoot m = some i := h.top
    rw [hroot]
    refine ⟨_, setColor_zip [] (s := .left) h .black, rfl, fun c k hb => ?_⟩
    cases hb with
    | red hl hr => exact ⟨_, .black hl hr⟩
    | black hl hr => exact ⟨_, .black hl hr⟩

theorem njsRbtreeInsert_eq (hcmp : TotalPreorder compare) {rounds k : ℕ} (h : Whole m t)
    (hb : Balanced t .black k) (hord : InOrder compare key t.toList) (hx : x ∉ t.toList)
    (hlt : t.toList.length < rounds) :
    ∃ m' t' l₁ l₂ k', njsRbtreeInsert compare key rounds x m = some m' ∧ Whole m' t' ∧
      Balanced t' .black k' ∧ t.toList = l₁ ++ l₂ ∧ t'.toList = l₁ ++ x :: l₂ ∧
      InOrder compare key t'.toList := by
  set m₁ := ((m.setChild .left (some x) none).setChild .right (some x) none).setColor (some x)
    .red with hm₁
  have hw₁ : Whole m₁ t := by
    refine h.congr (fun i hi => ?_) (by simp [hm₁]) (by simp [hm₁])
    have hix : i ≠ x := fun hx' => hx (hx' ▸ hi)
    exact ⟨fun s => by simp [hm₁, hix], by simp [hm₁], by simp [hm₁, hix]⟩
  obtain ⟨path, hzip, hloop, hbef, haft⟩ := insertLoop_eq (m := m₁) hcmp x t [] rounds
    (njsRbtreeRoot m) hw₁ hord (by simp [before]) (by simp [after])
    (fun ht => by rw [njsRbtreeRoot, h.top, ht]; rfl) hlt
  change zip path .leaf = t at hzip
  subst hzip
  have hw₂ := attach_zip hw₁ hx (fun s => by cases s <;> simp [hm₁]) (by simp [hm₁])
  obtain ⟨c, n, hleaf, hpath⟩ := BalancedPath.of_zip hb
  cases hleaf
  have hlen : path.length < rounds := by
    have := path_length_le path .leaf
    omega
  obtain ⟨m₃, t₃, hm₃, hw₃, hl₃, c₃, k₃, hb₃⟩ := insertFixup_eq rounds _ path _ x 0 hw₂ rfl
    (.red .leaf .leaf) hpath hlen
  obtain ⟨t', hw', hl', hb'⟩ := setColor_root hw₃
  obtain ⟨k', hk'⟩ := hb' _ _ hb₃
  have hlist : t'.toList = before path ++ x :: after path := by
    rw [hl', hl₃, toList_zip]
    rfl
  have hold : (zip path .leaf).toList = before path ++ after path := by
    rw [toList_zip]
    rfl
  refine ⟨_, t', before path, after path, k', ?_, hw', hk', hold, hlist, ?_⟩
  · change insertLoop compare key x m₁ rounds (njsRbtreeRoot m) (none, .left) = _ at hloop
    simp only [njsRbtreeInsert, ← hm₁, hloop, hm₃]
  rw [hold] at hord
  obtain ⟨h₁, h₂, h₁₂⟩ := List.pairwise_append.mp hord
  rw [hlist]
  refine List.pairwise_append.mpr ⟨h₁, List.pairwise_cons.mpr ⟨haft, h₂⟩, fun i hi j hj => ?_⟩
  obtain rfl | hj := List.mem_cons.mp hj
  · exact hbef i hi
  · exact h₁₂ i hi j hj

end Njs.RbTree
