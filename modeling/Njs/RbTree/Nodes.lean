import Mathlib.Data.Int.Notation
import Njs.Lib.TreeHeap

/-!
# Red-black trees

The trees of `njs_rbtree.c` and `njs_rbtree.h`. A pointer is the sentinel of the tree or a node.
The colour of a node is a byte of its memory, and so is its key, which only the comparison looks
at. The left child of the sentinel is the root; its right child holds the comparison.

The loops end after so many rounds, with no result if the rounds do not suffice. Two branches of
the source that are mirror images of each other are one branch about a side.
-/

namespace Njs.RbTree

open RedBlack

variable {ι κ : Type} [DecidableEq ι]

def njsRbtreeRoot (m : Heap ι) : Option ι := m.child .left none

def njsRbtreeInit (m : Heap ι) : Heap ι := (m.setChild .left none none).setColor none .black

def njsRbtreeParentRelink (subst node : Option ι) (m : Heap ι) : Heap ι :=
  let parent := m.parent node
  let m := m.setParent subst parent
  if m.child .left parent = node then m.setChild .left parent subst
  else m.setChild .right parent subst

/-- `njs_rbtree_left_rotate` on the left side, and its mirror image on the right side. -/
def rotate (s : Side) (node : Option ι) (m : Heap ι) : Heap ι :=
  let child := m.child s.other node
  let m := m.setChild s.other node (m.child s child)
  let m := m.setParent (m.child s child) node
  let m := m.setChild s child node
  let m := njsRbtreeParentRelink child node m
  m.setParent node child

def njsRbtreeLeftRotate (node : Option ι) (m : Heap ι) : Heap ι := rotate .left node m

def njsRbtreeRightRotate (node : Option ι) (m : Heap ι) : Heap ι := rotate .right node m

/-! ### Insertion -/

/-- The end of `njs_rbtree_insert_fixup` with a black uncle, for a parent on a side. -/
def insertRotate (side : Side) (node parent grandparent : Option ι) (m : Heap ι) : Heap ι :=
  let (node, m) :=
    if node = m.child side.other parent then (parent, rotate side parent m) else (node, m)
  let parent := m.parent node
  let m := m.setColor parent .black
  let m := m.setColor grandparent .red
  rotate side.other grandparent m

def njsRbtreeInsertFixup : ℕ → Option ι → Heap ι → Option (Heap ι)
  | 0, _, _ => none
  | rounds + 1, node, m =>
    let parent := m.parent node
    if m.color parent = .black then some m
    else
      let grandparent := m.parent parent
      let side := if parent = m.child .left grandparent then Side.left else Side.right
      let uncle := m.child side.other grandparent
      if m.color uncle = .black then some (insertRotate side node parent grandparent m)
      else
        let m := m.setColor uncle .black
        let m := m.setColor parent .black
        let m := m.setColor grandparent .red
        njsRbtreeInsertFixup rounds grandparent m

/-- The loop that descends from a link, given by its owner and side: the last node on the way and
the link that ends it. -/
def insertLoop (compare : κ → κ → ℤ) (key : ι → κ) (newNode : ι) (m : Heap ι) :
    ℕ → Option ι → Option ι × Side → Option (Option ι × Option ι × Side)
  | 0, _, _ => none
  | rounds + 1, node, child =>
    match m.child child.2 child.1 with
    | none => some (node, child)
    | some i =>
      insertLoop compare key newNode m rounds (some i)
        (some i, if compare (key newNode) (key i) < 0 then .left else .right)

def njsRbtreeInsert (compare : κ → κ → ℤ) (key : ι → κ) (rounds : ℕ) (newNode : ι) (m : Heap ι) :
    Option (Heap ι) :=
  let node := njsRbtreeRoot m
  let m := m.setChild .left (some newNode) none
  let m := m.setChild .right (some newNode) none
  let m := m.setColor (some newNode) .red
  match insertLoop compare key newNode m rounds node (none, .left) with
  | none => none
  | some (node, child) =>
    let m := m.setChild child.2 child.1 (some newNode)
    let m := m.setParent (some newNode) node
    match njsRbtreeInsertFixup rounds (some newNode) m with
    | none => none
    | some m => some (m.setColor (njsRbtreeRoot m) .black)

/-! ### Traversal -/

def njsRbtreeBranchMin (m : Heap ι) : ℕ → Option ι → Option (Option ι)
  | 0, _ => none
  | rounds + 1, node =>
    if m.child .left node ≠ none then njsRbtreeBranchMin m rounds (m.child .left node)
    else some node

def njsRbtreeMin (m : Heap ι) (rounds : ℕ) : Option (Option ι) := njsRbtreeBranchMin m rounds none

/-- The loop of `njs_rbtree_node_successor`. -/
def successorLoop (m : Heap ι) : ℕ → Option ι → Option (Option ι)
  | 0, _ => none
  | rounds + 1, node =>
    let parent := m.parent node
    if node = m.child .left parent then some parent else successorLoop m rounds parent

def njsRbtreeNodeSuccessor (m : Heap ι) (rounds : ℕ) (node : Option ι) : Option (Option ι) :=
  if m.child .right node ≠ none then njsRbtreeBranchMin m rounds (m.child .right node)
  else successorLoop m rounds node

/-! ### Deletion -/

/-- The last steps of `njs_rbtree_delete_fixup`, for a node on a side of its parent whose sibling
has a red child on the other side. -/
def deleteRotate (s : Side) (parent sibling : Option ι) (m : Heap ι) : Heap ι :=
  let m := m.setColor sibling (m.color parent)
  let m := m.setColor parent .black
  let m := m.setColor (m.child s.other sibling) .black
  rotate s parent m

def blackSibling (s : Side) (parent : Option ι) (m : Heap ι) : Option ι × Heap ι :=
  let sibling := m.child s.other parent
  if m.color sibling ≠ .black then
    let m := m.setColor sibling .black
    let m := m.setColor parent .red
    let m := rotate s parent m
    (m.child s.other parent, m)
  else (sibling, m)

def njsRbtreeDeleteFixup : ℕ → Option ι → Heap ι → Option (Heap ι)
  | 0, _, _ => none
  | rounds + 1, node, m =>
    if node ≠ njsRbtreeRoot m ∧ m.color node = .black then
      let parent := m.parent node
      let s := if node = m.child .left parent then Side.left else Side.right
      let (sibling, m) := blackSibling s parent m
      if m.color (m.child s.other sibling) = .black then
        let m := m.setColor sibling .red
        if m.color (m.child s sibling) = .black then njsRbtreeDeleteFixup rounds parent m
        else
          let m := m.setColor (m.child s sibling) .black
          let m := rotate s.other sibling m
          some (deleteRotate s parent (m.child s.other parent) m)
      else some (deleteRotate s parent sibling m)
    else some (m.setColor node .black)

/-- `subst` comes into the place of `node`. -/
def moveSubst (subst node : Option ι) (m : Heap ι) : Heap ι :=
  let m := m.setColor subst (m.color node)
  let m := m.setChild .left subst (m.child .left node)
  let m := m.setParent (m.child .left subst) subst
  let m := m.setChild .right subst (m.child .right node)
  let m := m.setParent (m.child .right subst) subst
  njsRbtreeParentRelink subst node m

/-- The node that `njs_rbtree_delete` takes out of its place, and its child. -/
def deleteSubst (rounds : ℕ) (node : Option ι) (m : Heap ι) : Option (Option ι × Option ι) :=
  if m.child .left node = none then some (node, m.child .right node)
  else if m.child .right node = none then some (node, m.child .left node)
  else
    match njsRbtreeBranchMin m rounds (m.child .right node) with
    | none => none
    | some subst => some (subst, m.child .right subst)

def njsRbtreeDelete (rounds : ℕ) (node : Option ι) (m : Heap ι) : Option (Heap ι) :=
  match deleteSubst rounds node m with
  | none => none
  | some (subst, child) =>
    let m := njsRbtreeParentRelink child subst m
    let color := m.color subst
    let m := if subst ≠ node then moveSubst subst node m else m
    if color = .black then njsRbtreeDeleteFixup rounds child m else some m

end Njs.RbTree

/-!
## Moves in a red-black tree

What one write of a colour, one rotation and one relinking do to the tree that the memory holds.
-/

namespace Njs.RbTree

open RedBlack RedBlack.Tree

variable {ι : Type} [DecidableEq ι] {m m' : Heap ι} {path : List (Frame ι)} {s : Side}
  {c d : Color} {a b e t : RedBlack.Tree ι} {x y : ι}

omit [DecidableEq ι] in
theorem fields_mk (path : List (Frame ι)) (h : Whole m (zip path (mk s c a x b))) :
    m.child s (some x) = a.root ∧ m.child s.other (some x) = b.root ∧
      m.parent (some x) = above path ∧ m.color (some x) = c := by
  obtain ⟨hl, ho, hp, hc, -, -⟩ := rep_mk.mp (whole_zip.mp h).1
  exact ⟨hl, ho, hp, hc⟩

omit [DecidableEq ι] in
theorem color_zip (path : List (Frame ι)) (h : Whole m (zip path t)) : m.color t.root = t.color :=
  (whole_zip.mp h).1.color_root h.sentinel

omit [DecidableEq ι] in
theorem parent_zip (path : List (Frame ι)) (h : Whole m (zip path t)) (hx : t.root = some x) :
    m.parent (some x) = above path :=
  hx ▸ (whole_zip.mp h).1.parent_root hx

omit [DecidableEq ι] in
theorem root_ne (hn : (zip (⟨s, c, x, b⟩ :: path) a).toList.Nodup) (ha : a.root = some y) :
    a.root ≠ b.root := fun he => by
  have hdisj := ((nodup_zip _ _).mp hn).2.2
  rw [pathNodes, List.disjoint_cons_right, List.disjoint_append_right] at hdisj
  exact hdisj.2.1 (root_mem y ha) (root_mem y (he ▸ ha))

theorem side_eq (h : Whole m (zip (⟨s, c, x, b⟩ :: path) a)) (hne : a.root ≠ b.root) :
    (if a.root = m.child .left (some x) then Side.left else Side.right) = s := by
  obtain ⟨hs, ho, -, -⟩ := fields_mk _ h
  cases s with
  | left => exact if_pos hs.symm
  | right => exact if_neg fun he => hne (he.trans ho)

theorem setColor_zip (path : List (Frame ι)) (h : Whole m (zip path (mk s c a x b))) (d : Color) :
    Whole (m.setColor (some x) d) (zip path (mk s d a x b)) := by
  obtain ⟨hr, hp, hn, hs⟩ := whole_zip.mp h
  obtain ⟨hl, ho, hpar, -, ha, hb⟩ := rep_mk.mp hr
  obtain ⟨hmk, -, hdisj⟩ := (nodup_zip _ _).mp hn
  obtain ⟨-, -, hxa, hxb, -⟩ := (nodup_toList_mk ..).mp hmk
  have hsame : ∀ i, i ≠ x → Same m (m.setColor (some x) d) i := fun i hi =>
    ⟨fun _ => rfl, rfl, by simp [hi]⟩
  refine whole_zip.mpr ⟨rep_mk.mpr ⟨hl, ho, hpar, by simp, ha.congr fun i hi => hsame i ?_,
    hb.congr fun i hi => hsame i ?_⟩, ?_, ?_, by simpa using hs⟩
  · rintro rfl
    exact hxa hi
  · rintro rfl
    exact hxb hi
  · rw [root_mk] at hp ⊢
    refine hp.congr (fun i hi => hsame i ?_) rfl
    rintro rfl
    exact hdisj ((mem_toList_mk ..).mpr (.inl rfl)) hi
  · rw [← toList_zip_congr _ _ _ (toList_mk_color s c d a b x)]
    exact hn

theorem njsRbtreeParentRelink_eq (hp : OnPath m (some x) path) (hx : x ∉ pathNodes path)
    (hpar : m.parent (some x) = above path) (subst : Option ι) :
    njsRbtreeParentRelink subst (some x) m =
      (m.setParent subst (above path)).setChild (sideOf path) (above path) subst := by
  rw [njsRbtreeParentRelink, hpar]
  simp only [Heap.child_setParent]
  cases path with
  | nil => exact if_pos hp
  | cons f path =>
    obtain ⟨s, c, i, u⟩ := f
    obtain ⟨hs, ho, -⟩ := hp
    cases s with
    | left => exact if_pos hs
    | right =>
      refine if_neg fun he => hx ?_
      have hroot : u.root = some x := ho.symm.trans he
      exact List.mem_cons_of_mem _ (List.mem_append_left _ (root_mem x hroot))

theorem rotate_zip (h : Whole m (zip path (mk s c a x (mk s d b y e)))) :
    Whole (rotate s (some x) m) (zip path (mk s d (mk s c a x b) y e)) := by
  obtain ⟨hr, hp, hn, hs⟩ := whole_zip.mp h
  obtain ⟨hxs, hxo, hxp, hxc, ha, hr'⟩ := rep_mk.mp hr
  obtain ⟨hys, hyo, -, hyc, hb, he⟩ := rep_mk.mp hr'
  rw [root_mk] at hp hxo
  obtain ⟨hmk, hpn, hdisj⟩ := (nodup_zip _ _).mp hn
  obtain ⟨han, hmk', hxa, hxmk, hdisja⟩ := (nodup_toList_mk ..).mp hmk
  obtain ⟨hbn, hen, hyb, hye, hdisjb⟩ := (nodup_toList_mk ..).mp hmk'
  simp only [List.Disjoint, mem_toList_mk] at hdisj hdisja hxmk
  push Not at hxmk
  obtain ⟨hxy, hxb, hxe⟩ := hxmk
  have hxpath : x ∉ pathNodes path := hdisj (.inl rfl)
  have hypath : y ∉ pathNodes path := hdisj (.inr (.inr (.inl rfl)))
  have hbx : b.root ≠ some x := fun hb' => hxb (root_mem x hb')
  have hby : b.root ≠ some y := fun hb' => hyb (root_mem y hb')
  have hpx : above path ≠ some x := fun hx' => hxpath (above_mem hx')
  have hpy : above path ≠ some y := fun hy' => hypath (above_mem hy')
  have hbpath : ∀ i ∈ pathNodes path, some i ≠ b.root := fun i hi hb' =>
    hdisj (.inr (.inr (.inr (.inl (root_mem i hb'.symm))))) hi
  -- The memory before the node above is relinked.
  set m₃ := ((m.setChild s.other (some x) b.root).setParent b.root (some x)).setChild s (some y)
    (some x) with hm₃
  have hp₃ : OnPath m₃ (some x) path := by
    refine hp.congr (fun i hi => ⟨fun t => ?_, ?_, rfl⟩) (by simp [hm₃])
    · have hix : i ≠ x := fun hx' => hxpath (hx' ▸ hi)
      have hiy : i ≠ y := fun hy' => hypath (hy' ▸ hi)
      simp [hm₃, hix, hiy]
    · simp [hm₃, hbpath i hi]
  have hpar₃ : m₃.parent (some x) = above path := by
    simp [hm₃, Ne.symm hbx, hxp]
  have hrot : rotate s (some x) m =
      ((m₃.setParent (some y) (above path)).setChild (sideOf path) (above path)
        (some y)).setParent (some x) (some y) := by
    rw [← njsRbtreeParentRelink_eq hp₃ hxpath hpar₃]
    have hyx : some y ≠ some x := fun hy' => hxy (Option.some.inj hy').symm
    simp only [rotate, hxo, hys, Heap.child_setChild, hyx, and_false, if_false, ← hm₃]
  rw [hrot]
  set m' := ((m₃.setParent (some y) (above path)).setChild (sideOf path) (above path)
    (some y)).setParent (some x) (some y) with hm'
  have hchild : ∀ t i, i ≠ x → i ≠ y → ¬(t = sideOf path ∧ some i = above path) →
      m'.child t (some i) = m.child t (some i) := fun t i hix hiy ht => by
    simp [hm', hm₃, hix, hiy, ht]
  have hparent : ∀ i, i ≠ x → i ≠ y → some i ≠ b.root → m'.parent (some i) = m.parent (some i) :=
    fun i hix hiy hib => by
      simp [hm', hm₃, hix, hiy, hib]
  -- A subtree whose nodes are neither on the path nor turned.
  have hsub : ∀ u : RedBlack.Tree ι, x ∉ u.toList → y ∉ u.toList →
      (∀ i ∈ u.toList, i ∉ pathNodes path) → (∀ i ∈ u.toList, i ∉ b.toList) → ∀ q,
      Rep m q u → Rep m' q u := fun u hxu hyu hpu hbu q hu => by
    refine hu.congr fun i hi => ?_
    have hix : i ≠ x := fun hx' => hxu (hx' ▸ hi)
    have hiy : i ≠ y := fun hy' => hyu (hy' ▸ hi)
    exact ⟨fun t => hchild t i hix hiy fun ht => hpu i hi (above_mem ht.2.symm),
      hparent i hix hiy fun hb' => hbu i hi (root_mem i hb'.symm), rfl⟩
  refine whole_zip.mpr
    ⟨rep_mk.mpr ⟨?_, ?_, ?_, ?_, rep_mk.mpr ⟨?_, ?_, ?_, ?_, ?_, ?_⟩, ?_⟩, ?_, ?_, hs⟩
  · simp [hm', hm₃, Ne.symm hpy]
  · simp [hm', hm₃, Ne.symm hpy, Ne.symm hxy, hyo]
  · simp [hm', hm₃, Ne.symm hxy]
  · exact hyc
  · simp [hm', hm₃, Ne.symm hpx, hxy, hxs]
  · simp [hm', hm₃, Ne.symm hpx, hxy]
  · simp [hm', hm₃]
  · exact hxc
  · exact hsub a hxa (fun hya => hdisja hya (.inl rfl)) (fun i hi => hdisj (.inr (.inl hi)))
      (fun i hi hib => hdisja hi (.inr (.inl hib))) _ ha
  · refine hb.reparent hbn (fun i hi t => ?_) (fun i hi => rfl) (fun i hi hne => ?_) fun i hi => ?_
    · exact hchild t i (fun hx' => hxb (hx' ▸ hi)) (fun hy' => hyb (hy' ▸ hi)) fun ht =>
        hdisj (.inr (.inr (.inr (.inl hi)))) (above_mem ht.2.symm)
    · exact hparent i (fun hx' => hxb (hx' ▸ hi)) (fun hy' => hyb (hy' ▸ hi)) hne
    · have hix : i ≠ x := fun hx' => hbx (hx' ▸ hi)
      have hiy : i ≠ y := fun hy' => hby (hy' ▸ hi)
      simp [hm', hm₃, hi, hix, hiy]
  · exact hsub e hxe hye (fun i hi => hdisj (.inr (.inr (.inr (.inr hi)))))
      (fun i hi hib => hdisjb hib hi) _ he
  · rw [root_mk]
    refine hp.rehang hpn (fun t q hq ht => ?_) (by simp [hm']) (fun i hi => ?_) fun i hi => rfl
    · obtain rfl | ⟨i, hi, rfl⟩ := hq
      · simp only [hm', hm₃, Heap.child_setParent, Heap.child_setChild, if_neg ht]
        simp
      · exact hchild t i (fun hx' => hxpath (hx' ▸ hi)) (fun hy' => hypath (hy' ▸ hi)) ht
    · exact hparent i (fun hx' => hxpath (hx' ▸ hi)) (fun hy' => hypath (hy' ▸ hi)) (hbpath i hi)
  · rw [toList_zip_congr _ _ _ (toList_rotate s c d a b e x y c d)]
    exact hn

end Njs.RbTree
