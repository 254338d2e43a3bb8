import Njs.RbTree.Runs

/-!
# The destruction of a red-black tree

Every call takes out the first node of the tree that is left. The nodes above the next one to start
from are those of which it is on the left.
-/

namespace Njs.RbTree

open RedBlack

variable {ι κ : Type} [DecidableEq ι] {m : Heap ι} {path : List (Frame ι)} {t : RedBlack.Tree ι}
  {rounds : ℕ}

/-- `njs_rbtree_destroy_next`: the node, what `*next` is afterwards and the memory. The loop is that
of `njs_rbtree_branch_min`. -/
def njsRbtreeDestroyNext (rounds : ℕ) (next : Option ι) (m : Heap ι) :
    Option (Option ι × Option ι × Heap ι) :=
  match njsRbtreeBranchMin m rounds next with
  | none => none
  | some node =>
    let subst := m.child .right node
    let parent := m.parent node
    let m := m.setChild .left parent subst
    let m := m.setParent subst parent
    some (node, if subst = none then parent else subst, m)

/-- The loop of `njs_mp_destroy`, with the nodes that it frees. A node that is freed holds anything
then. -/
def destroyLoop (rounds : ℕ) (junk : ι → (Side → Option ι) × Option ι × Color) :
    ℕ → Option ι → Heap ι → Option (List ι)
  | 0, _, _ => none
  | _ + 1, none, _ => some []
  | k + 1, some next, m =>
    match njsRbtreeDestroyNext rounds (some next) m with
    | some (some node, next, m) =>
      let (children, parent, color) := junk node
      (destroyLoop rounds junk k next (writeNode node children parent color m)).map (node :: ·)
    | _ => none

open RedBlack.Tree

omit [DecidableEq ι] in
theorem sideOf_eq (hpath : before path = []) : sideOf path = .left := by
  rcases path with _ | ⟨⟨s, c, p, b⟩, path⟩
  · rfl
  cases s with
  | left => rfl
  | right => simp [before] at hpath

omit [DecidableEq ι] in
/-- The tree from which a call goes on: the right child in the place of its parent, or else what is
below the node above. -/
theorem exists_next (hpath : before path = []) (r : RedBlack.Tree ι) :
    ∃ up u, (if r.root = none then above path else r.root) = u.root ∧ zip path r = zip up u ∧
      before up = [] ∧ (u = .leaf → up = []) := by
  cases r with
  | node d a i b => exact ⟨path, _, if_neg (Option.some_ne_none i), rfl, hpath, fun h => by cases h⟩
  | leaf =>
    rcases path with _ | ⟨⟨s, c, p, b⟩, path⟩
    · exact ⟨[], .leaf, rfl, rfl, rfl, fun _ => rfl⟩
    obtain rfl : s = .left := sideOf_eq hpath
    exact ⟨path, .node c .leaf p b, rfl, rfl, hpath, fun h => by cases h⟩

theorem njsRbtreeDestroyNext_eq (h : Whole m (zip path t)) (hpath : before path = [])
    (ht : t ≠ .leaf) (hrounds : t.toList.length ≤ rounds) :
    ∃ y m' up u, njsRbtreeDestroyNext rounds t.root m = some (some y, u.root, m') ∧
      Whole m' (zip up u) ∧ before up = [] ∧ (u = .leaf → up = []) ∧
        (zip path t).toList = y :: (zip up u).toList := by
  obtain ⟨fs, c, y, r, rfl, hlist, hmin⟩ := branchMin_eq t _ rounds (whole_zip.mp h).1 ht hrounds
  have hall : (zip path (zip fs (.node c .leaf y r))).toList =
      y :: (zip (fs ++ path) r).toList := by
    rw [zip_append, toList_zip, toList_zip path (zip fs r), hpath, hlist]
    rfl
  rw [← zip_append] at h hall ⊢
  generalize fs ++ path = up at h hall
  have hbefore : before up = [] := by
    rcases hup : before up with _ | ⟨z, zs⟩
    · rfl
    have hn := h.nodup
    rw [toList_zip, hup] at hall hn
    obtain rfl := (List.cons.inj hall).1
    exact absurd (by simp [toList]) (List.nodup_cons.mp hn).1
  obtain ⟨⟨-, hright, hparent, -, -, -⟩, hp, -, -⟩ := whole_zip.mp h
  have hchild := hp.hole_eq
  rw [sideOf_eq hbefore] at hchild
  have hlink : njsRbtreeParentRelink r.root (some y) m =
      (m.setChild .left (above up) r.root).setParent r.root (above up) := by
    rw [njsRbtreeParentRelink, hparent]
    exact if_pos hchild
  have hwhole : Whole m (zip up (mk .left c .leaf y r)) := h
  have hrelink := (relink_zip hwhole).1
  rw [hlink] at hrelink
  obtain ⟨up', u, hroot, hzip, hup', hu⟩ := exists_next hbefore r
  refine ⟨y, _, up', u, ?_, hzip ▸ hrelink, hup', hu, by rw [hall, hzip]⟩
  rw [njsRbtreeDestroyNext, hmin]
  dsimp only
  rw [hright, hparent, hroot]

theorem destroyLoop_eq (junk : ι → (Side → Option ι) × Option ι × Color) (l : List ι) :
    ∀ {m : Heap ι} {path : List (Frame ι)} {t : RedBlack.Tree ι}, Whole m (zip path t) →
      before path = [] → (t = .leaf → path = []) → (zip path t).toList = l → l.length ≤ rounds →
      destroyLoop rounds junk (l.length + 1) t.root m = some l := by
  induction l with
  | nil =>
    intro m path t _ _ _ hl _
    cases t with
    | leaf => rfl
    | node c a i b => simp [toList_zip, toList] at hl
  | cons y l ih =>
    intro m path t h hpath ht hl hrounds
    rw [List.length_cons] at hrounds
    cases t with
    | leaf =>
      rw [ht rfl] at hl
      cases hl
    | node c a i b =>
      have hlength := congrArg List.length hl
      rw [toList_zip, List.length_append, List.length_append, List.length_cons] at hlength
      obtain ⟨y', m', up, u, hnext, hw, hup, hu, hlist⟩ :=
        njsRbtreeDestroyNext_eq h hpath (fun h => by cases h) (by omega : _ ≤ rounds)
      obtain ⟨rfl, hl'⟩ := List.cons.inj (hlist.symm.trans hl)
      have hy := (List.nodup_cons.mp (hlist ▸ h.nodup)).1
      rw [root] at hnext ⊢
      rw [List.length_cons, destroyLoop, hnext]
      dsimp only
      rw [ih (whole_writeNode hw hy _ _ _) hup hu hl' (Nat.le_of_succ_le hrounds)]
      rfl

/-- After every legal run, the destruction of the tree frees its nodes in the order of the
traversal, each of them once, whatever the nodes hold that are freed. -/
theorem run_destroyed {compare : κ → κ → ℤ} (hcmp : TotalPreorder compare)
    (steps : List (Step ι κ)) (hlegal : Legal steps []) (hrounds : steps.length < rounds)
    (st : State ι κ) : ∃ st' order,
      run compare rounds steps ⟨njsRbtreeInit st.nodes, st.key⟩ = some st' ∧
      traverse st'.nodes rounds = some order ∧ order.Perm (held steps []) ∧ order.Nodup ∧
      ∀ junk, destroyLoop rounds junk (order.length + 1) (njsRbtreeRoot st'.nodes) st'.nodes =
        some order := by
  obtain ⟨st', hrun, ⟨t, n, hw, -, -, hperm⟩, hlt⟩ := run_init hcmp hlegal hrounds st
  have hlength := hperm.length_eq
  refine ⟨st', t.toList, hrun, traverse_eq hw (by omega), hperm, hw.nodup, fun junk => ?_⟩
  have hzip : Whole st'.nodes (zip [] t) := hw
  rw [njsRbtreeRoot, hw.top]
  exact destroyLoop_eq junk t.toList hzip rfl (fun _ => rfl) rfl (by omega)

theorem run_destroyed_three : ∃ st' order,
    run (fun k l : ℕ => (k : ℤ) - l) 8 threeNodes
        ⟨njsRbtreeInit ⟨fun _ _ => none, fun _ => none, fun _ => .red⟩, fun _ => 0⟩ = some st' ∧
      traverse st'.nodes 8 = some order ∧ order.Perm [3, 2] ∧ order.Nodup ∧
      ∀ junk, destroyLoop 8 junk (order.length + 1) (njsRbtreeRoot st'.nodes) st'.nodes =
        some order :=
  run_destroyed ⟨fun k l => by omega, fun k l j => by omega⟩ threeNodes (by decide) (by decide)
    ⟨⟨fun _ _ => none, fun _ => none, fun _ => .red⟩, fun _ => 0⟩

end Njs.RbTree
