import Njs.Lib.RedBlack

/-!
# Trees in memory

A binary tree with parent links in memory. The addresses are `Option ι`: the nodes, and `none` for
a sentinel that stands for every leaf and for the node above the root, which is its left child.
The fields of all nodes lie in a `Heap`, one function a field.
-/

namespace RedBlack

open RedBlack.Tree

variable {ι : Type*}

/-- The fields of the nodes and of the sentinel. -/
structure Heap (ι : Type*) where
  child : Side → Option ι → Option ι
  parent : Option ι → Option ι
  color : Option ι → Color

namespace Heap

variable [DecidableEq ι] (m : Heap ι) (s : Side) (p v : Option ι) (c : Color)

def setChild : Heap ι :=
  { m with child := fun t q => if t = s ∧ q = p then v else m.child t q }

def setParent : Heap ι := { m with parent := Function.update m.parent p v }

/-- Write a colour. -/
def setColor : Heap ι := { m with color := Function.update m.color p c }

@[simp] theorem child_setParent : (m.setParent p v).child = m.child := rfl
@[simp] theorem color_setParent : (m.setParent p v).color = m.color := rfl
@[simp] theorem child_setColor : (m.setColor p c).child = m.child := rfl
@[simp] theorem parent_setColor : (m.setColor p c).parent = m.parent := rfl
@[simp] theorem parent_setChild : (m.setChild s p v).parent = m.parent := rfl
@[simp] theorem color_setChild : (m.setChild s p v).color = m.color := rfl

@[simp] theorem child_setChild (t : Side) (q : Option ι) :
    (m.setChild s p v).child t q = if t = s ∧ q = p then v else m.child t q := rfl

@[simp] theorem parent_setParent (q : Option ι) :
    (m.setParent p v).parent q = if q = p then v else m.parent q :=
  Function.update_apply ..

@[simp] theorem color_setColor (q : Option ι) :
    (m.setColor p c).color q = if q = p then c else m.color q :=
  Function.update_apply ..

end Heap

/-- The memory holds a subtree below the address `p`. -/
def Rep (m : Heap ι) : Option ι → Tree ι → Prop
  | _, .leaf => True
  | p, .node c l i r =>
    m.child .left (some i) = l.root ∧ m.child .right (some i) = r.root ∧
      m.parent (some i) = p ∧ m.color (some i) = c ∧ Rep m (some i) l ∧ Rep m (some i) r

/-- The memory holds a path up from the address `hole`, and the siblings along it. -/
def OnPath (m : Heap ι) : Option ι → List (Frame ι) → Prop
  | hole, [] => m.child .left none = hole
  | hole, f :: path =>
    m.child f.side (some f.node) = hole ∧ m.child f.side.other (some f.node) = f.sibling.root ∧
      m.parent (some f.node) = above path ∧ m.color (some f.node) = f.color ∧
      Rep m (some f.node) f.sibling ∧ OnPath m (some f.node) path

/-- The memory holds a tree. -/
structure Whole (m : Heap ι) (t : Tree ι) : Prop where
  top : m.child .left none = t.root
  rep : Rep m none t
  nodup : t.toList.Nodup
  sentinel : m.color none = .black

/-- A node is the same in two memories. -/
structure Same (m m' : Heap ι) (i : ι) : Prop where
  child : ∀ s, m'.child s (some i) = m.child s (some i)
  parent : m'.parent (some i) = m.parent (some i)
  color : m'.color (some i) = m.color (some i)

section

variable {m m' : Heap ι} {p p' hole hole' : Option ι} {t : Tree ι} {path : List (Frame ι)}

theorem rep_mk {s : Side} {c : Color} {a b : Tree ι} {i : ι} : Rep m p (mk s c a i b) ↔
      m.child s (some i) = a.root ∧ m.child s.other (some i) = b.root ∧
        m.parent (some i) = p ∧ m.color (some i) = c ∧ Rep m (some i) a ∧ Rep m (some i) b := by
  cases s <;> simp only [mk, Rep, Side.other]
  tauto

theorem rep_zip : (Rep m none (zip path t) ∧ m.child .left none = (zip path t).root) ↔
      Rep m (above path) t ∧ OnPath m t.root path := by
  induction path generalizing t with
  | nil => rfl
  | cons f path ih =>
    rw [zip_cons, ih, rep_mk, root_mk, OnPath, above]
    tauto

theorem whole_zip : Whole m (zip path t) ↔
      Rep m (above path) t ∧ OnPath m t.root path ∧ (zip path t).toList.Nodup ∧
        m.color none = .black := by
  constructor
  · intro h
    obtain ⟨hr, hp⟩ := rep_zip.mp ⟨h.rep, h.top⟩
    exact ⟨hr, hp, h.nodup, h.sentinel⟩
  · rintro ⟨hr, hp, hn, hs⟩
    obtain ⟨hrep, htop⟩ := rep_zip.mpr ⟨hr, hp⟩
    exact ⟨htop, hrep, hn, hs⟩

/-! ### Changes to other nodes -/

theorem Rep.congr (h : Rep m p t) (hs : ∀ i ∈ t.toList, Same m m' i) : Rep m' p t := by
  induction t generalizing p with
  | leaf => exact trivial
  | node c l i r ihl ihr =>
    obtain ⟨hl, hr, hp, hc, hrl, hrr⟩ := h
    have hi := hs i (by simp [toList])
    exact ⟨(hi.child _).trans hl, (hi.child _).trans hr, hi.parent.trans hp, hi.color.trans hc,
      ihl hrl fun j hj => hs j (by simp [toList, hj]),
      ihr hrr fun j hj => hs j (by simp [toList, hj])⟩

theorem Whole.congr (h : Whole m t) (hs : ∀ i ∈ t.toList, Same m m' i)
    (htop : m'.child .left none = m.child .left none) (hc : m'.color none = m.color none) :
    Whole m' t :=
  ⟨htop.trans h.top, h.rep.congr hs, h.nodup, hc.trans h.sentinel⟩

theorem Rep.reparent (h : Rep m p t) (hn : t.toList.Nodup)
    (hchild : ∀ i ∈ t.toList, ∀ s, m'.child s (some i) = m.child s (some i))
    (hcolor : ∀ i ∈ t.toList, m'.color (some i) = m.color (some i))
    (hparent : ∀ i ∈ t.toList, some i ≠ t.root → m'.parent (some i) = m.parent (some i))
    (hroot : ∀ i, t.root = some i → m'.parent (some i) = p') : Rep m' p' t := by
  cases t with
  | leaf => exact trivial
  | node c l i r =>
    obtain ⟨hl, hr, -, hc, hrl, hrr⟩ := h
    have hmem : i ∈ (node c l i r).toList := by simp [toList]
    have hn' := (nodup_toList_mk .left c l r i).mp hn
    have hsub : ∀ j ∈ (node c l i r).toList, j ≠ i → Same m m' j := fun j hj hne =>
      ⟨hchild j hj, hparent j hj fun he => hne (Option.some.inj he), hcolor j hj⟩
    refine ⟨(hchild i hmem _).trans hl, (hchild i hmem _).trans hr, hroot i rfl,
      (hcolor i hmem).trans hc, hrl.congr fun j hj => hsub j (by simp [toList, hj]) ?_,
      hrr.congr fun j hj => hsub j (by simp [toList, hj]) ?_⟩
    · rintro rfl
      exact hn'.2.2.1 hj
    · rintro rfl
      exact hn'.2.2.2.1 hj

theorem OnPath.congr (h : OnPath m hole path) (hs : ∀ i ∈ pathNodes path, Same m m' i)
    (htop : m'.child .left none = m.child .left none) : OnPath m' hole path := by
  induction path generalizing hole with
  | nil => exact htop.trans h
  | cons f path ih =>
    obtain ⟨hc, ho, hp, hcol, hr, hrest⟩ := h
    have hf := hs f.node (by simp [pathNodes])
    exact ⟨(hf.child _).trans hc, (hf.child _).trans ho, hf.parent.trans hp, hf.color.trans hcol,
      hr.congr fun i hi => hs i (by simp [pathNodes, hi]),
      ih hrest fun i hi => hs i (by simp [pathNodes, hi])⟩

theorem OnPath.rehang (h : OnPath m hole path) (hn : (pathNodes path).Nodup)
    (hchild : ∀ s q, q = none ∨ (∃ i ∈ pathNodes path, q = some i) →
      ¬(s = sideOf path ∧ q = above path) → m'.child s q = m.child s q)
    (hhole : m'.child (sideOf path) (above path) = hole')
    (hparent : ∀ i ∈ pathNodes path, m'.parent (some i) = m.parent (some i))
    (hcolor : ∀ i ∈ pathNodes path, m'.color (some i) = m.color (some i)) :
    OnPath m' hole' path := by
  cases path with
  | nil => exact hhole
  | cons f path =>
    obtain ⟨hc, ho, hp, hcol, hr, hrest⟩ := h
    obtain ⟨hf, hn⟩ := List.nodup_cons.mp hn
    have hmem : f.node ∈ pathNodes (f :: path) := List.mem_cons_self
    have hsame : ∀ i ∈ f.sibling.toList ++ pathNodes path, Same m m' i := fun i hi =>
      ⟨fun s => hchild s _ (.inr ⟨i, List.mem_cons_of_mem _ hi, rfl⟩) fun he =>
        hf (Option.some.inj he.2 ▸ hi), hparent i (List.mem_cons_of_mem _ hi),
        hcolor i (List.mem_cons_of_mem _ hi)⟩
    refine ⟨hhole, (hchild _ _ (.inr ⟨_, hmem, rfl⟩) fun he => ?_).trans ho,
      (hparent _ hmem).trans hp, (hcolor _ hmem).trans hcol,
      hr.congr fun i hi => hsame i (List.mem_append_left _ hi),
      hrest.congr (fun i hi => hsame i (List.mem_append_right _ hi))
        (hchild _ _ (.inl rfl) fun he => by cases he.2)⟩
    exact f.side.other_ne he.1

/-! ### Reading a tree -/

theorem Rep.color_root (h : Rep m p t) (hs : m.color none = .black) : m.color t.root = t.color := by
  cases t with
  | leaf => exact hs
  | node c l i r => exact h.2.2.2.1

theorem Rep.parent_root (h : Rep m p t) {i : ι} (hi : t.root = some i) : m.parent t.root = p := by
  cases t with
  | leaf => cases hi
  | node c l j r => exact h.2.2.1

theorem OnPath.hole_eq (h : OnPath m hole path) : m.child (sideOf path) (above path) = hole := by
  cases path with
  | nil => exact h
  | cons f path => exact h.1

theorem above_mem {i : ι} (h : above path = some i) : i ∈ pathNodes path := by
  cases path with
  | nil => cases h
  | cons f path =>
    obtain rfl : f.node = i := Option.some.inj h
    exact List.mem_cons_self

end

end RedBlack
