import Njs.RbTree.Deletion

/-!
# The traversal and the runs of a red-black tree

The successor of a node is the first node of its right subtree. If there is none, it is the node
above the first subtree on the way up that is a left child; the sentinel ends the way, since the
root is its left child.
-/

namespace Njs.RbTree

open RedBlack RedBlack.Tree

variable {ι : Type} [DecidableEq ι] {m : Heap ι} {path : List (Frame ι)} {c : Color}
  {l r t : RedBlack.Tree ι} {x : ι}

/-- The nodes that a traversal from a pointer on visits: as long as there is a successor. -/
def traverseFrom (m : Heap ι) (rounds : ℕ) : ℕ → Option ι → Option (List ι)
  | 0, _ => none
  | _ + 1, none => some []
  | k + 1, some i =>
    match njsRbtreeNodeSuccessor m rounds (some i) with
    | none => none
    | some next => (traverseFrom m rounds k next).map (i :: ·)

/-- A traversal from `njs_rbtree_min` on. -/
def traverse (m : Heap ι) (rounds : ℕ) : Option (List ι) :=
  match njsRbtreeMin m rounds with
  | none => none
  | some first => traverseFrom m rounds rounds first

theorem successorLoop_eq (path : List (Frame ι)) :
    ∀ (t : RedBlack.Tree ι) (rounds : ℕ), Whole m (zip path t) → t.root ≠ none →
      path.length < rounds → successorLoop m rounds t.root = some (after path).head? := by
  induction path with
  | nil =>
    intro t rounds h hne hlt
    obtain ⟨i, hi⟩ := Option.ne_none_iff_exists'.mp hne
    obtain ⟨rounds, rfl⟩ : ∃ k, rounds = k + 1 := ⟨rounds - 1, by simp at hlt; omega⟩
    have hpar := parent_zip [] h hi
    have htop : m.child .left none = some i := h.top.trans hi
    rw [hi, successorLoop, hpar]
    exact if_pos htop.symm
  | cons f path ih =>
    intro t rounds h hne hlt
    obtain ⟨i, hi⟩ := Option.ne_none_iff_exists'.mp hne
    obtain ⟨rounds, rfl⟩ : ∃ k, rounds = k + 1 := ⟨rounds - 1, by omega⟩
    obtain ⟨s, c, p, u⟩ := f
    rw [List.length_cons] at hlt
    have hpar := parent_zip _ h hi
    obtain ⟨hs, ho, -, -⟩ := fields_mk path h
    rw [hi, successorLoop, hpar]
    cases s with
    | left => exact if_pos (hi ▸ hs.symm)
    | right =>
      have hsib : some i ≠ m.child .left (some p) := fun he =>
        root_ne h.nodup hi (hi.trans (he.trans ho))
      refine (if_neg hsib).trans ?_
      have hup := ih (mk .right c t p u) rounds h (by simp) (by omega)
      rw [root_mk] at hup
      exact hup

theorem successor_eq {rounds : ℕ} (h : Whole m (zip path (.node c l x r)))
    (hlt : (zip path (.node c l x r)).toList.length ≤ rounds) :
    njsRbtreeNodeSuccessor m rounds (some x) = some (r.toList ++ after path).head? := by
  obtain ⟨-, hcr, -, -, -, hrr⟩ := (whole_zip.mp h).1
  have hlen : path.length < rounds := by
    have := path_length_le path (.leaf : RedBlack.Tree ι)
    rw [toList_zip] at hlt this
    simp only [toList, List.length_append, List.length_cons, List.length_nil] at hlt this
    omega
  rw [njsRbtreeNodeSuccessor, hcr]
  by_cases hr : r = .leaf
  · subst hr
    refine (if_neg (not_not_intro rfl)).trans ?_
    exact successorLoop_eq path (.node c l x .leaf) rounds h (by simp [root]) hlen
  have hroot : r.root ≠ none := by
    cases r with
    | leaf => exact absurd rfl hr
    | node => simp [root]
  have hrlen : r.toList.length ≤ rounds := by
    rw [toList_zip] at hlt
    simp only [toList, List.length_append, List.length_cons] at hlt
    omega
  obtain ⟨fs, d, y, u, -, hlist, hmin⟩ := branchMin_eq r _ rounds hrr hr hrlen
  rw [if_pos hroot, hmin, hlist]
  rfl

omit [DecidableEq ι] in
theorem min_eq {rounds : ℕ} (h : Whole m t) (hlt : t.toList.length < rounds) :
    njsRbtreeMin m rounds = some t.toList.head? := by
  obtain ⟨rounds, rfl⟩ : ∃ k, rounds = k + 1 := ⟨rounds - 1, by omega⟩
  rw [njsRbtreeMin, njsRbtreeBranchMin, h.top]
  by_cases ht : t = .leaf
  · subst ht
    exact if_neg (not_not_intro rfl)
  have hroot : t.root ≠ none := by
    cases t with
    | leaf => exact absurd rfl ht
    | node => simp [root]
  obtain ⟨fs, d, y, u, -, hlist, hmin⟩ := branchMin_eq t none rounds h.rep ht (by omega)
  rw [if_pos hroot, hmin, hlist]
  rfl

theorem traverseFrom_eq {rounds : ℕ} (h : Whole m t) (hlt : t.toList.length ≤ rounds)
    (post : List ι) :
    ∀ (pre : List ι) (k : ℕ), t.toList = pre ++ post → post.length < k →
      traverseFrom m rounds k post.head? = some post := by
  induction post with
  | nil =>
    rintro pre (_ | k) _ hk
    · exact absurd hk (Nat.not_lt_zero _)
    · rfl
  | cons x post ih =>
    rintro pre (_ | k) heq hk
    · exact absurd hk (Nat.not_lt_zero _)
    obtain ⟨path, c, l, r, rfl⟩ := exists_zip t (heq ▸ by simp : x ∈ t.toList)
    -- There is one place for a node in the order.
    have hpost : post = r.toList ++ after path := by
      have hn := h.nodup
      have hsplit : (before path ++ l.toList) ++ x :: (r.toList ++ after path) =
          pre ++ x :: post := by
        rw [← heq, toList_zip]
        simp [toList]
      rw [heq] at hn
      have hx : x ∉ pre := fun hx => List.disjoint_of_nodup_append hn hx List.mem_cons_self
      have hx' : x ∉ post := (List.nodup_cons.mp (List.nodup_append'.mp hn).2.1).1
      exact ((List.append_cons_inj_of_notMem hx hx').mp hsplit.symm).2.2
    rw [List.head?_cons, traverseFrom, successor_eq h hlt, ← hpost]
    simp only
    rw [ih (pre ++ [x]) k (by rw [heq]; simp) (by simpa using hk)]
    rfl

theorem traverse_eq {rounds : ℕ} (h : Whole m t) (hlt : t.toList.length < rounds) :
    traverse m rounds = some t.toList := by
  rw [traverse, min_eq h hlt]
  exact traverseFrom_eq h (Nat.le_of_lt hlt) t.toList [] rounds rfl hlt

end Njs.RbTree

/-!
## Runs of a red-black tree

A program inserts nodes that are not in the tree and deletes nodes that are in it, in any order.
Between the calls it writes what it likes into the memory of the nodes that are not in the tree,
their keys included.
-/

namespace Njs.RbTree

open RedBlack RedBlack.Tree

variable {ι κ : Type} [DecidableEq ι]

/-! ### Programs -/

/-- The steps of a program. -/
inductive Step (ι κ : Type)
  | write (i : ι) (children : Side → Option ι) (parent : Option ι) (color : Color) (key : κ)
  | insert (i : ι)
  | delete (i : ι)

/-- The memory of the tree and the keys of the nodes. -/
structure State (ι κ : Type) where
  nodes : Heap ι
  key : ι → κ

/-- The nodes in the tree after a step, the latest first. -/
def Step.held (l : List ι) : Step ι κ → List ι
  | .write _ _ _ _ _ => l
  | .insert i => i :: l
  | .delete i => l.erase i

def Step.Legal (l : List ι) : Step ι κ → Prop
  | .write i _ _ _ _ => i ∉ l
  | .insert i => i ∉ l
  | .delete i => i ∈ l

instance (l : List ι) : (s : Step ι κ) → Decidable (s.Legal l)
  | .write i _ _ _ _ => inferInstanceAs (Decidable (i ∉ l))
  | .insert i => inferInstanceAs (Decidable (i ∉ l))
  | .delete i => inferInstanceAs (Decidable (i ∈ l))

/-- The nodes in the tree after a run that starts with the nodes `l`. -/
def held (steps : List (Step ι κ)) (l : List ι) : List ι := steps.foldl Step.held l

/-- A program that keeps to the rules. -/
def Legal : List (Step ι κ) → List ι → Prop
  | [], _ => True
  | s :: steps, l => s.Legal l ∧ Legal steps (s.held l)

instance Legal.decidable : ∀ (steps : List (Step ι κ)) (l : List ι), Decidable (Legal steps l)
  | [], _ => inferInstanceAs (Decidable True)
  | _ :: steps, _ => @instDecidableAnd _ _ _ (Legal.decidable steps _)

def writeNode (i : ι) (children : Side → Option ι) (parent : Option ι) (color : Color)
    (m : Heap ι) : Heap ι :=
  (((m.setChild .left (some i) (children .left)).setChild .right (some i)
    (children .right)).setParent (some i) parent).setColor (some i) color

theorem whole_writeNode (h : Whole m t) (hx : x ∉ t.toList) (children : Side → Option ι)
    (parent : Option ι) (color : Color) : Whole (writeNode x children parent color m) t := by
  refine h.congr (fun j hj => ?_) (by simp [writeNode]) (by simp [writeNode])
  have hjx : j ≠ x := ne_of_mem_of_not_mem hj hx
  exact ⟨fun s => by simp [writeNode, hjx], by simp [writeNode, hjx], by simp [writeNode, hjx]⟩

def Step.run (compare : κ → κ → ℤ) (rounds : ℕ) (st : State ι κ) : Step ι κ → Option (State ι κ)
  | .write i children parent color key =>
    some ⟨writeNode i children parent color st.nodes, Function.update st.key i key⟩
  | .insert i =>
    (njsRbtreeInsert compare st.key rounds i st.nodes).map fun m => { st with nodes := m }
  | .delete i => (njsRbtreeDelete rounds (some i) st.nodes).map fun m => { st with nodes := m }

def run (compare : κ → κ → ℤ) (rounds : ℕ) : List (Step ι κ) → State ι κ → Option (State ι κ)
  | [], st => some st
  | s :: steps, st =>
    match s.run compare rounds st with
    | none => none
    | some st => run compare rounds steps st

/-! ### Red-black trees in memory -/

/-- Following child links from a pointer leads to a node. -/
inductive Below (m : Heap ι) : Option ι → ι → Prop
  | refl {i : ι} : Below m (some i) i
  | child {i j : ι} (s : Side) : Below m (m.child s (some i)) j → Below m (some i) j

/-- Following child links from a pointer leads to a leaf past so many black nodes. -/
inductive LeafPath (m : Heap ι) : Option ι → ℕ → Prop
  | leaf : LeafPath m none 0
  | child {i : ι} {n : ℕ} (s : Side) : LeafPath m (m.child s (some i)) n →
      LeafPath m (some i) (n + if m.color (some i) = .black then 1 else 0)

/-- The memory of a red-black tree with the nodes `l`. -/
structure RedBlackTree (compare : κ → κ → ℤ) (key : ι → κ) (rounds : ℕ) (m : Heap ι)
    (l : List ι) : Prop where
  traversal : ∃ order, traverse m rounds = some order ∧ order.Perm l ∧ order.Nodup ∧
    InOrder compare key order
  nodes : ∀ i, Below m (njsRbtreeRoot m) i ↔ i ∈ l
  left : ∀ i ∈ l, ∀ j, Below m (m.child .left (some i)) j → compare (key j) (key i) ≤ 0
  right : ∀ i ∈ l, ∀ j, Below m (m.child .right (some i)) j → compare (key i) (key j) ≤ 0
  red : ∀ i ∈ l, m.color (some i) = .red → m.color (m.parent (some i)) = .black
  black : ∃ n, ∀ k, LeafPath m (njsRbtreeRoot m) k → k = n
  /-- A parent link leads back where a child link leads, and the other way round. -/
  parent_child : ∀ i ∈ l, ∀ s j, m.child s (some i) = some j → m.parent (some j) = some i
  parent_root : ∀ j, njsRbtreeRoot m = some j → m.parent (some j) = none
  child_parent : ∀ i ∈ l, ∃ s, m.child s (m.parent (some i)) = some i

section Memory

variable {compare : κ → κ → ℤ} {key : ι → κ} {m : Heap ι} {t : RedBlack.Tree ι} {i : ι} {n : ℕ}

omit [DecidableEq ι] in
theorem below_root {p : Option ι} (h : Rep m p t) : Below m t.root i ↔ i ∈ t.toList := by
  induction t generalizing p with
  | leaf => exact ⟨fun hb => (nomatch hb), fun hi => (nomatch hi)⟩
  | node c l k r ihl ihr =>
    obtain ⟨hl, hr, -, -, hrl, hrr⟩ := h
    constructor
    · intro hb
      cases hb with
      | refl => simp [toList]
      | child s hb =>
        cases s with
        | left => simp [toList, (ihl hrl).mp (hl ▸ hb)]
        | right => simp [toList, (ihr hrr).mp (hr ▸ hb)]
    intro hi
    simp only [toList, List.mem_append, List.mem_cons] at hi
    obtain hi | rfl | hi := hi
    · exact .child .left (hl ▸ (ihl hrl).mpr hi)
    · exact .refl
    · exact .child .right (hr ▸ (ihr hrr).mpr hi)

omit [DecidableEq ι] in
theorem leafPath_root {p : Option ι} {c : Color} {k : ℕ} (h : Rep m p t) (hb : Balanced t c n)
    (hk : LeafPath m t.root k) : k = n := by
  induction hb generalizing p k with
  | leaf =>
    cases hk
    rfl
  | red _ _ ihl ihr =>
    obtain ⟨hl, hr, -, hc, hrl, hrr⟩ := h
    cases hk with
    | child s hk =>
      rw [hc, if_neg (by decide), Nat.add_zero]
      cases s with
      | left => exact ihl hrl (hl ▸ hk)
      | right => exact ihr hrr (hr ▸ hk)
  | black _ _ ihl ihr =>
    obtain ⟨hl, hr, -, hc, hrl, hrr⟩ := h
    cases hk with
    | child s hk =>
      rw [hc, if_pos rfl]
      cases s with
      | left => exact congrArg (· + 1) (ihl hrl (hl ▸ hk))
      | right => exact congrArg (· + 1) (ihr hrr (hr ▸ hk))

theorem redBlackTree_of_whole {rounds : ℕ} {l : List ι} (h : Whole m t)
    (hb : Balanced t .black n) (hord : InOrder compare key t.toList) (hperm : t.toList.Perm l)
    (hlt : t.toList.length < rounds) : RedBlackTree compare key rounds m l where
  traversal := ⟨t.toList, traverse_eq h hlt, hperm, h.nodup, hord⟩
  nodes i := by
    rw [njsRbtreeRoot, h.top, below_root h.rep, hperm.mem_iff]
  left i hi j hj := by
    obtain ⟨path, c, a, b, rfl⟩ := exists_zip t (hperm.mem_iff.mpr hi)
    obtain ⟨hl, -, -, -, hrl, -⟩ := (whole_zip.mp h).1
    rw [hl, below_root hrl] at hj
    rw [toList_zip] at hord
    have hsub := (List.pairwise_append.mp (List.pairwise_append.mp hord).2.1).1
    exact (List.pairwise_append.mp hsub).2.2 j hj i List.mem_cons_self
  right i hi j hj := by
    obtain ⟨path, c, a, b, rfl⟩ := exists_zip t (hperm.mem_iff.mpr hi)
    obtain ⟨-, hr, -, -, -, hrr⟩ := (whole_zip.mp h).1
    rw [hr, below_root hrr] at hj
    rw [toList_zip] at hord
    have hsub := (List.pairwise_append.mp (List.pairwise_append.mp hord).2.1).1
    exact (List.pairwise_cons.mp (List.pairwise_append.mp hsub).2.1).1 j hj
  red i hi hc := by
    obtain ⟨path, c, a, b, rfl⟩ := exists_zip t (hperm.mem_iff.mpr hi)
    obtain ⟨-, -, hp, hcol, -, -⟩ := (whole_zip.mp h).1
    obtain ⟨d, k, hnode, hpath⟩ := BalancedPath.of_zip hb
    obtain rfl : d = .red := hnode.color_eq.symm.trans (hcol.symm.trans hc)
    obtain ⟨s, g, u, e, path, rfl, -, -⟩ := hpath.exists_black
    rw [hp]
    obtain ⟨-, -, -, hg⟩ := fields_mk path h
    exact hg
  black := by
    refine ⟨n, fun k hk => ?_⟩
    rw [njsRbtreeRoot, h.top] at hk
    exact leafPath_root h.rep hb hk
  parent_child i hi s j hj := by
    obtain ⟨path, c, a, b, rfl⟩ := exists_zip t (hperm.mem_iff.mpr hi)
    obtain ⟨hl, hr, -, -, hrl, hrr⟩ := (whole_zip.mp h).1
    cases s with
    | left => exact hl.symm.trans hj ▸ hrl.parent_root (hl.symm.trans hj)
    | right => exact hr.symm.trans hj ▸ hrr.parent_root (hr.symm.trans hj)
  parent_root j hj := by
    have hroot : t.root = some j := h.top.symm.trans hj
    exact hroot ▸ h.rep.parent_root hroot
  child_parent i hi := by
    obtain ⟨path, c, a, b, rfl⟩ := exists_zip t (hperm.mem_iff.mpr hi)
    obtain ⟨hrep, hpath, -, -⟩ := whole_zip.mp h
    exact ⟨sideOf path, by rw [hrep.2.2.1]; exact hpath.hole_eq⟩

end Memory

/-! ### Runs -/

section Runs

variable {compare : κ → κ → ℤ} {rounds : ℕ}

/-- The memory holds a balanced tree in order of the nodes `l`. -/
def Holds (compare : κ → κ → ℤ) (st : State ι κ) (l : List ι) : Prop :=
  ∃ t n, Whole st.nodes t ∧ Balanced t .black n ∧ InOrder compare st.key t.toList ∧ t.toList.Perm l

theorem Holds.write {st : State ι κ} {l : List ι} (h : Holds compare st l) {i : ι} (hi : i ∉ l)
    (children : Side → Option ι) (parent : Option ι) (color : Color) (key : κ) :
    Holds compare ⟨writeNode i children parent color st.nodes, Function.update st.key i key⟩ l := by
  obtain ⟨t, n, hw, hb, hord, hperm⟩ := h
  have hne : ∀ j ∈ t.toList, j ≠ i := fun j hj he => hi (he ▸ hperm.mem_iff.mp hj)
  refine ⟨t, n, whole_writeNode hw (fun hi' => hne i hi' rfl) children parent color, hb, ?_, hperm⟩
  refine List.Pairwise.imp_of_mem (fun {a b} ha hb hab => ?_) hord
  simp only [Function.update_of_ne (hne a ha), Function.update_of_ne (hne b hb)]
  exact hab

theorem Step.holds (hcmp : TotalPreorder compare) {st : State ι κ} {l : List ι}
    (h : Holds compare st l) {s : Step ι κ} (hs : s.Legal l) (hlt : l.length < rounds) :
    ∃ st', s.run compare rounds st = some st' ∧ Holds compare st' (s.held l) := by
  cases s with
  | write i children parent color key => exact ⟨_, rfl, h.write hs children parent color key⟩
  | insert i =>
    obtain ⟨t, n, hw, hb, hord, hperm⟩ := h
    have hi : i ∉ t.toList := fun hi => hs (hperm.mem_iff.mp hi)
    obtain ⟨m', t', l₁, l₂, n', hm, hw', hb', ht, ht', hord'⟩ :=
      njsRbtreeInsert_eq hcmp hw hb hord hi (hperm.length_eq ▸ hlt)
    refine ⟨{ st with nodes := m' }, by rw [Step.run, hm]; rfl, t', n', hw', hb', hord', ?_⟩
    rw [ht', Step.held]
    exact List.perm_middle.trans ((ht ▸ hperm).cons i)
  | delete i =>
    obtain ⟨t, n, hw, hb, hord, hperm⟩ := h
    obtain ⟨m', t', n', hm, hw', hb', ht'⟩ :=
      njsRbtreeDelete_eq hw hb (hperm.mem_iff.mpr hs) (hperm.length_eq ▸ hlt)
    refine ⟨{ st with nodes := m' }, by rw [Step.run, hm]; rfl, t', n', hw', hb', ?_, ?_⟩
    · rw [ht']
      exact hord.sublist List.erase_sublist
    · rw [ht', Step.held]
      exact hperm.erase i

theorem Step.length_held_le (s : Step ι κ) (l : List ι) : (s.held l).length ≤ l.length + 1 := by
  cases s with
  | write => exact Nat.le_succ _
  | insert => exact Nat.le_refl _
  | delete i => exact Nat.le_succ_of_le List.length_erase_le

theorem run_holds (hcmp : TotalPreorder compare) (steps : List (Step ι κ)) :
    ∀ (st : State ι κ) (l : List ι), Holds compare st l → Legal steps l →
      l.length + steps.length < rounds →
      ∃ st', run compare rounds steps st = some st' ∧ Holds compare st' (held steps l) := by
  induction steps with
  | nil => exact fun st l h _ _ => ⟨st, rfl, h⟩
  | cons s steps ih =>
    intro st l h hlegal hlt
    rw [List.length_cons] at hlt
    obtain ⟨st₁, hrun, h₁⟩ := Step.holds hcmp h hlegal.1 (by omega : l.length < rounds)
    have hlen := s.length_held_le l
    obtain ⟨st₂, hrun', h₂⟩ := ih st₁ _ h₁ hlegal.2 (by omega)
    exact ⟨st₂, by rw [run, hrun, ← hrun'], h₂⟩

theorem length_held_le (steps : List (Step ι κ)) (l : List ι) :
    (held steps l).length ≤ l.length + steps.length := by
  induction steps generalizing l with
  | nil => exact Nat.le_refl _
  | cons s steps ih =>
    have hlen := s.length_held_le l
    have := ih (s.held l)
    rw [List.length_cons]
    change (held steps (s.held l)).length ≤ _
    omega

theorem run_init (hcmp : TotalPreorder compare) {steps : List (Step ι κ)} (hlegal : Legal steps [])
    (hrounds : steps.length < rounds) (st : State ι κ) :
    ∃ st', run compare rounds steps ⟨njsRbtreeInit st.nodes, st.key⟩ = some st' ∧
      Holds compare st' (held steps []) ∧ (held steps []).length < rounds := by
  have hinit : Holds compare ⟨njsRbtreeInit st.nodes, st.key⟩ ([] : List ι) := by
    refine ⟨.leaf, 0, ⟨?_, trivial, List.nodup_nil, ?_⟩, .leaf, List.Pairwise.nil, .nil⟩
    · simp [njsRbtreeInit]
    · simp [njsRbtreeInit]
  obtain ⟨st', hrun, h⟩ := run_holds hcmp steps _ [] hinit hlegal (by simpa using hrounds)
  have hlen := length_held_le steps ([] : List ι)
  rw [List.length_nil] at hlen
  exact ⟨st', hrun, h, by omega⟩

/-- After every legal run from the empty tree, whatever the memory held before, the memory is that
of a red-black tree with the nodes that are inserted and not deleted. -/
theorem run_redBlackTree (hcmp : TotalPreorder compare) (steps : List (Step ι κ))
    (hlegal : Legal steps []) (hrounds : steps.length < rounds) (st : State ι κ) :
    ∃ st', run compare rounds steps ⟨njsRbtreeInit st.nodes, st.key⟩ = some st' ∧
      RedBlackTree compare st'.key rounds st'.nodes (held steps []) := by
  obtain ⟨st', hrun, ⟨t, n, hw, hb, hord, hperm⟩, hlen⟩ := run_init hcmp hlegal hrounds st
  exact ⟨st', hrun, redBlackTree_of_whole hw hb hord hperm (hperm.length_eq ▸ hlen)⟩

/-- Two nodes with equal keys and a third one; the first is deleted again. -/
def threeNodes : List (Step ℕ ℕ) :=
  [.write 1 (fun _ => none) none .red 5, .insert 1, .write 2 (fun _ => some 7) (some 1) .black 5,
    .insert 2, .write 3 (fun _ => none) none .red 4, .insert 3, .delete 1]

theorem run_redBlackTree_three : ∃ st', run (fun k l : ℕ => (k : ℤ) - l) 8 threeNodes
        ⟨njsRbtreeInit ⟨fun _ _ => none, fun _ => none, fun _ => .red⟩, fun _ => 0⟩ = some st' ∧
      RedBlackTree (fun k l : ℕ => (k : ℤ) - l) st'.key 8 st'.nodes [3, 2] :=
  run_redBlackTree ⟨fun k l => by omega, fun k l j => by omega⟩ threeNodes (by decide) (by decide)
    ⟨⟨fun _ _ => none, fun _ => none, fun _ => .red⟩, fun _ => 0⟩

end Runs

end Njs.RbTree
