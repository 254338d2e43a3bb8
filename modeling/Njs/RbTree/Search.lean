import Njs.RbTree.Runs

/-!
# Searches in a red-black tree

A search goes down from the root. At every node it goes to a side, or it ends there. Some searches
remember the last node from which they went to one of the sides.
-/

namespace Njs.RbTree

open RedBlack RedBlack.Tree

variable {ι κ : Type} {m : Heap ι} {test : ι → Option Side} {keeps : Side → Prop}
  [DecidablePred keeps] {R : ι → ι → Prop} {retval r : Option ι} {l : List ι}

/-- The loop of the searches. A test tells the side of a node to go to; `keeps` are the sides for
which the node is remembered. -/
def searchLoop (test : ι → Option Side) (keeps : Side → Prop) [DecidablePred keeps] (m : Heap ι) :
    ℕ → Option ι → Option ι → Option (Option ι)
  | 0, _, _ => none
  | _ + 1, retval, none => some retval
  | rounds + 1, retval, some next =>
    match test next with
    | none => some (some next)
    | some s =>
      searchLoop test keeps m rounds (if keeps s then some next else retval)
        (m.child s (some next))

def compared (n : ℤ) : Option Side :=
  if n < 0 then some .left else if n > 0 then some .right else none

section

variable (compare : κ → κ → ℤ) (key : ι → κ) (rounds : ℕ) (part : κ) (m : Heap ι)

def njsRbtreeFind : Option (Option ι) :=
  searchLoop (fun i => compared (compare part (key i))) (fun _ => False) m rounds none
    (njsRbtreeRoot m)

def njsRbtreeFindLessOrEqual : Option (Option ι) :=
  searchLoop (fun i => compared (compare part (key i))) (· = .right) m rounds none
    (njsRbtreeRoot m)

def njsRbtreeFindGreaterOrEqual : Option (Option ι) :=
  searchLoop (fun i => compared (compare part (key i))) (· = .left) m rounds none
    (njsRbtreeRoot m)

end

/-! ### What a search finds -/

/-- A node that is found before another one by a search that goes to a side. -/
def Ahead (R : ι → ι → Prop) : Side → ι → ι → Prop
  | .left, i, j => R i j
  | .right, i, j => R j i

/-- The result of a search among nodes: one at which it ends, or the last one that is remembered. -/
def Found (test : ι → Option Side) (keeps : Side → Prop) (R : ι → ι → Prop) (retval : Option ι)
    (l : List ι) (r : Option ι) : Prop :=
  (∃ i ∈ l, r = some i ∧ test i = none) ∨ (∀ i ∈ l, test i ≠ none) ∧
      ((r = retval ∧ ∀ i ∈ l, ∀ s, test i = some s → ¬keeps s) ∨
        ∃ i ∈ l, ∃ s, r = some i ∧ test i = some s ∧ keeps s ∧
          ∀ j ∈ l, test j = some s → j = i ∨ Ahead R s i j)

/-- A search goes to a side of the node `k`, and `far` is on the other side. -/
theorem Found.node {s : Side} {k : ι} {near far : List ι}
    (h : Found test keeps R (if keeps s then some k else retval) near r) (hk : test k = some s)
    (hfar : ∀ j ∈ far, test j = some s ∧ Ahead R s k j)
    (hnear : ∀ i ∈ near, Ahead R s i k ∧ ∀ j ∈ far, Ahead R s i j)
    (hmem : ∀ i, i ∈ l ↔ i ∈ near ∨ i = k ∨ i ∈ far) : Found test keeps R retval l r := by
  have hne : ∀ i, i = k ∨ i ∈ far → test i = some s := by
    rintro i (rfl | hi)
    exacts [hk, (hfar i hi).1]
  obtain ⟨i, hi, hr, hstop⟩ | ⟨hgoes, hlast⟩ := h
  · exact .inl ⟨i, (hmem i).mpr (.inl hi), hr, hstop⟩
  refine .inr ⟨fun i hi => ?_, ?_⟩
  · obtain hi | hi := (hmem i).mp hi
    · exact hgoes i hi
    · exact hne i hi ▸ Option.some_ne_none s
  obtain ⟨hr, hnone⟩ | ⟨i, hi, s', hr, hs, hkeeps, hahead⟩ := hlast
  · by_cases hs : keeps s
    · refine .inr ⟨k, (hmem k).mpr (.inr (.inl rfl)), s, by rw [hr, if_pos hs], hk, hs, ?_⟩
      intro j hj hjs
      obtain hj | rfl | hj := (hmem j).mp hj
      · exact absurd hs (hnone j hj s hjs)
      · exact .inl rfl
      · exact .inr (hfar j hj).2
    · refine .inl ⟨by rw [hr, if_neg hs], fun j hj s' hjs => ?_⟩
      obtain hj | hj := (hmem j).mp hj
      · exact hnone j hj s' hjs
      · obtain rfl := Option.some.inj ((hne j hj).symm.trans hjs)
        exact hs
  · refine .inr ⟨i, (hmem i).mpr (.inl hi), s', hr, hs, hkeeps, fun j hj hjs => ?_⟩
    obtain hj | hj := (hmem j).mp hj
    · exact hahead j hj hjs
    · obtain rfl := Option.some.inj ((hne j hj).symm.trans hjs)
      obtain rfl | hj := hj
      exacts [.inr (hnear i hi).1, .inr ((hnear i hi).2 j hj)]

/-- The nodes before one that is sent to the right are sent there, and those after one that is sent
to the left. -/
def Monotone (test : ι → Option Side) (l : List ι) : Prop :=
  l.Pairwise fun i j =>
    (test i = some .left → test j = some .left) ∧ (test j = some .right → test i = some .right)

theorem searchLoop_found (keeps : Side → Prop) [DecidablePred keeps] (retval : Option ι)
    {p : Option ι} {t : RedBlack.Tree ι} {rounds : ℕ} (h : Rep m p t) (hmono :
      Monotone test t.toList) (hR : t.toList.Pairwise R)
    (hrounds : t.toList.length < rounds) :
    ∃ r, searchLoop test keeps m rounds retval t.root = some r ∧
      Found test keeps R retval t.toList r := by
  induction t generalizing p rounds retval with
  | leaf =>
    obtain ⟨rounds, rfl⟩ : ∃ k, rounds = k + 1 := ⟨rounds - 1, by omega⟩
    exact ⟨retval, rfl, .inr ⟨nofun, .inl ⟨rfl, nofun⟩⟩⟩
  | node c a k b iha ihb =>
    obtain ⟨hl, hr, -, -, ha, hb⟩ := h
    obtain ⟨rounds, rfl⟩ : ∃ k, rounds = k + 1 := ⟨rounds - 1, by omega⟩
    simp only [toList, List.length_append, List.length_cons] at hrounds
    obtain ⟨hma, hmkb, hmab⟩ := List.pairwise_append.mp hmono
    obtain ⟨hRa, hRkb, hRab⟩ := List.pairwise_append.mp hR
    obtain ⟨hmk, hmb⟩ := List.pairwise_cons.mp hmkb
    obtain ⟨hRk, hRb⟩ := List.pairwise_cons.mp hRkb
    simp only [root, searchLoop]
    rcases hk : test k with _ | s
    · exact ⟨some k, rfl, .inl ⟨k, by simp [toList], rfl, hk⟩⟩
    cases s with
    | left =>
      obtain ⟨r, hrun, hfound⟩ := iha (if keeps .left then some k else retval) ha hma hRa
        (by omega : a.toList.length < rounds)
      rw [← hl] at hrun
      refine ⟨r, hrun, hfound.node hk (fun j hj => ⟨(hmk j hj).1 hk, hRk j hj⟩)
        (fun i hi => ⟨hRab i hi k List.mem_cons_self, fun j hj => ?_⟩) fun i => by simp [toList]⟩
      exact hRab i hi j (List.mem_cons_of_mem k hj)
    | right =>
      obtain ⟨r, hrun, hfound⟩ := ihb (if keeps .right then some k else retval) hb hmb hRb
        (by omega : b.toList.length < rounds)
      rw [← hr] at hrun
      refine ⟨r, hrun, hfound.node hk (fun i hi => ?_)
        (fun j hj => ⟨hRk j hj, fun i hi => hRab i hi j (List.mem_cons_of_mem k hj)⟩) fun i => ?_⟩
      · exact ⟨(hmab i hi k List.mem_cons_self).2 hk, hRab i hi k List.mem_cons_self⟩
      · rw [toList, List.mem_append, List.mem_cons]
        tauto

/-! ### Searches by comparison -/

section

variable {compare : κ → κ → ℤ} {key : ι → κ} {rounds : ℕ} {part : κ} {t : RedBlack.Tree ι}

/-- What the searches answer in a tree of the nodes `l`. -/
structure Searches (compare : κ → κ → ℤ) (key : ι → κ) (rounds : ℕ) (m : Heap ι) (l : List ι)
    (part : κ) : Prop where
  /-- A node that is equal, if there is one. -/
  find : ∃ r, njsRbtreeFind compare key rounds part m = some r ∧
    (∀ i, r = some i → i ∈ l ∧ compare part (key i) = 0) ∧
      (r = none → ∀ i ∈ l, compare part (key i) ≠ 0)
  /-- A greatest node that is not above. -/
  lessOrEqual : ∃ r, njsRbtreeFindLessOrEqual compare key rounds part m = some r ∧
    (∀ i, r = some i → i ∈ l ∧ compare (key i) part ≤ 0 ∧
      ∀ j ∈ l, compare (key j) part ≤ 0 → compare (key j) (key i) ≤ 0) ∧
        (r = none → ∀ i ∈ l, ¬compare (key i) part ≤ 0)
  /-- A least node that is not below. -/
  greaterOrEqual : ∃ r, njsRbtreeFindGreaterOrEqual compare key rounds part m = some r ∧
    (∀ i, r = some i → i ∈ l ∧ compare part (key i) ≤ 0 ∧
      ∀ j ∈ l, compare part (key j) ≤ 0 → compare (key i) (key j) ≤ 0) ∧
        (r = none → ∀ i ∈ l, ¬compare part (key i) ≤ 0)

theorem compared_left {n : ℤ} : compared n = some .left ↔ n < 0 := by
  unfold compared
  split_ifs <;> simp <;> omega

theorem compared_right {n : ℤ} : compared n = some .right ↔ 0 < n := by
  unfold compared
  split_ifs <;> simp <;> omega

theorem compared_none {n : ℤ} : compared n = none ↔ n = 0 := by
  unfold compared
  split_ifs <;> simp <;> omega

theorem monotone_compared (hcmp : TotalPreorder compare) (hord : InOrder compare key l) :
    Monotone (fun i => compared (compare part (key i))) l := by
  refine hord.imp fun {i j} hij => ?_
  simp only [compared_left, compared_right]
  have hi := hcmp.symm part (key i)
  have hi' := hcmp.symm (key i) part
  have hj := hcmp.symm part (key j)
  have hj' := hcmp.symm (key j) part
  have hij' := hcmp.symm (key j) (key i)
  constructor
  · intro hlt
    by_contra hge
    have := hcmp.trans (key i) (key j) part hij (by omega)
    omega
  · intro hlt
    by_contra hge
    have := hcmp.trans part (key i) (key j) (by omega) hij
    omega

/-- The comparison for a search that remembers the nodes from which it goes to a side. -/
def toward (compare : κ → κ → ℤ) : Side → κ → κ → ℤ
  | .left, k, l => compare l k
  | .right, k, l => compare k l

theorem TotalPreorder.toward (hcmp : TotalPreorder compare) (s : Side) :
    TotalPreorder (toward compare s) := by
  cases s with
  | left => exact ⟨fun k l => hcmp.symm l k, fun k l j hkl hlj => hcmp.trans j l k hlj hkl⟩
  | right => exact hcmp

theorem TotalPreorder.self (hcmp : TotalPreorder compare) (k : κ) : compare k k = 0 := by
  have := hcmp.symm k k
  omega

theorem bound_found (hcmp : TotalPreorder compare) (s : Side)
    (h : Found (fun i => compared (compare part (key i))) (· = s)
      (fun i j => compare (key i) (key j) ≤ 0) none l r) :
    (∀ i, r = some i → i ∈ l ∧ toward compare s (key i) part ≤ 0 ∧
      ∀ j ∈ l, toward compare s (key j) part ≤ 0 → toward compare s (key j) (key i) ≤ 0) ∧
        (r = none → ∀ i ∈ l, ¬toward compare s (key i) part ≤ 0) := by
  have hs := hcmp.toward s
  have hlt : ∀ i, compared (compare part (key i)) = some s ↔ toward compare s (key i) part < 0 := by
    intro i
    cases s with
    | left => exact compared_left
    | right => exact compared_right.trans (hcmp.symm _ _).symm
  have heq : ∀ i, compared (compare part (key i)) = none ↔ toward compare s (key i) part = 0 := by
    intro i
    rw [compared_none]
    cases s with
    | left => rfl
    | right =>
      have := hcmp.symm part (key i)
      have := hcmp.symm (key i) part
      rw [toward]
      omega
  obtain ⟨i, hi, rfl, hstop⟩ | ⟨hgoes, ⟨rfl, hnone⟩ | ⟨i, hi, s', rfl, hi', rfl, hlast⟩⟩ := h
  · refine ⟨?_, nofun⟩
    rintro _ ⟨⟩
    have h0 := (heq i).mp hstop
    have hsymm := hs.symm part (key i)
    have hsymm' := hs.symm (key i) part
    exact ⟨hi, by omega, fun j _ hj => hs.trans _ part _ hj (by omega)⟩
  · refine ⟨nofun, fun _ i hi hle => ?_⟩
    have hne := mt (heq i).mpr (hgoes i hi)
    exact hnone i hi s ((hlt i).mpr (by omega)) rfl
  · refine ⟨?_, nofun⟩
    rintro _ ⟨⟩
    refine ⟨hi, Int.le_of_lt ((hlt i).mp hi'), fun j hj hle => ?_⟩
    have hne := mt (heq j).mpr (hgoes j hj)
    obtain rfl | hahead := hlast j hj ((hlt j).mpr (by omega))
    · exact Int.le_of_eq (hs.self _)
    · cases s' <;> exact hahead

theorem searches_of_whole (hcmp : TotalPreorder compare) (h : Whole m t)
    (hord : InOrder compare key t.toList) (hperm : t.toList.Perm l)
    (hrounds : t.toList.length < rounds) : Searches compare key rounds m l part := by
  have hloop : ∀ (keeps : Side → Prop) [DecidablePred keeps], ∃ r,
      searchLoop (fun i => compared (compare part (key i))) keeps m rounds none
        (njsRbtreeRoot m) = some r ∧
      Found (fun i => compared (compare part (key i))) keeps
        (fun i j => compare (key i) (key j) ≤ 0) none l r := by
    intro keeps _
    obtain ⟨r, hrun, hfound⟩ := searchLoop_found keeps none h.rep
      (monotone_compared hcmp hord) hord hrounds
    rw [← h.top] at hrun
    refine ⟨r, hrun, ?_⟩
    simpa only [Found, hperm.mem_iff] using hfound
  constructor
  · obtain ⟨r, hrun, hfound⟩ := hloop fun _ => False
    refine ⟨r, hrun, ?_⟩
    obtain ⟨i, hi, rfl, hstop⟩ | ⟨hgoes, ⟨rfl, -⟩ | ⟨i, -, s, -, -, hf, -⟩⟩ := hfound
    · refine ⟨?_, nofun⟩
      rintro _ ⟨⟩
      exact ⟨hi, compared_none.mp hstop⟩
    · exact ⟨nofun, fun _ i hi h0 => hgoes i hi (compared_none.mpr h0)⟩
    · exact hf.elim
  · obtain ⟨r, hrun, hfound⟩ := hloop (· = .right)
    exact ⟨r, hrun, bound_found hcmp .right hfound⟩
  · obtain ⟨r, hrun, hfound⟩ := hloop (· = .left)
    exact ⟨r, hrun, bound_found hcmp .left hfound⟩

end

/-! ### The number of rounds -/

theorem searchLoop_node {p : Option ι} {c : Color} {a b : RedBlack.Tree ι} {k : ι} {rounds : ℕ}
    (h : Rep m p (.node c a k b))
    (ha : ∀ retval, ∃ r, searchLoop test keeps m rounds retval a.root = some r)
    (hb : ∀ retval, ∃ r, searchLoop test keeps m rounds retval b.root = some r) :
    ∃ r, searchLoop test keeps m (rounds + 1) retval (some k) = some r := by
  obtain ⟨hl, hr, -⟩ := h
  rw [searchLoop]
  rcases test k with _ | _ | _ <;> dsimp only
  · exact ⟨some k, rfl⟩
  · exact hl ▸ ha _
  · exact hr ▸ hb _

/-- A search passes at most one red node before every black one and before the leaf. -/
theorem searchLoop_balanced {p : Option ι} {t : RedBlack.Tree ι} {c : Color} {n rounds : ℕ}
    (h : Rep m p t) (hb : Balanced t c n) (hrounds : 2 * n + (if c = .red then 1 else 0) < rounds) :
    ∃ r, searchLoop test keeps m rounds retval t.root = some r := by
  induction hb generalizing p rounds retval with
  | leaf =>
    obtain ⟨rounds, rfl⟩ := Nat.exists_eq_add_of_lt hrounds
    exact ⟨retval, rfl⟩
  | red _ _ iha ihb =>
    obtain ⟨rounds, rfl⟩ : ∃ k, rounds = k + 1 := ⟨rounds - 1, by omega⟩
    refine searchLoop_node h (fun _ => iha h.2.2.2.2.1 ?_) fun _ => ihb h.2.2.2.2.2 ?_ <;>
      simpa using hrounds
  | @black _ _ _ c d n _ _ iha ihb =>
    obtain ⟨rounds, rfl⟩ : ∃ k, rounds = k + 1 := ⟨rounds - 1, by omega⟩
    refine searchLoop_node h (fun _ => iha h.2.2.2.2.1 ?_) fun _ => ihb h.2.2.2.2.2 ?_ <;>
      split_ifs at hrounds ⊢ <;> omega

/-! ### Blocks of a memory pool -/

/-- `njs_mp_block_t`: the address and the size of a block. Addresses of programs are in the lower
half of the address space. -/
structure Block where
  start : ℕ
  size : UInt32
  lt : start + size.toNat < 2 ^ 63

def Block.Contains (b : Block) (p : ℕ) : Prop := b.start ≤ p ∧ p < b.start + b.size.toNat

/-- Blocks at different places that do not reach into each other. -/
def Block.Apart (a b : Block) : Prop :=
  (a.start < b.start ∧ a.start + a.size.toNat ≤ b.start) ∨
    (b.start < a.start ∧ b.start + b.size.toNat ≤ a.start)

def njsMpRbtreeCompare (block1 block2 : Block) : ℤ :=
  (BitVec.ofNat 64 block1.start - BitVec.ofNat 64 block2.start).toInt

/-- The step of `njs_mp_find_block` at a block. -/
def blockSide (p : ℕ) (b : Block) : Option Side :=
  if p < b.start then some .left
  else if p ≥ b.start + b.size.toNat then some .right
  else none

def njsMpFindBlock (block : ι → Block) (rounds : ℕ) (m : Heap ι) (p : ℕ) : Option (Option ι) :=
  searchLoop (fun i => blockSide p (block i)) (fun _ => False) m rounds none (njsRbtreeRoot m)

theorem njsMpRbtreeCompare_eq (a b : Block) : njsMpRbtreeCompare a b = a.start - b.start := by
  have ha := a.lt
  have hb := b.lt
  have hbmod : ∀ n : ℤ, -2 ^ 63 ≤ n → n < 2 ^ 63 → n.bmod (2 ^ 64) = n := fun n _ _ =>
    Int.bmod_eq_of_le (by omega) (by omega)
  rw [njsMpRbtreeCompare, BitVec.toInt_sub, BitVec.toInt_ofNat', BitVec.toInt_ofNat',
    hbmod a.start (by omega) (by omega), hbmod b.start (by omega) (by omega),
    hbmod _ (by omega) (by omega)]

theorem totalPreorder_njsMpRbtreeCompare : TotalPreorder njsMpRbtreeCompare := by
  constructor <;> intros <;> simp only [njsMpRbtreeCompare_eq] at * <;> omega

section

variable {block : ι → Block} {rounds p : ℕ} {t : RedBlack.Tree ι}

theorem blockSide_left {b : Block} : blockSide p b = some .left ↔ p < b.start := by
  unfold blockSide
  split_ifs <;> simp <;> omega

theorem blockSide_right {b : Block} : blockSide p b = some .right ↔ b.start + b.size.toNat ≤ p := by
  unfold blockSide
  split_ifs <;> simp <;> omega

theorem blockSide_none {b : Block} : blockSide p b = none ↔ b.Contains p := by
  unfold blockSide Block.Contains
  split_ifs <;> simp <;> omega

/-- What the search for the block of an address answers in a tree of the nodes `l`. -/
def FindsBlock (block : ι → Block) (rounds : ℕ) (m : Heap ι) (l : List ι) (p : ℕ) : Prop :=
  ∃ r, njsMpFindBlock block rounds m p = some r ∧ (∀ i, r = some i → i ∈ l ∧ (block i).Contains p) ∧
      (r = none → ∀ i ∈ l, ¬(block i).Contains p)

theorem findsBlock_of_whole (h : Whole m t) (hord : InOrder njsMpRbtreeCompare block t.toList)
    (hperm : t.toList.Perm l) (hrounds : t.toList.length < rounds)
    (hapart : ∀ i ∈ l, ∀ j ∈ l, i ≠ j → (block i).Apart (block j)) :
    FindsBlock block rounds m l p := by
  have hmono : Monotone (fun i => blockSide p (block i)) t.toList := by
    refine (hord.and h.nodup).imp_of_mem fun {i j} hi hj hij => ?_
    have hle := hij.1
    rw [njsMpRbtreeCompare_eq] at hle
    have hapart := hapart i (hperm.mem_iff.mp hi) j (hperm.mem_iff.mp hj) hij.2
    simp only [blockSide_left, blockSide_right]
    rw [Block.Apart] at hapart
    omega
  obtain ⟨r, hrun, hfound⟩ := searchLoop_found (fun _ => False) none h.rep hmono hord hrounds
  rw [← h.top] at hrun
  refine ⟨r, hrun, ?_⟩
  simp only [Found, hperm.mem_iff] at hfound
  obtain ⟨i, hi, rfl, hstop⟩ | ⟨hgoes, ⟨rfl, -⟩ | ⟨i, -, s, -, -, hf, -⟩⟩ := hfound
  · refine ⟨?_, nofun⟩
    rintro _ ⟨⟩
    exact ⟨hi, blockSide_none.mp hstop⟩
  · exact ⟨nofun, fun _ i hi hin => hgoes i hi (blockSide_none.mpr hin)⟩
  · exact hf.elim

end

/-! ### Runs -/

section

variable [DecidableEq ι] {compare : κ → κ → ℤ}

/-- After every legal run from the empty tree the searches are right for every part, and in a tree
of
blocks that are apart the block of every address is found. -/
theorem run_searches (hcmp : TotalPreorder compare) :
    (∀ (steps : List (Step ι κ)) (rounds : ℕ), Legal steps [] → steps.length < rounds →
      ∀ st : State ι κ, ∃ st', run compare rounds steps ⟨njsRbtreeInit st.nodes,
        st.key⟩ = some st' ∧
        ∀ part, Searches compare st'.key rounds st'.nodes (held steps []) part) ∧
    ∀ (steps : List (Step ι Block)) (rounds : ℕ), Legal steps [] → steps.length < rounds →
      ∀ st : State ι Block, ∃ st',
        run njsMpRbtreeCompare rounds steps ⟨njsRbtreeInit st.nodes, st.key⟩ = some st' ∧
        ((∀ i ∈ held steps [], ∀ j ∈ held steps [], i ≠ j → (st'.key i).Apart (st'.key j)) →
          ∀ p, FindsBlock st'.key rounds st'.nodes (held steps []) p) := by
  constructor
  · intro steps rounds hlegal hrounds st
    obtain ⟨st', hrun, ⟨t, n, hw, -, hord, hperm⟩, hlt⟩ := run_init hcmp hlegal hrounds st
    exact ⟨st', hrun, fun part =>
      searches_of_whole hcmp hw hord hperm (hperm.length_eq ▸ hlt)⟩
  · intro steps rounds hlegal hrounds st
    obtain ⟨st', hrun, ⟨t, n, hw, -, hord, hperm⟩, hlt⟩ :=
      run_init totalPreorder_njsMpRbtreeCompare hlegal hrounds st
    exact ⟨st', hrun, fun hapart p =>
      findsBlock_of_whole hw hord hperm (hperm.length_eq ▸ hlt) hapart⟩

/-- After every legal run from the empty tree, a search among `n` nodes ends after at most
`2 * log₂ (n + 1) + 1` rounds, wherever its tests send it. -/
theorem run_searches_log (hcmp : TotalPreorder compare) (steps : List (Step ι κ)) {rounds : ℕ}
    (hlegal : Legal steps []) (hrounds : steps.length < rounds) (st : State ι κ) :
    ∃ st', run compare rounds steps ⟨njsRbtreeInit st.nodes, st.key⟩ = some st' ∧
      ∀ (test : ι → Option Side) (keeps : Side → Prop) [DecidablePred keeps], ∃ r,
        searchLoop test keeps st'.nodes (2 * ((held steps []).length + 1).log2 + 1) none
          (njsRbtreeRoot st'.nodes) = some r := by
  obtain ⟨st', hrun, ⟨t, n, hw, hb, -, hperm⟩, -⟩ := run_init hcmp hlegal hrounds st
  refine ⟨st', hrun, fun test keeps _ => ?_⟩
  have hlog : n ≤ (t.toList.length + 1).log2 :=
    (Nat.le_log2 (Nat.succ_ne_zero _)).mpr hb.two_pow_le
  rw [hperm.length_eq] at hlog
  rw [njsRbtreeRoot, hw.top]
  exact searchLoop_balanced hw.rep hb (by rw [if_neg (by decide)]; omega)

def twoBlocks : List (Step ℕ Block) :=
  [.write 1 (fun _ => none) none .red ⟨4096, 512, by decide⟩, .insert 1,
    .write 2 (fun _ => none) none .red ⟨8192, 64, by decide⟩, .insert 2]

theorem run_searches_two : (∃ st', run (fun k l : ℕ => (k : ℤ) - l) 8 threeNodes
        ⟨njsRbtreeInit ⟨fun _ _ => none, fun _ => none, fun _ => .red⟩, fun _ => 0⟩ = some st' ∧
      ∀ part, Searches (fun k l : ℕ => (k : ℤ) - l) st'.key 8 st'.nodes [3, 2] part) ∧
    ∃ st', run njsMpRbtreeCompare 8 twoBlocks
        ⟨njsRbtreeInit ⟨fun _ _ => none, fun _ => none, fun _ => .red⟩,
          fun _ => ⟨0, 0, by decide⟩⟩ = some st' ∧
      ((∀ i ∈ [2, 1], ∀ j ∈ [2, 1], i ≠ j → (st'.key i).Apart (st'.key j)) →
        ∀ p, FindsBlock st'.key 8 st'.nodes [2, 1] p) := by
  have hcmp : TotalPreorder fun k l : ℕ => (k : ℤ) - l :=
    ⟨fun k l => by omega, fun k l j => by omega⟩
  obtain ⟨hsearch, hblock⟩ := run_searches (ι := ℕ) hcmp
  exact ⟨hsearch threeNodes 8 (by decide) (by decide)
      ⟨⟨fun _ _ => none, fun _ => none, fun _ => .red⟩, fun _ => 0⟩,
    hblock twoBlocks 8 (by decide) (by decide)
      ⟨⟨fun _ _ => none, fun _ => none, fun _ => .red⟩, fun _ => ⟨0, 0, by decide⟩⟩⟩

theorem run_searches_log_three : ∃ st', run (fun k l : ℕ => (k : ℤ) - l) 8 threeNodes
      ⟨njsRbtreeInit ⟨fun _ _ => none, fun _ => none, fun _ => .red⟩, fun _ => 0⟩ = some st' ∧
    ∀ (test : ℕ → Option Side) (keeps : Side → Prop) [DecidablePred keeps], ∃ r,
      searchLoop test keeps st'.nodes 3 none (njsRbtreeRoot st'.nodes) = some r :=
  run_searches_log ⟨fun k l => by omega, fun k l j => by omega⟩ threeNodes (by decide) (by decide)
    ⟨⟨fun _ _ => none, fun _ => none, fun _ => .red⟩, fun _ => 0⟩

end

end Njs.RbTree
