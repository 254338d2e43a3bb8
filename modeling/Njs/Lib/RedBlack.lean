import Mathlib.Algebra.Group.Nat.Defs
import Mathlib.Data.List.Nodup

/-!
# Red-black trees and their contexts

Binary trees whose nodes have a colour, and the same trees with a hole. The mirror images of a
statement are one statement about a side: `Tree.mk s c a i b` is the tree whose child on the side
`s` is `a` and whose other child is `b`.
-/

namespace RedBlack

variable {ι : Type*}

/-- The colours. -/
inductive Color
  | black
  | red
  deriving DecidableEq

/-- The sides. -/
inductive Side
  | left
  | right
  deriving DecidableEq

def Side.other : Side → Side
  | .left => .right
  | .right => .left

@[simp] theorem Side.other_other (s : Side) : s.other.other = s := by
  cases s <;> rfl

@[simp] theorem Side.other_ne (s : Side) : s.other ≠ s := by
  cases s <;> decide

@[simp] theorem Side.ne_other (s : Side) : s ≠ s.other := s.other_ne.symm

theorem Side.eq_or_eq_other (s t : Side) : t = s ∨ t = s.other := by
  cases s <;> cases t <;> decide

/-- Binary trees. -/
inductive Tree (ι : Type*)
  | leaf
  | node (c : Color) (l : Tree ι) (i : ι) (r : Tree ι)

namespace Tree

/-- The tree with the child `a` on a side. -/
def mk (s : Side) (c : Color) (a : Tree ι) (i : ι) (b : Tree ι) : Tree ι :=
  match s with
  | .left => node c a i b
  | .right => node c b i a

theorem mk_other (s : Side) (c : Color) (a : Tree ι) (i : ι) (b : Tree ι) :
    mk s.other c a i b = mk s c b i a := by
  cases s <;> rfl

/-- The colour of the root; leaves are black. -/
def color : Tree ι → Color
  | leaf => .black
  | node c _ _ _ => c

def root : Tree ι → Option ι
  | leaf => none
  | node _ _ i _ => some i

/-- The nodes in their order. -/
def toList : Tree ι → List ι
  | leaf => []
  | node _ l i r => l.toList ++ i :: r.toList

@[simp] theorem color_leaf : (leaf : Tree ι).color = .black := rfl
@[simp] theorem root_leaf : (leaf : Tree ι).root = none := rfl
@[simp] theorem toList_leaf : (leaf : Tree ι).toList = [] := rfl

variable (s : Side) (c d : Color) (a b e : Tree ι) (i j : ι)

@[simp] theorem color_mk : (mk s c a i b).color = c := by
  cases s <;> rfl

@[simp] theorem root_mk : (mk s c a i b).root = some i := by
  cases s <;> rfl

theorem mem_toList_mk (k : ι) :
    k ∈ (mk s c a i b).toList ↔ k = i ∨ k ∈ a.toList ∨ k ∈ b.toList := by
  cases s <;> simp only [mk, toList, List.mem_append, List.mem_cons] <;> tauto

theorem nodup_toList_mk : (mk s c a i b).toList.Nodup ↔
      a.toList.Nodup ∧ b.toList.Nodup ∧ i ∉ a.toList ∧ i ∉ b.toList ∧
        a.toList.Disjoint b.toList := by
  cases s with
  | left =>
    simp only [mk, toList, List.nodup_append', List.nodup_cons, List.disjoint_cons_right]
    tauto
  | right =>
    simp only [mk, toList, List.nodup_append', List.nodup_cons, List.disjoint_cons_left,
      @List.disjoint_comm _ b.toList]
    tauto

theorem toList_mk_color : (mk s c a i b).toList = (mk s d a i b).toList := by
  cases s <;> rfl

theorem toList_rotate (c' d' : Color) :
    (mk s d' (mk s c' a i b) j e).toList = (mk s c a i (mk s d b j e)).toList := by
  cases s <;> simp [mk, toList]

theorem root_mem {t : Tree ι} (h : t.root = some i) : i ∈ t.toList := by
  cases t with
  | leaf => cases h
  | node c l k r =>
    obtain rfl : k = i := Option.some.inj h
    simp [toList]

end Tree

open RedBlack.Tree

/-! ### Paths -/

/-- One step from a subtree up: the side on which it is, the node above it and its sibling. -/
structure Frame (ι : Type*) where
  side : Side
  color : Color
  node : ι
  sibling : Tree ι

/-- The tree of a subtree and its path, the lowest step first. -/
def zip : List (Frame ι) → Tree ι → Tree ι
  | [], t => t
  | f :: path, t => zip path (mk f.side f.color t f.node f.sibling)

/-- The nodes before the hole of a path. -/
def before : List (Frame ι) → List ι
  | [] => []
  | ⟨.left, _, _, _⟩ :: path => before path
  | ⟨.right, _, i, t⟩ :: path => before path ++ (t.toList ++ [i])

/-- The nodes after the hole of a path. -/
def after : List (Frame ι) → List ι
  | [] => []
  | ⟨.left, _, i, t⟩ :: path => i :: (t.toList ++ after path)
  | ⟨.right, _, _, _⟩ :: path => after path

def above : List (Frame ι) → Option ι
  | [] => none
  | f :: _ => some f.node

/-- The side of the hole; the root is on the left. -/
def sideOf : List (Frame ι) → Side
  | [] => .left
  | f :: _ => f.side

def pathNodes : List (Frame ι) → List ι
  | [] => []
  | f :: path => f.node :: (f.sibling.toList ++ pathNodes path)

section Paths

variable (path path' : List (Frame ι)) (t t' : Tree ι)

theorem zip_cons (f : Frame ι) :
    zip (f :: path) t = zip path (mk f.side f.color t f.node f.sibling) := rfl

theorem zip_append : zip (path ++ path') t = zip path' (zip path t) := by
  induction path generalizing t with
  | nil => rfl
  | cons f path ih => exact ih _

theorem toList_zip : (zip path t).toList = before path ++ (t.toList ++ after path) := by
  induction path generalizing t with
  | nil => simp [zip, before, after]
  | cons f path ih =>
    obtain ⟨s, c, i, u⟩ := f
    rw [zip_cons, ih]
    cases s <;> simp [mk, toList, before, after]

theorem toList_zip_congr (h : t.toList = t'.toList) :
    (zip path t).toList = (zip path t').toList := by
  rw [toList_zip, toList_zip, h]

theorem nodup_zip : (zip path t).toList.Nodup ↔
      t.toList.Nodup ∧ (pathNodes path).Nodup ∧ t.toList.Disjoint (pathNodes path) := by
  induction path generalizing t with
  | nil => simp [zip, pathNodes]
  | cons f path ih =>
    rw [zip_cons, ih, nodup_toList_mk, pathNodes, List.nodup_cons, List.nodup_append',
      List.mem_append]
    have hdisj : (mk f.side f.color t f.node f.sibling).toList.Disjoint (pathNodes path) ↔
        f.node ∉ pathNodes path ∧ t.toList.Disjoint (pathNodes path) ∧
          f.sibling.toList.Disjoint (pathNodes path) := by
      simp only [List.Disjoint, mem_toList_mk]
      constructor
      · intro h
        exact ⟨fun hp => h (.inl rfl) hp, fun _ hi hp => h (.inr (.inl hi)) hp,
          fun _ hi hp => h (.inr (.inr hi)) hp⟩
      · rintro ⟨h₁, h₂, h₃⟩ k (rfl | hk | hk) hp
        · exact h₁ hp
        · exact h₂ hk hp
        · exact h₃ hk hp
    rw [hdisj, List.disjoint_cons_right, List.disjoint_append_right]
    tauto

theorem mem_zip (k : ι) : k ∈ (zip path t).toList ↔ k ∈ t.toList ∨ k ∈ pathNodes path := by
  induction path generalizing t with
  | nil => simp [zip, pathNodes]
  | cons f path ih =>
    rw [zip_cons, ih, mem_toList_mk, pathNodes, List.mem_cons, List.mem_append]
    tauto

theorem root_zip_cons (f : Frame ι) :
    ∃ i ∈ pathNodes (f :: path), (zip (f :: path) t).root = some i := by
  induction path generalizing f t with
  | nil => exact ⟨f.node, List.mem_cons_self, root_mk ..⟩
  | cons g path ih =>
    obtain ⟨i, hi, hr⟩ := ih (mk f.side f.color t f.node f.sibling) g
    exact ⟨i, List.mem_cons_of_mem _ (List.mem_append_right _ hi), hr⟩

theorem path_length_le : path.length ≤ (zip path t).toList.length := by
  induction path generalizing t with
  | nil => exact Nat.zero_le _
  | cons f path ih =>
    have hlen : ∀ (path : List (Frame ι)) (u : Tree ι),
        (zip path u).toList.length = (before path).length + u.toList.length +
          (after path).length := fun path u => by
      rw [toList_zip, List.length_append, List.length_append]
      omega
    have hmk : (mk f.side f.color t f.node f.sibling).toList.length ≥ 1 :=
      List.length_pos_of_mem ((mem_toList_mk ..).mpr (.inl rfl))
    have hleaf := ih .leaf
    rw [zip_cons, List.length_cons]
    rw [hlen] at hleaf ⊢
    simp only [toList_leaf, List.length_nil] at hleaf
    omega

theorem exists_zip {i : ι} (h : i ∈ t.toList) : ∃ path c l r, t = zip path (node c l i r) := by
  induction t with
  | leaf => simp at h
  | node c l k r ihl ihr =>
    simp only [toList, List.mem_append, List.mem_cons] at h
    obtain hl | rfl | hr := h
    · obtain ⟨path, d, a, b, rfl⟩ := ihl hl
      exact ⟨path ++ [⟨.left, c, k, r⟩], d, a, b, by rw [zip_append]; rfl⟩
    · exact ⟨[], c, l, r, rfl⟩
    · obtain ⟨path, d, a, b, rfl⟩ := ihr hr
      exact ⟨path ++ [⟨.right, c, k, l⟩], d, a, b, by rw [zip_append]; rfl⟩

end Paths

/-! ### Balance -/

/-- No red node has a red child, and every path to a leaf passes `n` black nodes. The colour is
that of the root. -/
inductive Balanced : Tree ι → Color → ℕ → Prop
  | leaf : Balanced .leaf .black 0
  | red {l : Tree ι} {i : ι} {r : Tree ι} {n : ℕ} :
      Balanced l .black n → Balanced r .black n → Balanced (.node .red l i r) .red n
  | black {l : Tree ι} {i : ι} {r : Tree ι} {c d : Color} {n : ℕ} :
      Balanced l c n → Balanced r d n → Balanced (.node .black l i r) .black (n + 1)

namespace Balanced

variable {s : Side} {c d : Color} {a b t : Tree ι} {i : ι} {n : ℕ}

theorem two_pow_le (h : Balanced t c n) : 2 ^ n ≤ t.toList.length + 1 := by
  induction h with
  | leaf => exact Nat.le_refl _
  | red _ _ ihl _ =>
    rw [toList, List.length_append]
    omega
  | black _ _ ihl ihr =>
    rw [toList, List.length_append, List.length_cons, Nat.pow_succ]
    omega

theorem color_eq (h : Balanced t c n) : t.color = c := by
  cases h <;> rfl

theorem mk_red (ha : Balanced a .black n) (hb : Balanced b .black n) :
    Balanced (mk s .red a i b) .red n := by
  cases s with
  | left => exact .red ha hb
  | right => exact .red hb ha

theorem mk_black (ha : Balanced a c n) (hb : Balanced b d n) :
    Balanced (mk s .black a i b) .black (n + 1) := by
  cases s with
  | left => exact .black ha hb
  | right => exact .black hb ha

theorem of_mk_red (h : Balanced (mk s .red a i b) c n) :
    c = .red ∧ Balanced a .black n ∧ Balanced b .black n := by
  cases s <;> cases h with
  | red hl hr => exact ⟨rfl, by assumption, by assumption⟩

theorem of_mk_black (h : Balanced (mk s .black a i b) c n) :
    ∃ d e m, c = .black ∧ n = m + 1 ∧ Balanced a d m ∧ Balanced b e m := by
  cases s <;> cases h with
  | black hl hr => exact ⟨_, _, _, rfl, rfl, by assumption, by assumption⟩

theorem exists_red (h : Balanced t .red n) (s : Side) :
    ∃ a i b, t = mk s .red a i b ∧ Balanced a .black n ∧ Balanced b .black n := by
  cases h with
  | @red l i r n hl hr =>
    cases s with
    | left => exact ⟨l, i, r, rfl, hl, hr⟩
    | right => exact ⟨r, i, l, rfl, hr, hl⟩

theorem exists_black (h : Balanced t .black (n + 1)) (s : Side) :
    ∃ a i b c d, t = mk s .black a i b ∧ Balanced a c n ∧ Balanced b d n := by
  cases h with
  | @black l i r c d n hl hr =>
    cases s with
    | left => exact ⟨l, i, r, c, d, rfl, hl, hr⟩
    | right => exact ⟨r, i, l, d, c, rfl, hr, hl⟩

end Balanced

/-- The hole may be filled with a tree with a root of the colour `c` and with `n` black nodes on
every path. The root of a whole tree is black. -/
inductive BalancedPath : List (Frame ι) → Color → ℕ → Prop
  | nil {n : ℕ} : BalancedPath [] .black n
  | red {s : Side} {i : ι} {t : Tree ι} {path : List (Frame ι)} {n : ℕ} :
      Balanced t .black n → BalancedPath path .red n →
        BalancedPath (⟨s, .red, i, t⟩ :: path) .black n
  | black {s : Side} {i : ι} {t : Tree ι} {path : List (Frame ι)} {c d : Color} {n : ℕ} :
      Balanced t d n → BalancedPath path .black (n + 1) →
        BalancedPath (⟨s, .black, i, t⟩ :: path) c n

namespace BalancedPath

variable {path : List (Frame ι)} {c : Color} {t : Tree ι} {n : ℕ}

theorem to_black (h : BalancedPath path c n) : BalancedPath path .black n := by
  cases h with
  | nil => exact .nil
  | red ht hp => exact .red ht hp
  | black ht hp => exact .black ht hp

theorem exists_black (h : BalancedPath path .red n) :
    ∃ s i t d path', path = ⟨s, .black, i, t⟩ :: path' ∧ Balanced t d n ∧
      BalancedPath path' .black (n + 1) := by
  cases h with
  | black ht hp => exact ⟨_, _, _, _, _, rfl, ht, hp⟩

theorem zip (hp : BalancedPath path c n) (ht : Balanced t c n) :
    ∃ m, Balanced (zip path t) .black m := by
  induction hp generalizing t with
  | nil => exact ⟨_, ht⟩
  | red hs _ ih => exact ih (.mk_red ht hs)
  | black hs _ ih => exact ih (.mk_black ht hs)

theorem of_zip (h : Balanced (RedBlack.zip path t) .black n) :
    ∃ c m, Balanced t c m ∧ BalancedPath path c m := by
  induction path generalizing t with
  | nil => exact ⟨_, _, h, .nil⟩
  | cons f path ih =>
    obtain ⟨c, m, hm, hp⟩ := ih h
    obtain ⟨s, d, i, u⟩ := f
    cases d with
    | red =>
      obtain ⟨rfl, ht, hu⟩ := hm.of_mk_red
      exact ⟨_, _, ht, .red hu hp⟩
    | black =>
      obtain ⟨d, e, k, rfl, rfl, ht, hu⟩ := hm.of_mk_black
      exact ⟨_, _, ht, .black hu hp⟩

theorem rename {s : Side} {d : Color} {i : ι} (j : ι) {u : Tree ι} {up : List (Frame ι)}
    (h : BalancedPath (path ++ ⟨s, d, i, u⟩ :: up) c n) :
    BalancedPath (path ++ ⟨s, d, j, u⟩ :: up) c n := by
  induction path generalizing c n with
  | nil =>
    cases h with
    | red hu hp => exact .red hu hp
    | black hu hp => exact .black hu hp
  | cons f path ih =>
    cases h with
    | red hu hp => exact .red hu (ih hp)
    | black hu hp => exact .black hu (ih hp)

end BalancedPath

/-- The number of black nodes above a node whose children have `n` below them. -/
def Color.rise : Color → ℕ → ℕ
  | .red, n => n
  | .black, n => n + 1

theorem BalancedPath.frame {s : Side} {d : Color} {i : ι} {u : Tree ι} {path : List (Frame ι)}
    {n : ℕ} (h : BalancedPath (⟨s, d, i, u⟩ :: path) .black n) :
    BalancedPath path d (d.rise n) ∧ ∃ e, Balanced u e n ∧ (d = .red → e = .black) := by
  cases h with
  | red hu hp => exact ⟨hp, _, hu, fun _ => rfl⟩
  | black hu hp => exact ⟨hp, _, hu, fun hd => by cases hd⟩

theorem Balanced.mk_black_children {s : Side} (d : Color) {a b : Tree ι} {i : ι} {n : ℕ}
    (ha : Balanced a .black n) (hb : Balanced b .black n) :
    Balanced (mk s d a i b) d (d.rise n) := by
  cases d with
  | red => exact .mk_red ha hb
  | black => exact .mk_black ha hb

/-- A subtree in which one black node is missing; a red root only has to become black. -/
inductive Lacking : Tree ι → ℕ → Prop
  | black {t : Tree ι} {n : ℕ} : Balanced t .black n → Lacking t n
  | red {s : Side} {a : Tree ι} {i : ι} {b : Tree ι} {n : ℕ} :
      Balanced (mk s .black a i b) .black (n + 1) → Lacking (mk s .red a i b) n

end RedBlack
