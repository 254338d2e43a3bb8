import Njs.SharedDict.Effects

/-!
# The two trees of a zone

A zone is *well formed* when the two trees link the same nodes, every linked node and its value
buffer are allocated chunks owned by that node alone, and no key occurs twice. In the middle of
an operation a node may be out of the expire tree (`ngx_js_dict_update` takes it out before it
allocates) and chunks may be allocated without being linked yet; `Inv` lists both kinds. Each
step of an operation preserves `Inv` with these lists changed as the step changes them, and an
operation starts and ends with both lists empty.
-/

namespace Njs.SharedDict

variable {ν : Type} {c : Conf} {z z' : Zone ν} {held out : List Addr}

/-- The chunks that the nodes of `l` own. -/
def owned (c : Conf) (z : Zone ν) (l : List Addr) : List Addr :=
  l.flatMap (chunksOf c z)

/-- The invariant of a zone: `held` are chunks that the current operation has allocated and not
linked, `out` are nodes of the main tree that it has taken out of the expire tree. -/
structure Inv (c : Conf) (z : Zone ν) (held out : List Addr) : Prop where
  keys : (z.rbtree.map fun a => (z.node a).key).Nodup
  chunks : z.chunks.Nodup
  alloc : (held ++ owned c z z.rbtree).Subperm z.chunks
  expire : c.timeout ≠ 0 → (out ++ z.rbtreeExpire).Perm z.rbtree
  noExpire : c.timeout = 0 → z.rbtreeExpire = []

theorem owned_cons (c : Conf) (z : Zone ν) (a : Addr) (l : List Addr) :
    owned c z (a :: l) = chunksOf c z a ++ owned c z l :=
  List.flatMap_cons

theorem mem_chunksOf_self (c : Conf) (z : Zone ν) (a : Addr) : a ∈ chunksOf c z a := by
  unfold chunksOf
  cases c.type <;> simp

theorem owned_perm {l l' : List Addr} (h : l.Perm l') : (owned c z l).Perm (owned c z l') :=
  h.flatMap_right _

theorem sublist_owned (c : Conf) (z : Zone ν) : (l : List Addr) → l.Sublist (owned c z l)
  | [] => .slnil
  | a :: l => by
    rw [owned_cons, ← List.singleton_append]
    exact (List.singleton_sublist.mpr (mem_chunksOf_self c z a)).append (sublist_owned c z l)

theorem owned_congr {l : List Addr} (h : ∀ a ∈ l, (z'.node a).str = (z.node a).str) :
    owned c z' l = owned c z l := by
  refine List.flatMap_congr fun a ha => ?_
  simp only [chunksOf, h a ha]

theorem deleteExpire_of_nil (h : z.rbtreeExpire = []) (a : Addr) : z.deleteExpire a = z := by
  rw [Zone.deleteExpire, h, List.erase_nil, ← h]

namespace Inv

theorem nodup_alloc (h : Inv c z held out) : (held ++ owned c z z.rbtree).Nodup :=
  nodup_of_subperm h.alloc h.chunks

theorem nodup (h : Inv c z held out) : z.rbtree.Nodup :=
  (h.nodup_alloc.of_append_right).sublist (sublist_owned c z z.rbtree)

theorem notMem_of_held (h : Inv c z held out) {p : Addr} (hp : p ∈ held) : p ∉ z.rbtree :=
  fun hm => List.disjoint_of_nodup_append h.nodup_alloc hp
    ((sublist_owned c z z.rbtree).subset hm)

variable {a : Addr}

theorem mem_of_expire (h : Inv c z held out) (ha : a ∈ z.rbtreeExpire) : a ∈ z.rbtree := by
  by_cases ht : c.timeout = 0
  · rw [h.noExpire ht] at ha
    exact absurd ha (by simp)
  · exact (h.expire ht).subset (List.mem_append_right _ ha)

theorem notMem_out (h : Inv c z held out) (ha : a ∈ z.rbtreeExpire) : a ∉ out := by
  by_cases ht : c.timeout = 0
  · rw [h.noExpire ht] at ha
    exact absurd ha (by simp)
  · have hn : (out ++ z.rbtreeExpire).Nodup := (h.expire ht).nodup_iff.mpr h.nodup
    exact fun ho => List.disjoint_of_nodup_append hn ho ha

theorem nodup_expire (h : Inv c z held out) : z.rbtreeExpire.Nodup := by
  by_cases ht : c.timeout = 0
  · rw [h.noExpire ht]
    exact List.nodup_nil
  · exact ((h.expire ht).nodup_iff.mpr h.nodup).of_append_right

theorem congr (h : Inv c z held out) (hnode : z'.node = z.node) (hc : z'.chunks = z.chunks)
    (ht : z'.rbtree = z.rbtree) (he : z'.rbtreeExpire = z.rbtreeExpire) :
    Inv c z' held out where
  keys := by rw [ht, hnode]; exact h.keys
  chunks := by rw [hc]; exact h.chunks
  alloc := by
    rw [hc, ht, owned_congr (z := z) fun a _ => by rw [hnode]]
    exact h.alloc
  expire h0 := by rw [ht, he]; exact h.expire h0
  noExpire h0 := by rw [he]; exact h.noExpire h0

/-! ### Removing nodes -/

theorem delete_eq_dropNode (h : Inv c z held out) (a : Addr) :
    ngxJsDictNodeFree c ((outOfExpire c a z).deleteTree a) a = SharedDict.dropNode c z a := by
  unfold outOfExpire SharedDict.dropNode
  split
  · rfl
  · next ht => rw [deleteExpire_of_nil (h.noExpire (not_not.mp ht))]

theorem dropNode (h : Inv c z held out) (ha : a ∈ z.rbtree) (hout : a ∉ out) :
    Inv c (dropNode c z a) held out := by
  rw [dropNode_eq]
  have hperm : z.rbtree.Perm (a :: z.rbtree.erase a) := List.perm_cons_erase ha
  have hown : (owned c z z.rbtree).Perm (chunksOf c z a ++ owned c z (z.rbtree.erase a)) := by
    rw [← owned_cons]
    exact owned_perm hperm
  constructor
  · exact h.keys.sublist (List.erase_sublist.map _)
  · exact h.chunks.diff
  · refine subperm_diff_of_append (chunksOf c z a) (List.Subperm.trans ?_ h.alloc)
    refine ((hown.append_left held).trans ?_).symm.subperm
    rw [← List.append_assoc, ← List.append_assoc]
    exact List.perm_append_comm.append_right _
  · intro ht
    have he := (h.expire ht).erase a
    rwa [List.erase_append_right _ hout] at he
  · intro ht
    simp [h.noExpire ht]

theorem dropNode_expire (h : Inv c z held out) {l : List Addr} (hl : a :: l ⊆ z.rbtreeExpire)
    (hn : (a :: l).Nodup) :
    Inv c (SharedDict.dropNode c z a) held out ∧ l ⊆ (SharedDict.dropNode c z a).rbtreeExpire := by
  have ha : a ∈ z.rbtreeExpire := hl List.mem_cons_self
  refine ⟨h.dropNode (h.mem_of_expire ha) (h.notMem_out ha), fun b hb => ?_⟩
  have hne : b ≠ a := fun hba => (List.nodup_cons.mp hn).1 (hba ▸ hb)
  rw [dropNode_eq]
  exact (List.mem_erase_of_ne hne).mpr (hl (List.mem_cons_of_mem _ hb))

theorem evictLoop : (l : List Addr) → (count : ℕ) → {z : Zone ν} → Inv c z held out →
    l ⊆ z.rbtreeExpire → l.Nodup → Inv c (ngxJsDictEvictLoop c l count z).1 held out
  | [], _, _, h, _, _ => h
  | _ :: _, 0, _, h, _, _ => h
  | _ :: l, count + 1, _, h, hl, hn =>
    have h' := h.dropNode_expire hl hn
    evictLoop l count h'.1 h'.2 hn.of_cons

theorem evict (h : Inv c z held out) (count : ℕ) : Inv c (ngxJsDictEvict c count z).1 held out :=
  h.evictLoop z.rbtreeExpire count (List.Subset.refl _) h.nodup_expire

theorem expireLoop (now : Msec) : (l : List Addr) → {z : Zone ν} → Inv c z held out →
    l ⊆ z.rbtreeExpire → l.Nodup → Inv c (ngxJsDictExpireLoop c now l z) held out
  | [], _, h, _, _ => h
  | a :: l, z, h, hl, hn => by
    rw [ngxJsDictExpireLoop]
    split
    · exact h
    · have h' := h.dropNode_expire hl hn
      exact expireLoop now l h'.1 h'.2 hn.of_cons

theorem expireSweep (h : Inv c z held out) (now : Msec) :
    Inv c (ngxJsDictExpire c now z) held out :=
  h.expireLoop now z.rbtreeExpire (List.Subset.refl _) h.nodup_expire

/-- `clear()` in a zone without timeout. -/
theorem clearLoop (ht : c.timeout = 0) : (l : List Addr) → {z : Zone ν} → Inv c z held [] →
    l ⊆ z.rbtree → l.Nodup → Inv c (SharedDict.clearLoop c l z) held []
  | [], _, h, _, _ => h
  | a :: l, z, h, hl, hn => by
    have hdrop : ngxJsDictNodeFree c (z.deleteTree a) a = SharedDict.dropNode c z a := by
      rw [SharedDict.dropNode, deleteExpire_of_nil (h.noExpire ht)]
    rw [SharedDict.clearLoop, hdrop]
    refine clearLoop ht l (h.dropNode (hl List.mem_cons_self) (by simp)) (fun b hb => ?_)
      hn.of_cons
    have hne : b ≠ a := fun hba => (List.nodup_cons.mp hn).1 (hba ▸ hb)
    rw [dropNode_eq]
    exact (List.mem_erase_of_ne hne).mpr (hl (List.mem_cons_of_mem _ hb))

/-! ### Allocating -/

theorem slabAlloc (h : Inv c z held out) (n : ℕ) :
    Inv c (z.slabAlloc n).1 ((z.slabAlloc n).2.toList ++ held) out := by
  obtain ⟨slab, heq⟩ | ⟨p, slab, hp, heq⟩ := z.slabAlloc_cases n
  · rw [heq]
    exact h.congr rfl rfl rfl rfl
  · rw [heq]
    exact ⟨h.keys, List.nodup_cons.mpr ⟨hp, h.chunks⟩,
      (List.subperm_cons p).mpr h.alloc, h.expire, h.noExpire⟩

theorem allocLoop (n : ℕ) : (rounds : ℕ) → {z : Zone ν} → Inv c z held out →
    Inv c (ngxJsDictAllocLoop c n rounds z).1
      ((ngxJsDictAllocLoop c n rounds z).2.toList ++ held) out
  | 0, _, h => h
  | rounds + 1, z, h => by
    have hev := h.evict 16
    have hal := hev.slabAlloc n
    rw [allocLoop_succ]
    split
    · exact hev
    split
    · next p hp =>
      rwa [hp] at hal
    · next hp =>
      rw [hp] at hal
      exact allocLoop n rounds hal

/-- `ngx_js_dict_alloc`: the chunk that it returns is held, and whatever it evicts leaves both
trees. -/
theorem alloc_inv (h : Inv c z held out) (n : ℕ) :
    Inv c (ngxJsDictAlloc c n z).1 ((ngxJsDictAlloc c n z).2.toList ++ held) out := by
  have hal := h.slabAlloc n
  unfold ngxJsDictAlloc
  split
  · cases hs : z.slabAlloc n with
    | mk z₁ r =>
      rw [hs] at hal
      cases r with
      | some p => exact hal
      | none =>
        have hlo := allocLoop (c := c) n z₁.rbtreeExpire.length hal
        simp only
        cases hl : ngxJsDictAllocLoop c n z₁.rbtreeExpire.length z₁ with
        | mk z₂ r =>
          rw [hl] at hlo
          cases r with
          | some p => exact hlo
          | none => exact Inv.slabAlloc hlo n
  · exact hal

theorem mem_alloc (h : Inv c z held out) (ha : a ∈ z.rbtree) (hout : a ∈ out) (n : ℕ) :
    a ∈ (ngxJsDictAlloc c n z).1.rbtree := by
  by_cases ht : c.timeout = 0
  · obtain ⟨k, -, hk⟩ := swept_alloc c n z
    rw [hk.rbtree, h.noExpire ht, List.take_nil, List.diff_nil]
    exact ha
  · exact ((h.alloc_inv n).expire ht).subset (List.mem_append_left _ hout)

theorem freeHeld {p : Addr} (h : Inv c z (p :: held) out) : Inv c (z.slabFree p) held out where
  keys := h.keys
  chunks := h.chunks.erase p
  alloc := by
    have hal := h.alloc.erase p
    rwa [List.cons_append, List.erase_cons_head] at hal
  expire := h.expire
  noExpire := h.noExpire

/-! ### Writing and linking nodes -/

theorem setNode_unlinked (h : Inv c z held out) (ha : a ∉ z.rbtree) (n : Node ν) :
    Inv c (z.setNode a n) held out := by
  have hne : ∀ b ∈ z.rbtree, (z.setNode a n).node b = z.node b := fun b hb =>
    Function.update_of_ne (by rintro rfl; exact ha hb) _ _
  refine ⟨?_, h.chunks, ?_, h.expire, h.noExpire⟩
  · rw [Zone.setNode_rbtree, List.map_congr_left fun b hb => by rw [hne b hb]]
    exact h.keys
  · rw [Zone.setNode_rbtree, owned_congr (z := z) fun b hb => by rw [hne b hb]]
    exact h.alloc

theorem setNode_same (h : Inv c z held out) (a : Addr) {n : Node ν}
    (hkey : n.key = (z.node a).key) (hstr : n.str = (z.node a).str) :
    Inv c (z.setNode a n) held out := by
  have hk : ∀ b, ((z.setNode a n).node b).key = (z.node b).key := fun b => by
    rw [Zone.setNode_node, Function.update_apply]
    split <;> simp_all
  have hs : ∀ b, ((z.setNode a n).node b).str = (z.node b).str := fun b => by
    rw [Zone.setNode_node, Function.update_apply]
    split <;> simp_all
  refine ⟨?_, h.chunks, ?_, h.expire, h.noExpire⟩
  · simp only [hk, Zone.setNode_rbtree]
    exact h.keys
  · rw [Zone.setNode_rbtree, owned_congr (z := z) fun b _ => hs b]
    exact h.alloc

theorem setBuf (h : Inv c z held out) (p : Addr) (s : Bytes) : Inv c (z.setBuf p s) held out :=
  h.congr rfl rfl rfl rfl

theorem insertTree [Env ν] (h : Inv c z (chunksOf c z a ++ held) out)
    (hkey : ∀ b ∈ z.rbtree, (z.node b).key ≠ (z.node a).key) :
    Inv c (z.insertTree a) held (a :: out) := by
  have hperm : (z.insertTree a).rbtree.Perm (a :: z.rbtree) := List.perm_orderedInsert _ _ _
  have hown : (owned c z (a :: z.rbtree)).Perm (owned c z (z.insertTree a).rbtree) :=
    owned_perm hperm.symm
  refine ⟨?_, h.chunks, ?_, fun ht => ?_, h.noExpire⟩
  · refine ((hperm.map _).nodup_iff).mpr (List.nodup_cons.mpr ⟨?_, h.keys⟩)
    simpa using hkey
  · change (held ++ owned c z (z.insertTree a).rbtree).Subperm z.chunks
    refine List.Subperm.trans (List.Perm.subperm ?_) h.alloc
    rw [owned_cons] at hown
    refine (hown.symm.append_left held).trans ?_
    rw [← List.append_assoc]
    exact List.perm_append_comm.append_right _
  · exact ((h.expire ht).cons a).trans hperm.symm

theorem deleteExpire (h : Inv c z held out) {a : Addr} (ha : a ∈ z.rbtree) (hout : a ∉ out) :
    Inv c (if c.timeout ≠ 0 then z.deleteExpire a else z) held (a :: out) := by
  split
  · next ht =>
    refine ⟨h.keys, h.chunks, h.alloc, fun _ => ?_, fun h0 => absurd h0 ht⟩
    have hmem : a ∈ z.rbtreeExpire :=
      (List.mem_append.mp ((h.expire ht).symm.subset ha)).resolve_left hout
    have hperm : (a :: (out ++ z.rbtreeExpire.erase a)).Perm (out ++ z.rbtreeExpire) :=
      List.perm_middle.symm.trans ((List.perm_cons_erase hmem).symm.append_left out)
    exact hperm.trans (h.expire ht)
  · next ht =>
    exact ⟨h.keys, h.chunks, h.alloc, fun h0 => absurd h0 ht, h.noExpire⟩

theorem insertExpire (h : Inv c z held (a :: out)) (ht : c.timeout ≠ 0) :
    Inv c (z.insertExpire a) held out := by
  refine ⟨h.keys, h.chunks, h.alloc, fun _ => ?_, fun h0 => absurd h0 ht⟩
  have hperm : (z.insertExpire a).rbtreeExpire.Perm (a :: z.rbtreeExpire) :=
    List.perm_orderedInsert _ _ _
  refine (hperm.append_left out).trans (List.perm_middle.trans ?_)
  exact h.expire ht

theorem of_timeout_zero (h : Inv c z held out) (ht : c.timeout = 0) (out' : List Addr) :
    Inv c z held out' :=
  ⟨h.keys, h.chunks, h.alloc, fun h0 => absurd ht h0, h.noExpire⟩

theorem relink {a : Addr} (h : Inv c z held (a :: out)) :
    Inv c (if c.timeout ≠ 0 then z.insertExpire a else z) held out := by
  split
  · next ht => exact h.insertExpire ht
  · next ht => exact h.of_timeout_zero (not_not.mp ht) out

theorem setExpire (h : Inv c z held (a :: out)) (timeout now : Msec) :
    Inv c (setExpire c a timeout now z) held out := by
  unfold SharedDict.setExpire
  split
  · next ht =>
    exact (h.setNode_same a (n := { z.node a with expire := now + timeout }) rfl rfl).insertExpire
      ht
  · next ht => exact h.of_timeout_zero (not_not.mp ht) out

theorem replaceStr (hs : c.type = .string) {p : Addr} (h : Inv c z (p :: held) out)
    (ha : a ∈ z.rbtree) (s : Bytes) :
    Inv c (((z.slabFree (z.node a).str).setBuf p s).setNode a { z.node a with str := p })
      held out := by
  set z' := ((z.slabFree (z.node a).str).setBuf p s).setNode a { z.node a with str := p }
  have hperm : z.rbtree.Perm (a :: z.rbtree.erase a) := List.perm_cons_erase ha
  have hself : z'.node a = { z.node a with str := p } := Function.update_self ..
  have hother : ∀ b ∈ z.rbtree.erase a, (z'.node b).str = (z.node b).str := fun b hb => by
    have hne : b ≠ a := fun hba => h.nodup.not_mem_erase (hba ▸ hb)
    rw [show z'.node b = z.node b from Function.update_of_ne hne ..]
  have hkey : ∀ b, (z'.node b).key = (z.node b).key := fun b => by
    by_cases hba : b = a
    · rw [hba, hself]
    · rw [show z'.node b = z.node b from Function.update_of_ne hba ..]
  have hold : (owned c z z.rbtree).Perm ((z.node a).str :: a :: owned c z (z.rbtree.erase a)) := by
    have hp := owned_perm (c := c) (z := z) hperm
    rwa [owned_cons, chunksOf, hs] at hp
  have hnew : (owned c z' z.rbtree).Perm (p :: a :: owned c z (z.rbtree.erase a)) := by
    have hp := owned_perm (c := c) (z := z') hperm
    rwa [owned_cons, chunksOf, hs, hself, owned_congr hother] at hp
  refine ⟨?_, h.chunks.erase _, ?_, h.expire, h.noExpire⟩
  · change (z.rbtree.map fun b => (z'.node b).key).Nodup
    simp only [hkey]
    exact h.keys
  change (held ++ owned c z' z.rbtree).Subperm (z.chunks.erase (z.node a).str)
  have hal := (((hold.append_left (p :: held)).trans List.perm_middle).symm.subperm.trans
    h.alloc).erase (z.node a).str
  rw [List.erase_cons_head] at hal
  refine List.Subperm.trans (List.Perm.subperm ?_) hal
  exact (hnew.append_left held).trans List.perm_middle

end Inv

/-! ### The operations -/

def FreshKey (z : Zone ν) (key : Bytes) : Prop :=
  ∀ a ∈ z.rbtree, (z.node a).key ≠ key

variable {key : Bytes}

theorem lookup_eq_none : ngxJsDictLookup z key = none ↔ FreshKey z key := by
  simp [ngxJsDictLookup, FreshKey, List.find?_eq_none]

theorem lookup_eq_some {a : Addr} (h : ngxJsDictLookup z key = some a) :
    a ∈ z.rbtree ∧ (z.node a).key = key :=
  ⟨List.mem_of_find?_eq_some h, by simpa using List.find?_some h⟩

theorem Swept.subset {l : List Addr} (h : Swept z z' l) : z'.rbtree ⊆ z.rbtree := by
  rw [h.rbtree]
  exact (List.diff_sublist _ _).subset

theorem Swept.freshKey {l : List Addr} (h : Swept z z' l) (hf : FreshKey z key) :
    FreshKey z' key := fun a ha => by
  rw [h.node]
  exact hf a (h.subset ha)

theorem swept_alloc_freshKey (n : ℕ) {key : Bytes} (hf : FreshKey z key) :
    FreshKey (ngxJsDictAlloc c n z).1 key := by
  obtain ⟨k, -, h⟩ := swept_alloc c n z
  exact h.freshKey hf

theorem FreshKey.setNode_unlinked (hf : FreshKey z key) {a : Addr} (ha : a ∉ z.rbtree)
    (n : Node ν) : FreshKey (z.setNode a n) key := fun b hb => by
  have hne : b ≠ a := by
    rintro rfl
    exact ha hb
  rw [Zone.setNode_node, Function.update_of_ne hne]
  exact hf b hb

namespace Inv

theorem sweepFirst (h : Inv c z held out) {key : Bytes} (hf : FreshKey z key) (now : Msec) :
    Inv c (sweepFirst c now z) held out ∧ FreshKey (SharedDict.sweepFirst c now z) key := by
  unfold SharedDict.sweepFirst
  split
  · exact ⟨h.expireSweep now, (swept_expire c now z).freshKey hf⟩
  · exact ⟨h, hf⟩

theorem linkNode [Env ν] {a : Addr} {key : Bytes} (h : Inv c z (chunksOf c z a ++ held) out)
    (hf : FreshKey z key) (timeout now : Msec) :
    Inv c (linkNode c a key timeout now z) held out := by
  have ha : a ∉ z.rbtree :=
    h.notMem_of_held (List.mem_append_left _ (mem_chunksOf_self c z a))
  have hself : (z.setNode a { z.node a with key := key }).node a =
      { z.node a with key := key } := Function.update_self ..
  have hchunks : chunksOf c (z.setNode a { z.node a with key := key }) a = chunksOf c z a := by
    simp only [chunksOf, hself]
  have h' := h.setNode_unlinked ha { z.node a with key := key }
  rw [← hchunks] at h'
  refine (h'.insertTree fun b hb => ?_).setExpire timeout now
  have hne : b ≠ a := by
    rintro rfl
    exact ha hb
  rw [hself, show (z.setNode a { z.node a with key := key }).node b = z.node b from
    Function.update_of_ne hne ..]
  exact hf b hb

theorem addValue [Env ν] (h : Inv c z [] []) {key : Bytes} (hf : FreshKey z key)
    (value : Value ν) (timeout now : Msec) :
    Inv c (ngxJsDictAddValue c key value timeout now z).1 [] [] := by
  obtain ⟨h₁, hf₁⟩ := h.sweepFirst hf now
  have h₂ := h₁.alloc_inv (nodeSize + key.length)
  have hf₂ := swept_alloc_freshKey (c := c) (nodeSize + key.length) hf₁
  obtain ⟨z₂, ha, heq⟩ | ⟨z₂, a, ha, hcases⟩ := addValue_cases c key value timeout now z
  · rw [heq]
    rwa [ha] at h₂
  rw [ha] at h₂ hf₂
  have h₃ := h₂.alloc_inv value.bytes.length
  have hf₃ := swept_alloc_freshKey (c := c) value.bytes.length hf₂
  obtain ⟨z₃, -, hb, heq⟩ | ⟨z₃, p, hs, hb, heq⟩ | ⟨hs, heq⟩ := hcases <;> rw [heq]
  · rw [hb] at h₃
    exact h₃.freeHeld
  · rw [hb] at h₃ hf₃
    have hun := h₃.notMem_of_held (p := a) (by simp)
    have hf₄ : FreshKey ((z₃.setNode a { z₃.node a with str := p }).setBuf p value.bytes) key :=
      hf₃.setNode_unlinked hun _
    refine linkNode ?_ hf₄ timeout now
    have hself : (z₃.setNode a { z₃.node a with str := p }).node a =
        { z₃.node a with str := p } := Function.update_self ..
    simpa [chunksOf, hs, hself] using
      (h₃.setNode_unlinked hun { z₃.node a with str := p }).setBuf p value.bytes
  · have hun := h₂.notMem_of_held (p := a) (by simp)
    refine linkNode ?_ (hf₂.setNode_unlinked hun _) timeout now
    simpa [chunksOf, hs] using h₂.setNode_unlinked hun { z₂.node a with number := value.num }

theorem outOfExpire (h : Inv c z held []) {a : Addr} (ha : a ∈ z.rbtree) :
    Inv c (outOfExpire c a z) held [a] :=
  h.deleteExpire ha (by simp)

theorem update [Env ν] (h : Inv c z [] []) {a : Addr} (ha : a ∈ z.rbtree) (value : Value ν)
    (timeout now : Msec) : Inv c (ngxJsDictUpdate c a value timeout now z).1 [] [] := by
  have h₁ := h.outOfExpire ha
  have ha₁ : a ∈ (SharedDict.outOfExpire c a z).rbtree := by
    unfold SharedDict.outOfExpire
    split <;> exact ha
  have h₂ := h₁.alloc_inv value.bytes.length
  obtain ⟨z₂, -, hb, heq⟩ | ⟨z₂, p, hs, hb, heq⟩ | ⟨-, heq⟩ :=
    update_cases c a value timeout now z <;> rw [heq]
  · rw [hb] at h₂
    exact h₂.relink
  · rw [hb] at h₂
    -- The node cannot have been evicted: it is not in the expire tree.
    have ha₂ : a ∈ z₂.rbtree := by
      have hmem := h₁.mem_alloc ha₁ List.mem_cons_self value.bytes.length
      rwa [hb] at hmem
    exact (h₂.replaceStr hs ha₂ value.bytes).setExpire timeout now
  · exact (h₁.setNode_same a (n := { (SharedDict.outOfExpire c a z).node a with
      number := value.num }) rfl rfl).setExpire timeout now

/-- Deleting a linked node: `ngx_js_dict_delete` drops it like a sweep does. -/
theorem delete (h : Inv c z held []) {a : Addr} (ha : a ∈ z.rbtree) :
    Inv c (ngxJsDictNodeFree c ((SharedDict.outOfExpire c a z).deleteTree a) a) held [] := by
  rw [h.delete_eq_dropNode a]
  exact h.dropNode ha (by simp)

theorem markDirty (h : Inv c z held out) : Inv c (markDirty c z) held out :=
  h.congr rfl rfl rfl rfl

theorem clear (h : Inv c z held []) : Inv c (njsJsExtSharedDictClear c z) held [] := by
  unfold njsJsExtSharedDictClear
  refine Inv.markDirty ?_
  split
  · exact h.evict _
  · next ht => exact h.clearLoop (not_not.mp ht) z.rbtree (List.Subset.refl _) h.nodup

theorem effect [Env ν] {now : Msec} (h : Inv c z [] []) (he : Effect c now z z') :
    Inv c z' [] [] := by
  cases he with
  | same => exact h
  | @add key value timeout z' hkey heq =>
    have h' := h.addValue (lookup_eq_none.mp hkey) value timeout now
    rw [heq] at h'
    exact h'.markDirty
  | @addFailed key value timeout z' hkey heq =>
    have h' := h.addValue (lookup_eq_none.mp hkey) value timeout now
    rwa [heq] at h'
  | @update key a value timeout z' hkey heq =>
    have h' := h.update (lookup_eq_some hkey).1 value timeout now
    rw [heq] at h'
    exact h'.markDirty
  | @updateFailed key a value timeout z' hkey heq =>
    have h' := h.update (lookup_eq_some hkey).1 value timeout now
    rwa [heq] at h'
  | relink hkey => exact (h.outOfExpire (lookup_eq_some hkey).1).relink
  | delete hkey => exact (h.delete (lookup_eq_some hkey).1).markDirty
  | @incr key a hkey value timeout =>
    have h' := h.setNode_same a (n := { z.node a with number := value }) rfl rfl
    refine Inv.markDirty ?_
    split
    · next ht =>
      have hd := h'.deleteExpire (a := a) (lookup_eq_some hkey).1 (by simp)
      rw [if_pos ht.1] at hd
      exact hd.setExpire timeout now
    · exact h'
  | clear => exact h.clear

end Inv

end Njs.SharedDict

/-!
## Runs of operations on a zone

A run is a sequence of locked sections, each at a clock of its own and with answers of the slab
allocator of its own. Between the sections the two trees link the same nodes, whatever the
sections return.
-/

namespace Njs.SharedDict

variable {ν : Type} [Env ν] {c : Conf} {z : Zone ν}

/-- What a worker does with a zone in one locked section: a method call through one of the
bindings, a sweep, or the insertion of one entry of the state file, which `ngx_js_dict_load`
makes with `now` equal to 1. -/
inductive Op (ν : Type)
  | njs (call : Call ν)
  | qjs (cstring : Bool) (call : Call ν)
  | sweep
  | evict (count : ℕ)
  | load (key : Bytes) (value : Value ν) (expire : Msec)

/-- An operation, the clock it reads and the answers it gets from the slab allocator. -/
structure Step (ν : Type) where
  op : Op ν
  now : Msec
  slab : List (ℕ → Option Addr)

/-- The effect of an operation on the zone. The sweeps are only made in zones with a timeout. -/
def Op.exec (c : Conf) (now : Msec) : Op ν → Zone ν → Zone ν
  | .njs call, z => (njsCall c now call z).1
  | .qjs cstring call, z => (qjsCall c cstring now call z).1
  | .sweep, z => sweepFirst c now z
  | .evict count, z => if c.timeout ≠ 0 then (ngxJsDictEvict c count z).1 else z
  | .load key value expire, z =>
    match ngxJsDictLookup z key with
    | some _ => z
    | none => (ngxJsDictAddValue c key value expire 1 z).1

/-- The zone with the answers that the slab allocator will give next. -/
def Zone.withSlab (z : Zone ν) (slab : List (ℕ → Option Addr)) : Zone ν :=
  { z with slab }

def Step.exec (c : Conf) (s : Step ν) (z : Zone ν) : Zone ν :=
  s.op.exec c s.now (z.withSlab s.slab)

/-- A sequence of operations. -/
def run (c : Conf) (steps : List (Step ν)) (z : Zone ν) : Zone ν :=
  steps.foldl (fun z s => s.exec c z) z

/-! ### The invariant over runs -/

namespace Inv

omit [Env ν] in
theorem init (c : Conf) (n : Node ν) : Inv c (Zone.init n) [] [] where
  keys := List.nodup_nil
  chunks := List.nodup_nil
  alloc := List.Perm.subperm (List.Perm.refl _)
  expire _ := List.Perm.refl _
  noExpire _ := rfl

theorem op (h : Inv c z [] []) (now : Msec) (op : Op ν) : Inv c (op.exec c now z) [] [] := by
  cases op with
  | njs call => exact h.effect (njsCall_effect c now z call)
  | qjs cstring call => exact h.effect (qjsCall_effect c now z cstring call)
  | sweep =>
    simp only [Op.exec, SharedDict.sweepFirst]
    split
    · exact h.expireSweep now
    · exact h
  | evict count =>
    simp only [Op.exec]
    split
    · exact h.evict count
    · exact h
  | load key value expire =>
    simp only [Op.exec]
    split
    · exact h
    · next hkey => exact h.addValue (lookup_eq_none.mp hkey) value expire 1

omit [Env ν] in
theorem withSlab (h : Inv c z [] []) (slab : List (ℕ → Option Addr)) :
    Inv c (z.withSlab slab) [] [] :=
  h.congr rfl rfl rfl rfl

theorem step (h : Inv c z [] []) (s : Step ν) : Inv c (s.exec c z) [] [] :=
  (h.withSlab s.slab).op s.now s.op

theorem run (h : Inv c z [] []) (steps : List (Step ν)) : Inv c (run c steps z) [] [] := by
  induction steps generalizing z with
  | nil => exact h
  | cons s steps ih => exact ih (h.step s)

end Inv

/-! ### The two trees -/

/-- A chunk that a walk of either tree reaches: a linked node or its value buffer. -/
def Reachable (c : Conf) (z : Zone ν) (p : Addr) : Prop :=
  ∃ a, (a ∈ z.rbtree ∨ a ∈ z.rbtreeExpire) ∧ p ∈ chunksOf c z a

/-- The invariant of the two trees: no two nodes carry the same key; in a zone with a timeout the
expire tree links exactly the nodes of the main tree, each once; nothing that is freed can be
reached, and nothing is owned twice, so that a chunk which is freed and handed out again belongs
to its new owner only. -/
structure TwoTrees (c : Conf) (z : Zone ν) : Prop where
  keys : z.rbtree.Pairwise fun a b => (z.node a).key ≠ (z.node b).key
  expire : c.timeout ≠ 0 → z.rbtreeExpire.Nodup ∧ ∀ a, a ∈ z.rbtreeExpire ↔ a ∈ z.rbtree
  freed : ∀ p, p ∉ z.chunks → ¬ Reachable c z p
  ownedOnce : (z.rbtree.flatMap (chunksOf c z)).Nodup

omit [Env ν] in
theorem Inv.twoTrees (h : Inv c z [] []) : TwoTrees c z where
  keys := List.pairwise_map.mp h.keys
  expire ht := ⟨h.nodup_expire, fun _ => (h.expire ht).mem_iff⟩
  freed p hp := by
    rintro ⟨a, ha, hpa⟩
    have ha' : a ∈ z.rbtree := ha.elim id h.mem_of_expire
    exact hp (h.alloc.subset (List.mem_flatMap.mpr ⟨a, ha', hpa⟩))
  ownedOnce := h.nodup_alloc

/-- After every operation of every run from an empty zone, at any clocks and with any answers of
the slab allocator, the two trees agree and reach no freed chunk. -/
theorem run_twoTrees (c : Conf) (n : Node ν) (steps : List (Step ν)) :
    TwoTrees c (run c steps (Zone.init n)) :=
  ((Inv.init c n).run steps).twoTrees

end Njs.SharedDict
