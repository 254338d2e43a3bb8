import Njs.SharedDict.Invariant

/-!
# The order of the expire tree

The tree is ordered by the sign of the wrapped difference of two keys, and the sweep compares their
magnitudes. The two are the same for keys that are less than 2^63 apart.
-/

namespace Njs.SharedDict

/-- Less than 2^63 apart. -/
def Near (a b : Msec) : Prop := a.toNat < b.toNat + 2 ^ 63 ∧ b.toNat < a.toNat + 2 ^ 63

theorem ngxTimerLess_iff {a b : Msec} (h : Near a b) : ngxTimerLess a b = true ↔ a < b := by
  obtain ⟨hab, hba⟩ := h
  have hsub := UInt64.toNat_sub a b
  have ha := a.toNat_lt
  have hb := b.toNat_lt
  have hint : (a - b).toInt64.toInt = ((a - b).toNat : ℤ).bmod (2 ^ 64) := by
    rw [Int64.toInt, UInt64.toBitVec_toInt64, BitVec.toInt_eq_toNat_bmod]
    rfl
  rw [ngxTimerLess, decide_eq_true_iff, Int64.lt_iff_toInt_lt, UInt64.lt_iff_toNat_lt, hint, hsub]
  show _ < (0 : ℤ) ↔ _
  rw [Int.bmod_def]
  split_ifs <;> omega

theorem pairwise_orderedInsert_key {α : Type*} {r : α → α → Prop} [DecidableRel r] {key : α → Msec}
    {a : α} {l : List α} (hr : ∀ b ∈ l, r a b ↔ key a < key b)
    (hl : l.Pairwise fun x y => key x ≤ key y) :
    (l.orderedInsert r a).Pairwise fun x y => key x ≤ key y := by
  induction l with
  | nil => exact List.pairwise_singleton _ a
  | cons b l ih =>
    obtain ⟨hb, hl⟩ := List.pairwise_cons.1 hl
    rw [List.orderedInsert_cons]
    split_ifs with hab
    · have hle : key a ≤ key b := UInt64.le_of_lt ((hr b List.mem_cons_self).1 hab)
      refine List.pairwise_cons.2 ⟨?_, List.pairwise_cons.2 ⟨hb, hl⟩⟩
      exact List.forall_mem_cons.2 ⟨hle, fun c hc => UInt64.le_trans hle (hb c hc)⟩
    have hle : key b ≤ key a :=
      UInt64.not_lt.1 fun hlt => hab ((hr b List.mem_cons_self).2 hlt)
    have hrest := ih (fun c hc => hr c (List.mem_cons_of_mem b hc)) hl
    refine List.pairwise_cons.2 ⟨fun c hc => ?_, hrest⟩
    rcases (List.mem_orderedInsert r).1 hc with rfl | hc
    · exact hle
    · exact hb c hc

variable {ν : Type} {c : Conf} {z z' : Zone ν}

/-- The expire tree is in the order of the magnitudes. -/
def Sorted (z : Zone ν) : Prop :=
  z.rbtreeExpire.Pairwise fun a b => (z.node a).expire ≤ (z.node b).expire

def NearKeys (z : Zone ν) : Prop :=
  ∀ a ∈ z.rbtreeExpire, ∀ b ∈ z.rbtreeExpire, Near (z.node a).expire (z.node b).expire

instance (a b : Msec) : Decidable (Near a b) := inferInstanceAs (Decidable (_ ∧ _))

instance (z : Zone ν) : Decidable (NearKeys z) :=
  inferInstanceAs (Decidable (∀ a ∈ z.rbtreeExpire, ∀ b ∈ z.rbtreeExpire, _))

/-- Nodes may be missing from the expire tree, and the others keep their keys. -/
structure Removed (z z' : Zone ν) : Prop where
  sub : z'.rbtreeExpire.Sublist z.rbtreeExpire
  keys : ∀ b ∈ z'.rbtreeExpire, (z'.node b).expire = (z.node b).expire

/-- What an operation does to the expire tree: nodes are removed, and then at most one is linked. -/
inductive Relinked (z z' : Zone ν) : Prop
  | removed (h : Removed z z')
  | linked (a : Addr) (l : List Addr) (hsub : l.Sublist z.rbtreeExpire)
      (hkeys : ∀ b ∈ l, (z'.node b).expire = (z.node b).expire)
      (htree : z'.rbtreeExpire = l.orderedInsert
        (fun a b => ngxTimerLess (z'.node a).expire (z'.node b).expire = true) a)

theorem pairwise_congr_keys {l : List Addr} (hsub : l.Sublist z.rbtreeExpire)
    (hkeys : ∀ b ∈ l, (z'.node b).expire = (z.node b).expire) (h : Sorted z) :
    l.Pairwise fun a b => (z'.node a).expire ≤ (z'.node b).expire := by
  refine (h.sublist hsub).imp_of_mem fun ha hb hab => ?_
  rw [hkeys _ ha, hkeys _ hb]
  exact hab

theorem Relinked.sorted (h : Relinked z z') (hsorted : Sorted z) (hnear : NearKeys z') :
    Sorted z' := by
  cases h with
  | removed h => exact pairwise_congr_keys h.sub h.keys hsorted
  | linked a l hsub hkeys htree =>
    rw [Sorted, htree]
    refine pairwise_orderedInsert_key (fun b hb => ngxTimerLess_iff (hnear a ?_ b ?_))
      (pairwise_congr_keys hsub hkeys hsorted)
    · rw [htree]
      exact (List.mem_orderedInsert _).2 (.inl rfl)
    · rw [htree]
      exact (List.mem_orderedInsert _).2 (.inr hb)

/-! ### The operations -/

theorem Removed.refl (z : Zone ν) : Removed z z := ⟨.refl _, fun _ _ => rfl⟩

theorem Removed.of_eq (hnode : z'.node = z.node) (htree : z'.rbtreeExpire = z.rbtreeExpire) :
    Removed z z' where
  sub := by rw [htree]
  keys b _ := by rw [hnode]

theorem Removed.trans {z₁ z₂ z₃ : Zone ν} (h₁ : Removed z₁ z₂) (h₂ : Removed z₂ z₃) :
    Removed z₁ z₃ where
  sub := h₂.sub.trans h₁.sub
  keys b hb := (h₂.keys b hb).trans (h₁.keys b (h₂.sub.subset hb))

theorem Removed.relinked {z₁ z₂ z₃ : Zone ν} (h₁ : Removed z₁ z₂) (h₂ : Relinked z₂ z₃) :
    Relinked z₁ z₃ := by
  cases h₂ with
  | removed h => exact .removed (h₁.trans h)
  | linked a l hsub hkeys htree =>
    exact .linked a l (hsub.trans h₁.sub)
      (fun b hb => (hkeys b hb).trans (h₁.keys b (hsub.subset hb))) htree

theorem Relinked.markDirty (h : Relinked z z') : Relinked z (markDirty c z') := by
  cases h with
  | removed h => exact .removed ⟨h.sub, h.keys⟩
  | linked a l hsub hkeys htree => exact .linked a l hsub hkeys htree

theorem Swept.removed {l : List Addr} (h : Swept z z' l) : Removed z z' where
  sub := by
    rw [h.rbtreeExpire]
    exact List.diff_sublist _ _
  keys b _ := by rw [h.node]

theorem removed_alloc (c : Conf) (n : ℕ) (z : Zone ν) : Removed z (ngxJsDictAlloc c n z).1 := by
  obtain ⟨k, -, h⟩ := swept_alloc c n z
  exact h.removed

theorem removed_sweepFirst (c : Conf) (now : Msec) (z : Zone ν) :
    Removed z (sweepFirst c now z) := by
  rw [sweepFirst]
  split_ifs
  · exact (swept_expire c now z).removed
  · exact .refl z

theorem removed_outOfExpire (c : Conf) (a : Addr) (z : Zone ν) : Removed z (outOfExpire c a z) := by
  rw [outOfExpire]
  split_ifs
  · exact ⟨List.erase_sublist, fun _ _ => rfl⟩
  · exact .refl z

theorem removed_setNode {a : Addr} (ha : a ∉ z.rbtreeExpire) (n : Node ν) :
    Removed z (z.setNode a n) where
  sub := .refl _
  keys b hb := by
    rw [Zone.setNode_node, Function.update_of_ne]
    rintro rfl
    exact ha hb

theorem removed_setNode_same (a : Addr) {n : Node ν} (hn : n.expire = (z.node a).expire) :
    Removed z (z.setNode a n) where
  sub := .refl _
  keys b _ := by
    rw [Zone.setNode_node]
    by_cases hb : b = a
    · rw [hb, Function.update_self, hn]
    · rw [Function.update_of_ne hb]

theorem relinked_insertExpire (a : Addr) (z : Zone ν) : Relinked z (z.insertExpire a) :=
  .linked a z.rbtreeExpire (.refl _) (fun _ _ => rfl) rfl

theorem relinked_setExpire (c : Conf) {a : Addr} (ha : a ∉ z.rbtreeExpire) (timeout now : Msec) :
    Relinked z (setExpire c a timeout now z) := by
  rw [setExpire]
  split_ifs
  · exact (removed_setNode ha _).relinked (relinked_insertExpire a _)
  · exact .removed (.refl z)

variable [Env ν]

theorem relinked_linkNode (c : Conf) {a : Addr} (ha : a ∉ z.rbtreeExpire) (key : Bytes)
    (timeout now : Msec) : Relinked z (linkNode c a key timeout now z) := by
  refine Removed.relinked ?_ (relinked_setExpire c ?_ timeout now)
  · exact (removed_setNode ha { z.node a with key }).trans (.of_eq rfl rfl)
  · exact ha

theorem relinked_addValue (h : Inv c z [] []) {key : Bytes} (hfresh : FreshKey z key)
    (value : Value ν) (timeout now : Msec) :
    Relinked z (ngxJsDictAddValue c key value timeout now z).1 := by
  have hsweep := removed_sweepFirst c now z
  have hinv := (h.sweepFirst hfresh now).1.alloc_inv (nodeSize + key.length)
  have halloc := hsweep.trans (removed_alloc c (nodeSize + key.length) (sweepFirst c now z))
  obtain ⟨z₂, ha, heq⟩ | ⟨z₂, a, ha, hcases⟩ := addValue_cases c key value timeout now z
  · rw [heq]
    rw [ha] at halloc
    exact .removed halloc
  rw [ha] at halloc hinv
  have hunlinked : a ∉ z₂.rbtreeExpire := fun hmem =>
    hinv.notMem_of_held (p := a) List.mem_cons_self (hinv.mem_of_expire hmem)
  have halloc₂ := removed_alloc c value.bytes.length z₂
  obtain ⟨z₃, -, hb, heq⟩ | ⟨z₃, p, -, hb, heq⟩ | ⟨-, heq⟩ := hcases <;> rw [heq]
  · rw [hb] at halloc₂
    exact .removed ((halloc.trans halloc₂).trans (.of_eq rfl rfl))
  · rw [hb] at halloc₂
    have hunlinked₂ : a ∉ z₃.rbtreeExpire := fun hmem => hunlinked (halloc₂.sub.subset hmem)
    refine Removed.relinked ?_ (relinked_linkNode c ?_ key timeout now)
    · exact ((halloc.trans halloc₂).trans (removed_setNode hunlinked₂ _)).trans (.of_eq rfl rfl)
    · exact hunlinked₂
  · refine Removed.relinked ?_ (relinked_linkNode c ?_ key timeout now)
    · exact halloc.trans (removed_setNode hunlinked _)
    · exact hunlinked

omit [Env ν] in
theorem notMem_outOfExpire (h : Inv c z [] []) (ht : c.timeout ≠ 0) (a : Addr) :
    a ∉ (outOfExpire c a z).rbtreeExpire := by
  rw [outOfExpire, if_pos ht]
  exact h.nodup_expire.not_mem_erase

theorem relinked_update (h : Inv c z [] []) (ht : c.timeout ≠ 0) (a : Addr) (value : Value ν)
    (timeout now : Msec) : Relinked z (ngxJsDictUpdate c a value timeout now z).1 := by
  have hout := removed_outOfExpire c a z
  have hunlinked := notMem_outOfExpire h ht a
  have halloc := removed_alloc c value.bytes.length (outOfExpire c a z)
  obtain ⟨z₂, -, hb, heq⟩ | ⟨z₂, p, -, hb, heq⟩ | ⟨-, heq⟩ :=
    update_cases c a value timeout now z <;> rw [heq]
  · rw [hb] at halloc
    rw [if_pos ht]
    exact (hout.trans halloc).relinked (relinked_insertExpire a z₂)
  · rw [hb] at halloc
    have hunlinked₂ : a ∉ z₂.rbtreeExpire := fun hmem => hunlinked (halloc.sub.subset hmem)
    refine Removed.relinked ?_ (relinked_setExpire c ?_ timeout now)
    · refine (hout.trans halloc).trans (Removed.trans ?_ (removed_setNode ?_ _))
      · exact .of_eq rfl rfl
      · exact hunlinked₂
    · exact hunlinked₂
  · refine Removed.relinked ?_ (relinked_setExpire c ?_ timeout now)
    · exact hout.trans (removed_setNode hunlinked _)
    · exact hunlinked

omit [Env ν] in
theorem removed_nodeFree (c : Conf) (z : Zone ν) (a : Addr) :
    Removed z (ngxJsDictNodeFree c z a) := by
  rw [nodeFree_eq]
  exact ⟨.refl _, fun _ _ => rfl⟩

theorem relinked_effect {now : Msec} (h : Inv c z [] []) (ht : c.timeout ≠ 0)
    (heffect : Effect c now z z') : Relinked z z' := by
  cases heffect with
  | same => exact .removed (.refl z)
  | @add key value timeout z' hkey heq =>
    have hadd := relinked_addValue h (lookup_eq_none.mp hkey) value timeout now
    rw [heq] at hadd
    exact hadd.markDirty
  | @addFailed key value timeout z' hkey heq =>
    have hadd := relinked_addValue h (lookup_eq_none.mp hkey) value timeout now
    rwa [heq] at hadd
  | @update key a value timeout z' hkey heq =>
    have hupdate := relinked_update h ht a value timeout now
    rw [heq] at hupdate
    exact hupdate.markDirty
  | @updateFailed key a value timeout z' hkey heq =>
    have hupdate := relinked_update h ht a value timeout now
    rwa [heq] at hupdate
  | @relink key a hkey =>
    rw [if_pos ht]
    exact (removed_outOfExpire c a z).relinked (relinked_insertExpire a _)
  | @delete key a hkey =>
    have hfree := removed_nodeFree c ((outOfExpire c a z).deleteTree a) a
    have hdelete : Removed (outOfExpire c a z) ((outOfExpire c a z).deleteTree a) := .of_eq rfl rfl
    exact (Relinked.removed ((removed_outOfExpire c a z).trans (hdelete.trans hfree))).markDirty
  | @incr key a hkey value timeout =>
    have hset : Removed z (z.setNode a { z.node a with number := value }) :=
      removed_setNode_same a rfl
    refine Relinked.markDirty ?_
    split_ifs
    · have hout := removed_outOfExpire c a (z.setNode a { z.node a with number := value })
      have hunlinked := notMem_outOfExpire
        (h.setNode_same a (n := { z.node a with number := value }) rfl rfl) ht a
      rw [outOfExpire, if_pos ht] at hout hunlinked
      exact (hset.trans hout).relinked (relinked_setExpire c hunlinked timeout now)
    · exact .removed hset
  | clear =>
    rw [njsJsExtSharedDictClear, if_pos ht]
    exact (Relinked.removed (swept_evict c 0x7fffffff z).removed).markDirty

/-! ### Runs -/

theorem relinked_op (h : Inv c z [] []) (ht : c.timeout ≠ 0) (now : Msec) (op : Op ν) :
    Relinked z (op.exec c now z) := by
  cases op with
  | njs call => exact relinked_effect h ht (njsCall_effect c now z call)
  | qjs cstring call => exact relinked_effect h ht (qjsCall_effect c now z cstring call)
  | sweep => exact .removed (removed_sweepFirst c now z)
  | evict count =>
    rw [Op.exec, if_pos ht]
    exact .removed (swept_evict c count z).removed
  | load key value expire =>
    rw [Op.exec]
    split
    · exact .removed (.refl z)
    · next hkey => exact relinked_addValue h (lookup_eq_none.mp hkey) value expire 1

theorem sorted_step (h : Inv c z [] []) (ht : c.timeout ≠ 0) (s : Step ν) (hsorted : Sorted z)
    (hnear : NearKeys (s.exec c z)) : Sorted (s.exec c z) := by
  have hslab : Removed z (z.withSlab s.slab) := .of_eq rfl rfl
  exact (hslab.relinked (relinked_op (h.withSlab s.slab) ht s.now s.op)).sorted hsorted hnear

def NearRun (c : Conf) (steps : List (Step ν)) (z : Zone ν) : Prop :=
  ∀ k, NearKeys (run c (steps.take k) z)

theorem sorted_run (h : Inv c z [] []) (ht : c.timeout ≠ 0) {steps : List (Step ν)}
    (hsorted : Sorted z) (hnear : NearRun c steps z) : Sorted (run c steps z) := by
  induction steps generalizing z with
  | nil => exact hsorted
  | cons s steps ih =>
    have hfirst : NearKeys (s.exec c z) := hnear 1
    exact ih (h.step s) (sorted_step h ht s hsorted hfirst) fun k => hnear (k + 1)

/-! ### The sweep -/

/-- The entries that have expired are removed, and nothing else changes. -/
structure SweepExact (now : Msec) (z z' : Zone ν) : Prop where
  node : z'.node = z.node
  buf : z'.buf = z.buf
  rbtree : z'.rbtree = z.rbtree.filter fun a => now < (z.node a).expire
  rbtreeExpire : z'.rbtreeExpire = z.rbtreeExpire.filter fun a => now < (z.node a).expire

theorem mem_takeWhile_iff {α : Type*} {key : α → Msec} {l : List α} (now : Msec)
    (hl : l.Pairwise fun x y => key x ≤ key y) (a : α) :
    a ∈ l.takeWhile (fun a => key a ≤ now) ↔ a ∈ l ∧ key a ≤ now := by
  induction l with
  | nil => simp
  | cons b l ih =>
    obtain ⟨hb, hl⟩ := List.pairwise_cons.1 hl
    by_cases hle : key b ≤ now
    · rw [List.takeWhile_cons_of_pos (by simpa using hle), List.mem_cons, List.mem_cons, ih hl]
      constructor
      · rintro (rfl | h)
        · exact ⟨.inl rfl, hle⟩
        · exact ⟨.inr h.1, h.2⟩
      · rintro ⟨rfl | h, ha⟩
        · exact .inl rfl
        · exact .inr ⟨h, ha⟩
    rw [List.takeWhile_cons_of_neg (by simpa using hle)]
    refine iff_of_false List.not_mem_nil ?_
    rintro ⟨ha, hle'⟩
    rcases List.mem_cons.1 ha with rfl | ha
    · exact hle hle'
    · exact hle (UInt64.le_trans (hb a ha) hle')

omit [Env ν] in
theorem sweepExact_of_sorted (h : Inv c z [] []) (ht : c.timeout ≠ 0) (hsorted : Sorted z)
    (now : Msec) : SweepExact now z (ngxJsDictExpire c now z) := by
  have hswept := swept_expire c now z
  have hexpire : ∀ l : List Addr, l.Nodup → (∀ a ∈ l, a ∈ z.rbtreeExpire) →
      l.diff (z.rbtreeExpire.takeWhile fun a => (z.node a).expire ≤ now) =
        l.filter fun a => now < (z.node a).expire := by
    intro l hnodup hmem
    rw [hnodup.sdiff_eq_filter]
    refine List.filter_congr fun a ha => ?_
    have hiff := mem_takeWhile_iff now hsorted a
    rw [decide_eq_decide, hiff, not_and, UInt64.not_le]
    exact ⟨fun h => h (hmem a ha), fun h _ => h⟩
  refine ⟨hswept.node, hswept.buf, ?_, ?_⟩
  · rw [hswept.rbtree]
    exact hexpire z.rbtree h.nodup fun a ha => (h.expire ht).symm.subset ha
  · rw [hswept.rbtreeExpire]
    exact hexpire z.rbtreeExpire h.nodup_expire fun a ha => ha

/-- In a run whose keys stay less than 2^63 apart, the sweep removes in every state what has expired
and nothing else, at every clock. -/
theorem expire_exact (ht : c.timeout ≠ 0) (n : Node ν) {steps : List (Step ν)}
    (hnear : NearRun c steps (Zone.init n)) (now : Msec) :
    SweepExact now (run c steps (Zone.init n))
      (ngxJsDictExpire c now (run c steps (Zone.init n))) := by
  have hsorted : Sorted (Zone.init n) := List.Pairwise.nil
  exact sweepExact_of_sorted ((Inv.init c n).run steps) ht
    (sorted_run (Inv.init c n) ht hsorted hnear) now

/-- `set('a', 'b')` and then `set('c', 'd')` with another timeout, at the clock zero. -/
def twoEntries (timeout : JsNumber) : List (Step JsNumber) :=
  [⟨.njs (.set .none [97] (.string [98]) none), 0, [fun _ => some 0, fun _ => some 1]⟩,
    ⟨.njs (.set .none [99] (.string [100]) (some (.number timeout))), 0,
      [fun _ => some 2, fun _ => some 3]⟩]

/-- With a timeout of two minutes. -/
theorem expire_exact_minutes :
    SweepExact 60000 (run minuteConf (twoEntries (.finite 120000)) (Zone.init blankNode))
      (ngxJsDictExpire minuteConf 60000
        (run minuteConf (twoEntries (.finite 120000)) (Zone.init blankNode))) := by
  refine expire_exact (by decide) blankNode ?_ 60000
  intro k
  rcases k with _ | _ | k
  · decide
  · decide
  · rw [List.take_of_length_le (Nat.le_add_left 2 k)]
    decide

/-- With a timeout above 2^63, the entry that has expired is kept. -/
theorem not_expire_exact_far : ¬SweepExact 60000
      (run minuteConf (twoEntries (.finite 9300000000000000000)) (Zone.init blankNode))
      (ngxJsDictExpire minuteConf 60000
        (run minuteConf (twoEntries (.finite 9300000000000000000)) (Zone.init blankNode))) := by
  intro h
  have htree := h.rbtree
  revert htree
  decide

end Njs.SharedDict
