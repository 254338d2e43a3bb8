import Njs.SharedDict.Agreement
import Njs.SharedDict.Entries

/-!
# Expired entries

An entry that has expired stays in the main tree until a sweep removes it, and every operation
has to treat it as absent. Here an operation on a zone is compared with the same operation on
the zone without its expired entries. The memory is taken to suffice: the slab allocator serves
every request at once.
-/

namespace Njs.SharedDict

variable {ν : Type} {c : Conf} {now : Msec} {z z' : Zone ν}

/-! ### The zone without its expired entries -/

/-- The zone without its expired entries. -/
def purge (c : Conf) (now : Msec) (z : Zone ν) : Zone ν :=
  (z.rbtree.filter fun a => isExpired c now z a).foldl (dropNode c) z

theorem swept_dropNodes (c : Conf) (l : List Addr) (z : Zone ν) :
    Swept z (l.foldl (dropNode c) z) l := by
  induction l generalizing z with
  | nil => exact .refl z
  | cons a l ih => exact (swept_dropNode c z a).trans (ih (dropNode c z a))

theorem Inv.dropNodes {l : List Addr} (h : Inv c z [] []) (hl : l ⊆ z.rbtree) (hn : l.Nodup) :
    Inv c (l.foldl (SharedDict.dropNode c) z) [] [] := by
  induction l generalizing z with
  | nil => exact h
  | cons a l ih =>
    refine ih (h.dropNode (hl List.mem_cons_self) List.not_mem_nil) (fun b hb => ?_) hn.of_cons
    have hne : b ≠ a := fun hba => (List.nodup_cons.mp hn).1 (hba ▸ hb)
    rw [dropNode_eq]
    exact (List.mem_erase_of_ne hne).mpr (hl (List.mem_cons_of_mem _ hb))

/-- What the comparison needs of a zone and the same zone without its expired entries. -/
structure Purged (c : Conf) (now : Msec) (z z' : Zone ν) : Prop where
  inv : Inv c z [] []
  inv' : Inv c z' [] []
  live_eq : live c now z' = live c now z
  allLive : ∀ a ∈ z'.rbtree, isExpired c now z' a = false

theorem purged_purge (now : Msec) (h : Inv c z [] []) : Purged c now z (purge c now z) := by
  have hs := swept_dropNodes c (z.rbtree.filter fun a => isExpired c now z a) z
  have htree : (purge c now z).rbtree = z.rbtree.filter fun a => !isExpired c now z a := by
    rw [purge, hs.rbtree, h.nodup.sdiff_eq_filter]
    refine List.filter_congr fun a ha => ?_
    simp [ha]
  have hexp : ∀ a, isExpired c now (purge c now z) a = isExpired c now z a := fun a => by
    rw [isExpired, purge, hs.node]
    rfl
  refine ⟨h, h.dropNodes List.filter_sublist.subset (h.nodup.filter _), ?_, fun a ha => ?_⟩
  · have hentry : entry c (purge c now z) = entry c z := funext fun a => hs.entry_eq a
    have hcomp : (Entry.isLive c now ∘ entry c z) = fun a => !isExpired c now z a :=
      funext fun a => isLive_entry c now z a
    rw [live, live, entries, entries, List.filter_map, List.filter_map, hentry, hcomp, htree,
      List.filter_filter]
    simp
  · rw [htree, List.mem_filter] at ha
    simpa [hexp] using ha.2

namespace Purged

theorem lookup_isSome_iff (h : Purged c now z z') (key : Bytes) :
    ngxJsDictLookup z' key ≠ none ↔ liveFind c now z key ≠ none := by
  have hfind : liveFind c now z key = liveFind c now z' key := by
    rw [liveFind, liveFind, h.live_eq]
  rw [hfind, h.inv'.liveFind_eq]
  cases hkey : ngxJsDictLookup z' key with
  | none => simp
  | some a => simp [h.allLive a (lookup_eq_some hkey).1]

end Purged

/-! ### Memory that suffices -/

/-- The allocator answers the next two requests, whatever their sizes, with chunks that are not
in use. -/
def Ample (z : Zone ν) (slab : List (ℕ → Option Addr)) : Prop :=
  ∃ f g rest, slab = f :: g :: rest ∧ ∀ m n, ∃ p q,
    f m = some p ∧ g n = some q ∧ p ∉ z.chunks ∧ q ∉ z.chunks ∧ p ≠ q

/-- The allocator answers the next `k` requests, whatever their sizes, with chunks that are not
in use. -/
def Serves : ℕ → List (ℕ → Option Addr) → List Addr → Prop
  | 0, _, _ => True
  | _ + 1, [], _ => False
  | k + 1, answer :: slab, used =>
    ∀ n, ∃ p, answer n = some p ∧ p ∉ used ∧ Serves k slab (p :: used)

theorem Serves.mono {k k' : ℕ} {slab : List (ℕ → Option Addr)} {used used' : List Addr}
    (h : Serves k slab used) (hk : k' ≤ k) (hused : used' ⊆ used) : Serves k' slab used' := by
  induction k' generalizing k slab used used' with
  | zero => trivial
  | succ k' ih =>
    obtain ⟨k, rfl⟩ : ∃ m, k = m + 1 := ⟨k - 1, by omega⟩
    cases slab with
    | nil => exact h.elim
    | cons answer slab =>
      intro n
      obtain ⟨p, hp, hfresh, hrest⟩ := h n
      exact ⟨p, hp, fun hmem => hfresh (hused hmem),
        ih hrest (by omega) (List.cons_subset_cons p hused)⟩

theorem Serves.ample {slab : List (ℕ → Option Addr)} (h : Serves 2 slab z.chunks) :
    Ample z slab := by
  match slab with
  | [] => exact h.elim
  | [f] =>
    obtain ⟨p, -, -, hrest⟩ := h 0
    exact hrest.elim
  | f :: g :: rest =>
    refine ⟨f, g, rest, rfl, fun m n => ?_⟩
    obtain ⟨p, hp, hfresh, hrest⟩ := h m
    obtain ⟨q, hq, hfresh', -⟩ := hrest n
    rw [List.mem_cons, not_or] at hfresh'
    exact ⟨p, q, hp, hq, hfresh, hfresh'.2, Ne.symm hfresh'.1⟩

theorem alloc_of_slabAlloc {n : ℕ} {p : Addr} (h : z.slabAlloc n = (z', some p)) :
    ngxJsDictAlloc c n z = (z', some p) := by
  rw [ngxJsDictAlloc, h]
  split <;> rfl

theorem slabAlloc_cons {f : ℕ → Option Addr} {rest : List (ℕ → Option Addr)} {n : ℕ} {p : Addr}
    (hslab : z.slab = f :: rest) (hf : f n = some p) (hp : p ∉ z.chunks) :
    z.slabAlloc n = ({ z with slab := rest, chunks := p :: z.chunks }, some p) := by
  simp [Zone.slabAlloc, hslab, hf, hp]

theorem expireLoop_slab (c : Conf) (now : Msec) (l : List Addr) (z : Zone ν) :
    (ngxJsDictExpireLoop c now l z).slab = z.slab ∧
      (ngxJsDictExpireLoop c now l z).chunks ⊆ z.chunks := by
  induction l generalizing z with
  | nil => exact ⟨rfl, List.Subset.refl _⟩
  | cons a l ih =>
    rw [ngxJsDictExpireLoop]
    split
    · exact ⟨rfl, List.Subset.refl _⟩
    · obtain ⟨hslab, hchunks⟩ := ih (dropNode c z a)
      rw [dropNode_eq] at hslab hchunks ⊢
      exact ⟨hslab, fun p hp => (List.diff_sublist _ _).subset (hchunks hp)⟩

theorem sweepFirst_slab (c : Conf) (now : Msec) (z : Zone ν) :
    (sweepFirst c now z).slab = z.slab ∧ (sweepFirst c now z).chunks ⊆ z.chunks := by
  rw [sweepFirst]
  split
  · exact expireLoop_slab c now z.rbtreeExpire z
  · exact ⟨rfl, List.Subset.refl _⟩

/-- What a node keeps of a value, by the type of the zone. -/
def storedValue [Env ν] (c : Conf) (value : Value ν) : Value ν :=
  match c.type with
  | .string => .str value.bytes
  | .number => .number value.num

variable {a : Addr}

theorem Inv.mem_chunks (h : Inv c z [] []) {p : Addr} (ha : a ∈ z.rbtree)
    (hp : p ∈ chunksOf c z a) : p ∈ z.chunks :=
  h.alloc.subset (List.mem_flatMap.mpr ⟨a, ha, hp⟩)

theorem entry_write (h : Inv c z [] []) {a p : Addr} {n : Node ν} (ha : a ∉ z.chunks)
    (hp : c.type = .string → p ∉ z.chunks) {s : Bytes} {b : Addr} (hb : b ∈ z.rbtree)
    (hnode : z'.node = Function.update z.node a n)
    (hbuf : z'.buf = if c.type = .string then Function.update z.buf p s else z.buf) :
    entry c z' b = entry c z b := by
  have hne : b ≠ a := by
    rintro rfl
    exact ha (h.mem_chunks hb (mem_chunksOf_self c z b))
  have hn : z'.node b = z.node b := by rw [hnode, Function.update_of_ne hne]
  cases hs : c.type with
  | number => simp only [entry, nodeValue, hn, hs]
  | string =>
    have hstr : (z.node b).str ≠ p := by
      rintro heq
      refine hp hs (heq ▸ h.mem_chunks hb ?_)
      simp [chunksOf, hs]
    refine entry_congr hn ?_
    rw [hbuf, if_pos hs, Function.update_of_ne hstr]

variable [Env ν]

theorem addValue_ample (h : Inv c z [] []) (hm : Ample z z.slab) (key : Bytes)
    (value : Value ν) (now : Msec) :
    ∃ (z₁ : Zone ν) (a : Addr) (l : List Addr),
      (∀ timeout, ngxJsDictAddValue c key value timeout now z =
        (linkNode c a key timeout now z₁, .ok)) ∧
      a ∉ z₁.rbtree ∧ nodeValue c z₁ a = storedValue c value ∧
      (∀ b ∈ l, isExpired c now z b = true) ∧
      (∀ e, e ∈ entries c z₁ ↔ ∃ b ∈ z.rbtree, b ∉ l ∧ entry c z b = e) ∧
      ∀ k, Serves (k + 2) z.slab z.chunks → Serves k z₁.slab z₁.chunks := by
  obtain ⟨f, g, rest, hslab, hserve⟩ := hm
  obtain ⟨p, q, hf, hg, hp, hq, hpq⟩ := hserve (nodeSize + key.length) value.bytes.length
  obtain ⟨hslab', hsub⟩ := sweepFirst_slab c now z
  obtain ⟨l, hswept, hexp⟩ := swept_sweepFirst c now z
  have h₁ : Inv c (sweepFirst c now z) [] [] := h.op now .sweep
  set z₀ := sweepFirst c now z with hz₀
  have hp₀ : p ∉ z₀.chunks := fun hmem => hp (hsub hmem)
  have hq₀ : q ∉ z₀.chunks := fun hmem => hq (hsub hmem)
  have halloc := alloc_of_slabAlloc (c := c) (slabAlloc_cons (hslab'.trans hslab) hf hp₀)
  have hunlinked : p ∉ z₀.rbtree := fun hmem =>
    hp₀ (h₁.mem_chunks hmem (mem_chunksOf_self c z₀ p))
  -- The entries that are linked are those that the sweep leaves.
  have hentries : ∀ z₁ : Zone ν, z₁.rbtree = z₀.rbtree →
      (∀ b ∈ z₀.rbtree, entry c z₁ b = entry c z₀ b) →
      ∀ e, e ∈ entries c z₁ ↔ ∃ b ∈ z.rbtree, b ∉ l ∧ entry c z b = e := fun z₁ htree hentry e => by
    rw [← mem_entries_dropped hswept.toDropped h.nodup, entries, entries, htree,
      List.map_congr_left hentry]
  -- The first two answers of the allocator are used up.
  have hserves : ∀ k, Serves (k + 2) z.slab z.chunks →
      Serves (k + 1) (g :: rest) (p :: z₀.chunks) ∧ Serves k rest (q :: p :: z₀.chunks) :=
    fun k hk => by
    rw [hslab] at hk
    obtain ⟨p', hp', -, hrest⟩ := hk (nodeSize + key.length)
    obtain rfl : p = p' := Option.some.inj (hf.symm.trans hp')
    obtain ⟨q', hq', -, hrest'⟩ := hrest value.bytes.length
    obtain rfl : q = q' := Option.some.inj (hg.symm.trans hq')
    exact ⟨hrest.mono le_rfl (List.cons_subset_cons p hsub),
      hrest'.mono le_rfl (List.cons_subset_cons q (List.cons_subset_cons p hsub))⟩
  cases hs : c.type with
  | number =>
    refine ⟨({ z₀ with slab := g :: rest, chunks := p :: z₀.chunks }).setNode p
        { z₀.node p with number := value.num }, p, l, fun timeout => by
      simp only [ngxJsDictAddValue, ← hz₀, halloc, hs], hunlinked,
      by simp [nodeValue, storedValue, hs], hexp, hentries _ rfl fun b hb => ?_,
      fun k hk => (hserves k hk).1.mono (by omega) (List.Subset.refl _)⟩
    exact entry_write (p := p) (s := []) h₁ hp₀ (fun _ => hp₀) hb rfl
      (by rw [if_neg (by simp [hs])]; rfl)
  | string =>
    have halloc' := alloc_of_slabAlloc (c := c) (z := { z₀ with
      slab := g :: rest, chunks := p :: z₀.chunks }) (slabAlloc_cons rfl hg (by
        simpa [Ne.symm hpq] using hq₀))
    refine ⟨(({ z₀ with slab := rest, chunks := q :: p :: z₀.chunks }).setNode p
        { z₀.node p with str := q }).setBuf q value.bytes, p, l, fun timeout => by
      simp only [ngxJsDictAddValue, ← hz₀, halloc, hs, halloc'], hunlinked,
      by simp [nodeValue, storedValue, hs], hexp, hentries _ rfl fun b hb => ?_,
      fun k hk => (hserves k hk).2⟩
    exact entry_write (p := q) (s := value.bytes) h₁ hp₀ (fun _ => hq₀) hb rfl
      (by rw [if_pos hs]; rfl)

theorem update_ample (h : Inv c z [] []) (hm : Ample z z.slab) (value : Value ν) (now : Msec) :
    ∃ z₁, (∀ timeout, ngxJsDictUpdate c a value timeout now z =
        (setExpire c a timeout now z₁, .ok)) ∧ z₁.rbtree = z.rbtree ∧
      entry c z₁ a = { entry c z a with value := storedValue c value } ∧
      ∀ b ∈ z.rbtree, b ≠ a → entry c z₁ b = entry c z b := by
  obtain ⟨f, g, rest, hslab, hserve⟩ := hm
  obtain ⟨p, q, hf, -, hp, -, -⟩ := hserve value.bytes.length 0
  obtain ⟨w, hout⟩ : ∃ w, outOfExpire c a z = w := ⟨_, rfl⟩
  have hw := hout.symm
  rw [outOfExpire_eq] at hw
  cases hs : c.type with
  | number =>
    refine ⟨w.setNode a { w.node a with number := value.num },
      fun timeout => by simp only [ngxJsDictUpdate, hs, hout], by rw [hw]; rfl, ?_,
      fun b _ hne => ?_⟩
    · simp [hw, entry, nodeValue, storedValue, hs]
    · exact entry_congr (by simp [hw, hne]) (by rw [hw]; rfl)
  | string =>
    have halloc := alloc_of_slabAlloc (c := c) (z := w) (slabAlloc_cons (by rw [hw]; exact hslab)
      hf (by rw [hw]; exact hp))
    refine ⟨((({ w with slab := g :: rest, chunks := p :: w.chunks }).slabFree
        (w.node a).str).setBuf p value.bytes).setNode a { w.node a with str := p },
      fun timeout => by simp only [ngxJsDictUpdate, hs, hout, halloc]; rfl, by rw [hw]; rfl, ?_,
      fun b hb hne => ?_⟩
    · simp [hw, entry, nodeValue, storedValue, hs]
    · have hstr : (z.node b).str ≠ p := by
        rintro heq
        refine hp (heq ▸ h.mem_chunks hb ?_)
        simp [chunksOf, hs]
      exact entry_congr (by simp [hw, hne]) (by simp [hw, hstr])

/-! ### The live entries after an operation -/

/-- `z'` has the live entries of `z`, except that `e₀` has taken the place of its key. -/
def PutLive (c : Conf) (now : Msec) (e₀ : Entry ν) (z z' : Zone ν) : Prop :=
  ∀ e, e ∈ live c now z' ↔ (e = e₀ ∧ e₀.isLive c now = true) ∨ (e ∈ live c now z ∧ e.key ≠ e₀.key)

omit [Env ν] in
theorem PutLive.congr {z₁ z₁' : Zone ν} {e₀ : Entry ν} (h : PutLive c now e₀ z z₁)
    (h' : PutLive c now e₀ z' z₁') (hlive : live c now z' = live c now z) (e : Entry ν) :
    e ∈ live c now z₁ ↔ e ∈ live c now z₁' := by
  rw [h e, h' e, hlive]

variable {key : Bytes}

theorem putLive_add (ht : c.timeout ≠ 0) (h : Inv c z [] []) (hm : Ample z z.slab)
    (hkey : ngxJsDictLookup z key = none) (value : Value ν) (timeout now : Msec) :
    ∃ z₁, ngxJsDictAddValue c key value timeout now z = (z₁, .ok) ∧
      PutLive c now ⟨key, storedValue c value, now + timeout⟩ z z₁ := by
  obtain ⟨z₁, a, l, heq, ha, hvalue, hexp, hmem, -⟩ := addValue_ample h hm key value now
  refine ⟨_, heq timeout, fun e => ?_⟩
  have hfresh : ∀ e ∈ live c now z, e.key ≠ key := fun e he =>
    key_ne_of_lookup_none hkey (mem_live.mp he).1
  have hlive : e ∈ live c now z₁ ↔ e ∈ live c now z := by
    rw [mem_live, mem_live, hmem, mem_entries]
    exact and_congr_left fun hlive => exists_and_not_expired hexp hlive
  rw [mem_live, mem_entries_linkNode ha, hvalue, newExpire, if_pos ht, or_and_right, ← mem_live,
    hlive]
  refine or_congr (and_congr_right fun he => by rw [he]) ?_
  exact (and_iff_left_of_imp (hfresh e)).symm

omit [Env ν] in
theorem putLive_of_entry {z₁ : Zone ν} (h : Inv c z [] []) (ha : a ∈ z.rbtree) {e₀ : Entry ν}
    (hkey : e₀.key = (z.node a).key) (htree : z₁.rbtree = z.rbtree) (hself : entry c z₁ a = e₀)
    (hother : ∀ b ∈ z.rbtree, b ≠ a → entry c z₁ b = entry c z b) : PutLive c now e₀ z z₁ := by
  intro e
  rw [mem_live, mem_live, mem_entries, mem_entries, htree]
  constructor
  · rintro ⟨⟨b, hb, rfl⟩, hlive⟩
    by_cases hne : b = a
    · rw [hne, hself] at hlive ⊢
      exact .inl ⟨rfl, hlive⟩
    · rw [hother b hb hne] at hlive ⊢
      exact .inr ⟨⟨⟨b, hb, rfl⟩, hlive⟩, fun hkb => hne (h.eq_of_key hb ha (hkb.trans hkey))⟩
  rintro (⟨rfl, hlive⟩ | ⟨⟨⟨b, hb, rfl⟩, hlive⟩, hkb⟩)
  · exact ⟨⟨a, ha, hself⟩, hlive⟩
  · have hne : b ≠ a := by
      rintro rfl
      exact hkb hkey.symm
    exact ⟨⟨b, hb, hother b hb hne⟩, hlive⟩

theorem putLive_update (ht : c.timeout ≠ 0) (h : Inv c z [] []) (hm : Ample z z.slab)
    (hkey : ngxJsDictLookup z key = some a) (value : Value ν) (timeout now : Msec) :
    ∃ z₁, ngxJsDictUpdate c a value timeout now z = (z₁, .ok) ∧
      PutLive c now ⟨key, storedValue c value, now + timeout⟩ z z₁ := by
  obtain ⟨z₁, heq, htree, hself, hother⟩ := update_ample h hm (a := a) value now
  obtain ⟨ha, hk⟩ := lookup_eq_some hkey
  refine ⟨_, heq timeout, putLive_of_entry h ha hk.symm ?_ ?_ fun b hb hne => ?_⟩
  · rw [setExpire_rbtree, htree]
  · rw [entry_setExpire_self, hself, newExpire, if_pos ht, entry, hk]
  · rw [entry_setExpire_of_ne hne, hother b hb hne]

/-! ### The operations on a zone and on its purged copy -/

/-- An expired entry that is still in the main tree. -/
def Ghost (c : Conf) (now : Msec) (z : Zone ν) (key : Bytes) : Prop :=
  ∃ a, ngxJsDictLookup z key = some a ∧ isExpired c now z a = true

def SameLive (c : Conf) (now : Msec) (z z' : Zone ν) : Prop :=
  ∀ e, e ∈ live c now z ↔ e ∈ live c now z'

omit [Env ν] in
theorem Purged.sameLive (h : Purged c now z z') : SameLive c now z z' := fun e => by
  rw [h.live_eq]

omit [Env ν] in
theorem Purged.lookup_none_iff (h : Purged c now z z') (hghost : ¬ Ghost c now z key) :
    ngxJsDictLookup z' key = none ↔ ngxJsDictLookup z key = none := by
  rw [← not_iff_not]
  refine (h.lookup_isSome_iff key).trans ?_
  rw [h.inv.liveFind_eq]
  cases hkey : ngxJsDictLookup z key with
  | none => simp
  | some a =>
    have hexp : isExpired c now z a = false := by
      by_contra hexp
      exact hghost ⟨a, hkey, by simpa using hexp⟩
    simp [hexp]

omit [Env ν] in
theorem Purged.lookup_ghost (h : Purged c now z z') (hghost : Ghost c now z key) :
    ngxJsDictLookup z' key = none := by
  obtain ⟨a, hkey, hexp⟩ := hghost
  by_contra hne
  refine (h.lookup_isSome_iff key).mp hne ?_
  simp [h.inv.liveFind_eq, hkey, hexp]

omit [Env ν] in
theorem Purged.entry_eq (h : Purged c now z z') {b : Addr} (ha : ngxJsDictLookup z key = some a)
    (hb : ngxJsDictLookup z' key = some b) : entry c z a = entry c z' b := by
  have hfind : liveFind c now z key = liveFind c now z' key := by
    rw [liveFind, liveFind, h.live_eq]
  rw [h.inv.liveFind_eq, h.inv'.liveFind_eq, ha, hb] at hfind
  simp only [h.allLive b (lookup_eq_some hb).1, Bool.false_eq_true, if_false] at hfind
  split at hfind
  · cases hfind
  · exact Option.some.inj hfind

/-- With ample memory `set()` stores the entry unless its flags decline it. -/
theorem set_ample (ht : c.timeout ≠ 0) (h : Inv c z [] []) (hm : Ample z z.slab) (key : Bytes)
    (value : JsValue ν) (timeout : Msec) (flags : SetFlags) (now : Msec) :
    ∃ z₁ rc, ngxJsDictSet c key value timeout flags now z = (z₁, rc) ∧ ((rc = .ok ∧
          PutLive c now ⟨key, storedValue c (value.toValue c), now + timeout⟩ z z₁ ∧
          (flags = .mustExist → ngxJsDictLookup z key ≠ none) ∧
          (flags = .mustNotExist → liveFind c now z key = none)) ∨
        (rc = .declined ∧ z₁ = z ∧ ((flags = .mustExist ∧ ngxJsDictLookup z key = none) ∨
            (flags = .mustNotExist ∧ liveFind c now z key ≠ none)))) := by
  unfold ngxJsDictSet
  cases hkey : ngxJsDictLookup z key with
  | none =>
    by_cases hflags : flags = .mustExist
    · exact ⟨z, .declined, by simp only [if_pos hflags],
        .inr ⟨rfl, rfl, .inl ⟨hflags, rfl⟩⟩⟩
    · obtain ⟨z₁, heq, hput⟩ := putLive_add ht h hm hkey (value.toValue c) timeout now
      refine ⟨markDirty c z₁, .ok, by simp only [if_neg hflags, heq], .inl ⟨rfl, hput,
        fun hf => absurd hf hflags, fun _ => ?_⟩⟩
      rw [h.liveFind_eq, hkey]
  | some a =>
    by_cases hflag : flags = .mustNotExist → isExpired c now z a = true
    · obtain ⟨z₁, heq, hput⟩ := putLive_update ht h hm hkey (value.toValue c) timeout now
      refine ⟨markDirty c z₁, .ok, by
        simp only [if_neg (not_admits_iff.not.mpr (not_not.mpr hflag)), heq], .inl ⟨rfl, hput,
        fun _ => by simp, fun hf => ?_⟩⟩
      simp [h.liveFind_eq, hkey, hflag hf]
    · refine ⟨z, .declined, by simp only [if_pos (not_admits_iff.mpr hflag)],
        .inr ⟨rfl, rfl, .inr ?_⟩⟩
      obtain ⟨hf, hexp⟩ := Classical.not_imp.mp hflag
      exact ⟨hf, by simp [h.liveFind_eq, hkey, hexp]⟩

/-- `set()` and `add()` treat a ghost as absent; `replace()` does when there is none. -/
theorem set_same (ht : c.timeout ≠ 0) (h : Purged c now z z') (hm : Ample z z.slab)
    (hm' : Ample z' z'.slab) (key : Bytes) (value : JsValue ν) (timeout : Msec)
    {flags : SetFlags} (hghost : flags = .mustExist → ¬ Ghost c now z key) :
    (ngxJsDictSet c key value timeout flags now z).2 =
        (ngxJsDictSet c key value timeout flags now z').2 ∧
      SameLive c now (ngxJsDictSet c key value timeout flags now z).1
        (ngxJsDictSet c key value timeout flags now z').1 := by
  have hfind : liveFind c now z' key = liveFind c now z key := by
    rw [liveFind, liveFind, h.live_eq]
  obtain ⟨z₁, rc, heq, hcases⟩ := set_ample ht h.inv hm key value timeout flags now
  obtain ⟨z₁', rc', heq', hcases'⟩ := set_ample ht h.inv' hm' key value timeout flags now
  rw [heq, heq']
  rw [hfind] at hcases'
  obtain ⟨rfl, hput, hmust, hmustNot⟩ | ⟨rfl, rfl, hdecl⟩ := hcases <;>
    obtain ⟨rfl, hput', hmust', hmustNot'⟩ | ⟨rfl, rfl, hdecl'⟩ := hcases'
  · exact ⟨rfl, hput.congr hput' h.live_eq⟩
  · obtain ⟨hf, hnone⟩ | ⟨hf, hsome⟩ := hdecl'
    · exact absurd ((h.lookup_none_iff (hghost hf)).mp hnone) (hmust hf)
    · exact absurd (hmustNot hf) hsome
  · obtain ⟨hf, hnone⟩ | ⟨hf, hsome⟩ := hdecl
    · exact absurd ((h.lookup_none_iff (hghost hf)).mpr hnone) (hmust' hf)
    · exact absurd (hmustNot' hf) hsome
  · exact ⟨rfl, h.sameLive⟩

/-- `replace()` updates a ghost, and declines in the purged copy. -/
theorem replace_ghost (ht : c.timeout ≠ 0) (h : Purged c now z z') (hm : Ample z z.slab)
    (hm' : Ample z' z'.slab) (value : JsValue ν) (timeout : Msec) (hghost : Ghost c now z key) :
    (ngxJsDictSet c key value timeout .mustExist now z).2 = .ok ∧
      (ngxJsDictSet c key value timeout .mustExist now z').2 = .declined := by
  have hnone := h.lookup_ghost hghost
  obtain ⟨a, hkey, -⟩ := hghost
  obtain ⟨z₁, rc, heq, hcases⟩ := set_ample ht h.inv hm key value timeout .mustExist now
  obtain ⟨z₁', rc', heq', hcases'⟩ := set_ample ht h.inv' hm' key value timeout .mustExist now
  rw [heq, heq']
  constructor
  · obtain ⟨hrc, -⟩ | ⟨-, -, ⟨-, h0⟩ | ⟨hf, -⟩⟩ := hcases
    · exact hrc
    · rw [hkey] at h0
      cases h0
    · cases hf
  · obtain ⟨-, -, hmust, -⟩ | ⟨hrc, -⟩ := hcases'
    · exact absurd hnone (hmust rfl)
    · exact hrc

/-- The entry that `incr()` leaves. -/
def incrEntry (c : Conf) (key : Bytes) (delta init : ν) (timeout now : Msec) (z : Zone ν) :
    Entry ν :=
  match ngxJsDictLookup z key with
  | none => ⟨key, .number (Env.add init delta), now + if timeout ≠ 0 then timeout else c.timeout⟩
  | some a => ⟨key, .number (Env.add (z.node a).number delta),
      if timeout ≠ 0 then now + timeout else (z.node a).expire⟩

theorem incr_ample (ht : c.timeout ≠ 0) (htype : c.type = .number) (h : Inv c z [] [])
    (hm : Ample z z.slab) (key : Bytes) (delta init : ν) (timeout now : Msec) :
    ∃ z₁, ngxJsDictIncr c key delta init timeout now z =
        (z₁, .ok, (incrEntry c key delta init timeout now z).value.num) ∧
      PutLive c now (incrEntry c key delta init timeout now z) z z₁ := by
  unfold ngxJsDictIncr incrEntry
  cases hkey : ngxJsDictLookup z key with
  | none =>
    obtain ⟨z₁, heq, hput⟩ := putLive_add ht h hm hkey (.number (Env.add init delta))
      (if timeout ≠ 0 then timeout else c.timeout) now
    refine ⟨markDirty c z₁, by simp only [heq]; rfl, ?_⟩
    rw [storedValue, htype] at hput
    exact hput
  | some a =>
    obtain ⟨ha, hk⟩ := lookup_eq_some hkey
    refine ⟨_, rfl, ?_⟩
    by_cases htimeout : timeout ≠ 0
    · refine putLive_of_entry h ha hk.symm ?_ ?_ fun b hb hne => ?_ <;>
        simp only [ht, htimeout, ne_eq, not_false_eq_true, and_self, if_true]
      · exact setExpire_rbtree ..
      · refine (entry_setExpire_self ..).trans ?_
        simp [entry, nodeValue, newExpire, htype, ht, hk]
      · refine (entry_setExpire_of_ne hne ..).trans (entry_congr ?_ rfl)
        simp [hne]
    refine putLive_of_entry h ha hk.symm ?_ ?_ fun b hb hne => ?_ <;>
      simp only [htimeout, and_false, if_false]
    · rfl
    · simp [entry, nodeValue, htype, hk]
    · refine entry_congr ?_ rfl
      simp [hne]

/-- `incr()` on a ghost adds to the number of the ghost and keeps its expiry time, where the
purged copy starts from the initial value. -/
def IncrAgrees (c : Conf) (now : Msec) (z : Zone ν) (key : Bytes) (delta init : ν)
    (timeout : Msec) : Prop :=
  ∀ a, ngxJsDictLookup z key = some a → isExpired c now z a = true →
    Env.add (z.node a).number delta = Env.add init delta ∧ (timeout ≠ 0 ∨ ¬ now < now + c.timeout)

/-- Without a ghost `incr()` leaves the same entry in both zones. -/
theorem incrEntry_eq (htype : c.type = .number) (h : Purged c now z z')
    (hghost : ¬ Ghost c now z key) (delta init : ν) (timeout : Msec) :
    incrEntry c key delta init timeout now z = incrEntry c key delta init timeout now z' := by
  have hnone := h.lookup_none_iff hghost
  unfold incrEntry
  cases hkey : ngxJsDictLookup z key with
  | none => rw [hnone.mpr hkey]
  | some a =>
    cases hkey' : ngxJsDictLookup z' key with
    | none => rw [hnone.mp hkey'] at hkey; cases hkey
    | some b =>
      have hentry := h.entry_eq hkey hkey'
      have hnum : (z.node a).number = (z'.node b).number := by
        have := congrArg Entry.value hentry
        simpa [entry, nodeValue, htype] using this
      have hexp : (z.node a).expire = (z'.node b).expire := congrArg Entry.expire hentry
      simp only [hnum, hexp]

theorem incr_same_iff (ht : c.timeout ≠ 0) (htype : c.type = .number) (h : Purged c now z z')
    (hm : Ample z z.slab) (hm' : Ample z' z'.slab) (key : Bytes) (delta init : ν)
    (timeout : Msec) :
    ((ngxJsDictIncr c key delta init timeout now z).2 =
        (ngxJsDictIncr c key delta init timeout now z').2 ∧
      SameLive c now (ngxJsDictIncr c key delta init timeout now z).1
        (ngxJsDictIncr c key delta init timeout now z').1) ↔
      IncrAgrees c now z key delta init timeout := by
  obtain ⟨z₁, heq, hput⟩ := incr_ample ht htype h.inv hm key delta init timeout now
  obtain ⟨z₁', heq', hput'⟩ := incr_ample ht htype h.inv' hm' key delta init timeout now
  rw [heq, heq']
  by_cases hghost : Ghost c now z key
  · have hnone := h.lookup_ghost hghost
    obtain ⟨a, hkey, hexp⟩ := hghost
    have hfresh : ∀ e ∈ live c now z, e.key ≠ key := by
      refine liveFind_eq_none.mp ?_
      simp [h.inv.liveFind_eq, hkey, hexp]
    have hold : ¬ now < (z.node a).expire := by simpa [isExpired, ht] using hexp
    have hcond : IncrAgrees c now z key delta init timeout ↔
        Env.add (z.node a).number delta = Env.add init delta ∧
          (timeout ≠ 0 ∨ ¬ now < now + c.timeout) := by
      refine ⟨fun hagree => hagree a hkey hexp, fun hagree b hb _ => ?_⟩
      rw [hkey] at hb
      cases hb
      exact hagree
    simp only [incrEntry, hkey] at hput
    simp only [incrEntry, hnone] at hput'
    simp only [incrEntry, hkey, hnone, Value.num, Prod.mk.injEq, true_and, hcond]
    refine and_congr_right fun hnum => ?_
    rw [hnum] at hput
    -- The two zones differ in the entry of the key at most.
    have hkeys : ∀ e : Entry ν, e ∈ live c now z ∧ e.key ≠ key ↔ e ∈ live c now z :=
      fun e => and_iff_left_of_imp (hfresh e)
    by_cases htimeout : timeout ≠ 0
    · simp only [if_pos htimeout] at hput hput'
      exact iff_of_true (hput.congr hput' h.live_eq) (.inl htimeout)
    simp only [if_neg htimeout] at hput hput'
    have hput₀ : ∀ e, e ∈ live c now z₁ ↔ e ∈ live c now z := fun e => by
      rw [hput e, hkeys e]
      simp [Entry.isLive, ht, hold]
    have hput₁ : ∀ e, e ∈ live c now z₁' ↔
        (e = ⟨key, .number (Env.add init delta), now + c.timeout⟩ ∧ now < now + c.timeout) ∨
          e ∈ live c now z := fun e => by
      rw [hput' e, h.live_eq, hkeys e]
      simp [Entry.isLive, ht]
    constructor
    · intro hsame
      refine .inr fun hlt => ?_
      have hmem := (hput₁ ⟨key, .number (Env.add init delta), now + c.timeout⟩).mpr
        (.inl ⟨rfl, hlt⟩)
      exact hfresh _ ((hput₀ _).mp ((hsame _).mpr hmem)) rfl
    · rintro (hne | hlt) e
      · exact absurd hne htimeout
      · rw [hput₀ e, hput₁ e]
        exact ⟨.inr, fun he => he.resolve_left fun hnew => hlt hnew.2⟩
  · rw [← incrEntry_eq htype h hghost delta init timeout] at hput' ⊢
    refine iff_of_true ⟨rfl, hput.congr hput' h.live_eq⟩ fun a hkey hexp => ?_
    exact absurd ⟨a, hkey, hexp⟩ hghost

omit [Env ν] in
/-- `delete()` and `pop()` drop the node of the key. -/
theorem delete_eq (h : Inv c z [] []) (key : Bytes) (retval : Bool) (now : Msec) :
    ngxJsDictDelete c key retval now z =
      match ngxJsDictLookup z key with
      | none => (z, .declined, .undefined)
      | some a => (markDirty c (dropNode c z a),
          if retval then
            if isExpired c now z a then (.declined, .undefined)
            else (.ok, (nodeValue c z a).toJs)
          else (.ok, .undefined)) := by
  unfold ngxJsDictDelete
  cases hkey : ngxJsDictLookup z key with
  | none => rfl
  | some a =>
    have hnode : ((outOfExpire c a z).deleteTree a).node a = z.node a := by
      rw [outOfExpire_eq]
      rfl
    have hvalue : nodeValue c ((outOfExpire c a z).deleteTree a) a = nodeValue c z a := by
      rw [outOfExpire_eq]
      rfl
    have hexp : (c.timeout = 0 ∨ now < (z.node a).expire) ↔ ¬ isExpired c now z a = true := by
      simp only [isExpired, Bool.and_eq_true, decide_eq_true_eq, ne_eq, ge_iff_le, not_and,
        UInt64.not_le]
      tauto
    simp only [h.delete_eq_dropNode a, ngxJsDictCopyValueLocked, hnode, hvalue, hexp]
    by_cases hx : isExpired c now z a = true <;> simp [hx]

omit [Env ν] in
theorem mem_live_delete (h : Inv c z [] []) (key : Bytes) (retval : Bool) (now : Msec)
    (e : Entry ν) :
    e ∈ live c now (ngxJsDictDelete c key retval now z).1 ↔ e ∈ live c now z ∧ e.key ≠ key := by
  rw [delete_eq h]
  cases hkey : ngxJsDictLookup z key with
  | none =>
    exact (and_iff_left_of_imp fun he => key_ne_of_lookup_none hkey (mem_live.mp he).1).symm
  | some a =>
    obtain ⟨ha, hk⟩ := lookup_eq_some hkey
    change e ∈ live c now (dropNode c z a) ↔ _
    rw [mem_live, mem_live, mem_entries_dropped (swept_dropNode c z a).toDropped h.nodup,
      mem_entries]
    constructor
    · rintro ⟨⟨b, hb, hne, rfl⟩, hlive⟩
      refine ⟨⟨⟨b, hb, rfl⟩, hlive⟩, fun hkb => hne ?_⟩
      exact List.mem_singleton.mpr (h.eq_of_key hb ha (hkb.trans hk.symm))
    · rintro ⟨⟨⟨b, hb, rfl⟩, hlive⟩, hkb⟩
      refine ⟨⟨b, hb, fun hba => hkb ?_, rfl⟩, hlive⟩
      rw [List.mem_singleton.mp hba]
      exact hk

omit [Env ν] in
theorem delete_sameLive (h : Purged c now z z') (key : Bytes) (retval : Bool) :
    SameLive c now (ngxJsDictDelete c key retval now z).1
      (ngxJsDictDelete c key retval now z').1 := fun e => by
  rw [mem_live_delete h.inv, mem_live_delete h.inv', h.live_eq]

omit [Env ν] in
/-- `pop()` returns the live value of the key. -/
theorem pop_value (h : Inv c z [] []) (key : Bytes) (now : Msec) :
    (ngxJsDictDelete c key true now z).2.2 =
      match liveFind c now z key with
      | none => .undefined
      | some e => e.value.toJs := by
  rw [delete_eq h, h.liveFind_eq]
  cases ngxJsDictLookup z key with
  | none => rfl
  | some a => by_cases hx : isExpired c now z a = true <;> simp [hx, entry]

omit [Env ν] in
theorem delete_rc (h : Inv c z [] []) (key : Bytes) (now : Msec) :
    (ngxJsDictDelete c key false now z).2.1 = .ok ↔ ngxJsDictLookup z key ≠ none := by
  rw [delete_eq h]
  cases ngxJsDictLookup z key <;> simp

/-! ### The two bindings -/

/-- The bindings; the engine's own memory suffices. -/
inductive Engine
  | njs
  | qjs
  deriving DecidableEq

namespace Engine

/-- A method call through a binding. -/
def call (c : Conf) (now : Msec) : Engine → Call ν → Zone ν → Zone ν × Outcome ν
  | .njs => njsCall c now
  | .qjs => qjsCall c true now

/-- The arguments of `set()`. -/
def setArgs (c : Conf) (value : JsValue ν) (timeo : Option (JsValue ν)) :
    Engine → Except JsError Msec
  | .njs => njsSetArgs c value timeo
  | .qjs => (qjsSetArgs c value timeo).map UInt32.toUInt64

/-- The arguments of `incr()`. -/
def incrArgs (c : Conf) (delta : JsValue ν) (init timeo : Option (JsValue ν)) :
    Engine → Except JsError (ν × ν × Msec)
  | .njs => njsIncrArgs c delta init timeo
  | .qjs => (qjsIncrArgs c delta init timeo).map fun (delta, init, timeout) =>
      (delta, init, timeout.toUInt64)

/-- What `delete()` returns for a key that is not there. -/
def notDeleted : Engine → JsValue ν
  | .njs => .boolean false
  | .qjs => .undefined

variable {eng : Engine} {timeo : Option (JsValue ν)}

theorem set_error {value : JsValue ν} {e : JsError} (h : eng.setArgs c value timeo = .error e)
    (now : Msec) (flags : SetFlags) (key : Bytes) :
    ∃ e', ∀ z, eng.call c now (.set flags key value timeo) z = (z, .error e') := by
  cases eng with
  | njs =>
    have hargs : njsSetArgs c value timeo = .error e := h
    exact ⟨e, fun z => by rw [call, njsCall, njsJsExtSharedDictSet, hargs]⟩
  | qjs =>
    cases hargs : qjsSetArgs c value timeo with
    | error e' => exact ⟨e', fun z => by rw [call, qjsCall, ngxQjsExtSharedDictSet, hargs]⟩
    | ok t => simp [setArgs, hargs, Except.map] at h

theorem set_ok {value : JsValue ν} {timeout : Msec} (h : eng.setArgs c value timeo = .ok timeout)
    (now : Msec) (flags : SetFlags) (key : Bytes) (z : Zone ν) :
    eng.call c now (.set flags key value timeo) z =
      ((ngxJsDictSet c key value timeout flags now z).1,
        setResult flags (ngxJsDictSet c key value timeout flags now z).2) := by
  cases eng with
  | njs => exact njsSet_eq h
  | qjs =>
    cases hargs : qjsSetArgs c value timeo with
    | error e => simp [setArgs, hargs, Except.map] at h
    | ok t =>
      simp only [setArgs, hargs, Except.map, Except.ok.injEq] at h
      rw [← h]
      exact qjsExtSet_eq hargs

theorem incr_error {delta : JsValue ν} {init : Option (JsValue ν)} {e : JsError}
    (h : eng.incrArgs c delta init timeo = .error e) (now : Msec) (key : Bytes) :
    ∃ e', ∀ z, eng.call c now (.incr key delta init timeo) z = (z, .error e') := by
  cases eng with
  | njs =>
    have hargs : njsIncrArgs c delta init timeo = .error e := h
    exact ⟨e, fun z => by rw [call, njsCall, njsJsExtSharedDictIncr, hargs]⟩
  | qjs =>
    cases hargs : qjsIncrArgs c delta init timeo with
    | error e' => exact ⟨e', fun z => by rw [call, qjsCall, ngxQjsExtSharedDictIncr, hargs]⟩
    | ok t => simp [incrArgs, hargs, Except.map] at h

theorem incr_ok {delta : JsValue ν} {init : Option (JsValue ν)} {delta' init' : ν}
    {timeout : Msec} (h : eng.incrArgs c delta init timeo = .ok (delta', init', timeout))
    (now : Msec) (key : Bytes) :
    c.type = .number ∧ ∃ e', ∀ z, eng.call c now (.incr key delta init timeo) z =
      ((ngxJsDictIncr c key delta' init' timeout now z).1,
        if (ngxJsDictIncr c key delta' init' timeout now z).2.1 = .ok then
          .ok (.number (ngxJsDictIncr c key delta' init' timeout now z).2.2)
        else .error e') := by
  cases eng with
  | njs =>
    have hargs : njsIncrArgs c delta init timeo = .ok (delta', init', timeout) := h
    refine ⟨?_, _, fun z => njsIncr_eq hargs⟩
    by_contra htype
    simp [njsIncrArgs, htype, throwTypeError] at hargs
  | qjs =>
    cases hargs : qjsIncrArgs c delta init timeo with
    | error e => simp [incrArgs, hargs, Except.map] at h
    | ok args =>
      obtain ⟨d, i, t⟩ := args
      simp only [incrArgs, hargs, Except.map, Except.ok.injEq, Prod.mk.injEq] at h
      obtain ⟨rfl, rfl, rfl⟩ := h
      exact ⟨type_of_qjsIncrArgs hargs, _, fun z => qjsExtIncr_eq hargs⟩

/-- The method `delete()` of both bindings. -/
theorem delete_call (eng : Engine) (h : Inv c z [] []) (now : Msec) (key : Bytes) :
    eng.call c now (.delete key) z = ((ngxJsDictDelete c key false now z).1,
        .ok (if ngxJsDictLookup z key = none then eng.notDeleted else .boolean true)) := by
  cases eng with
  | njs =>
    have hrc := delete_rc h key now
    change ((ngxJsDictDelete c key false now z).1, Except.ok (JsValue.boolean
      (decide ((ngxJsDictDelete c key false now z).2.1 = .ok)))) = _
    by_cases hkey : ngxJsDictLookup z key = none <;> simp [hrc, hkey, notDeleted]
  | qjs =>
    change ngxQjsDictDelete c key false now z = _
    unfold ngxQjsDictDelete ngxJsDictDelete
    rw [show ngxQjsDictLookup z key = ngxJsDictLookup z key from rfl]
    cases ngxJsDictLookup z key <;> rfl

/-- The method `pop()` of both bindings. -/
theorem pop_call (eng : Engine) (now : Msec) (key : Bytes) (z : Zone ν) :
    eng.call c now (.pop key) z =
      ((ngxJsDictDelete c key true now z).1, .ok (ngxJsDictDelete c key true now z).2.2) := by
  cases eng with
  | njs => rfl
  | qjs =>
    change ngxQjsDictDelete c key true now z = _
    unfold ngxQjsDictDelete ngxJsDictDelete
    rw [show ngxQjsDictLookup z key = ngxJsDictLookup z key from rfl]
    cases ngxJsDictLookup z key with
    | none => rfl
    | some a =>
      simp only [if_true, copyValue_eq]
      split <;> rfl

end Engine

/-! ### Expired means absent -/

def SameEffect (c : Conf) (now : Msec) (r r' : Zone ν × Outcome ν) : Prop :=
  r.2 = r'.2 ∧ SameLive c now r.1 r'.1

/-- The calls and states in which no ghost is taken for a live entry: `delete()` and `replace()`
need that there is none, `incr()` that it makes no difference. -/
def NoGhost (eng : Engine) (c : Conf) (now : Msec) (z : Zone ν) : Call ν → Prop
  | .delete key => ¬ Ghost c now z key
  | .set flags key value timeo =>
    flags = .mustExist → (∃ timeout, eng.setArgs c value timeo = .ok timeout) →
      ¬ Ghost c now z key
  | .incr key delta init timeo =>
    ∀ delta' init' timeout, eng.incrArgs c delta init timeo = .ok (delta', init', timeout) →
      IncrAgrees c now z key delta' init' timeout
  | _ => True

theorem Purged.read (h : Purged c now z z') (eng : Engine) {call : Call ν}
    (hread : (eng.call c now call z).1 = z) (hread' : (eng.call c now call z').1 = z')
    (hvalue : (eng.call c now call z).2 = (eng.call c now call z').2) :
    SameEffect c now (eng.call c now call z) (eng.call c now call z') := by
  refine ⟨hvalue, ?_⟩
  rw [hread, hread']
  exact h.sameLive

omit [Env ν] in
theorem Purged.liveFind_eq (h : Purged c now z z') (key : Bytes) :
    liveFind c now z' key = liveFind c now z key := by
  rw [liveFind, liveFind, h.live_eq]

omit [Env ν] in
theorem Purged.collect_eq {β : Type} (h : Purged c now z z') (g : Entry ν → β) (count : ℤ) :
    collect c now z (fun a => g (entry c z a)) z.rbtree count =
      collect c now z' (fun a => g (entry c z' a)) z'.rbtree count := by
  rw [SharedDict.collect_eq, SharedDict.collect_eq]
  change limit ((live c now z).map g) count = limit ((live c now z').map g) count
  rw [h.live_eq]

theorem Purged.call_iff (ht : c.timeout ≠ 0) (h : Purged c now z z') (hm : Ample z z.slab)
    (hm' : Ample z' z'.slab) (eng : Engine) {call : Call ν} (hcall : call ≠ .clear) :
    SameEffect c now (eng.call c now call z) (eng.call c now call z') ↔
      NoGhost eng c now z call := by
  cases call with
  | get key =>
    refine iff_of_true (h.read eng (by cases eng <;> rfl) (by cases eng <;> rfl) ?_) trivial
    have hget : ngxJsDictGet c key now z = ngxJsDictGet c key now z' := by
      rw [h.inv.get_eq, h.inv'.get_eq, h.liveFind_eq]
    cases eng with
    | njs => exact congrArg Except.ok hget
    | qjs => exact congrArg Except.ok ((qjsGet_eq ..).trans (hget.trans (qjsGet_eq ..).symm))
  | has key =>
    refine iff_of_true (h.read eng (by cases eng <;> rfl) (by cases eng <;> rfl) ?_) trivial
    have hhas : njsJsExtSharedDictHas c now key z = njsJsExtSharedDictHas c now key z' := by
      rw [h.inv.has_eq, h.inv'.has_eq, h.liveFind_eq]
    cases eng <;> exact hhas
  | ttl key =>
    refine iff_of_true (h.read eng (by cases eng <;> rfl) (by cases eng <;> rfl) ?_) trivial
    have httl : njsJsExtSharedDictTtl c now key z = njsJsExtSharedDictTtl c now key z' := by
      rw [h.inv.ttl_eq, h.inv'.ttl_eq, h.liveFind_eq]
    cases eng <;> exact httl
  | keys maxCount =>
    refine iff_of_true (h.read eng (by cases eng <;> rfl) (by cases eng <;> rfl) ?_) trivial
    cases eng with
    | njs =>
      change (njsMaxCount maxCount).map _ = (njsMaxCount maxCount).map _
      refine congrArg (Except.map · _) (funext fun count => ?_)
      exact congrArg JsValue.keys (h.collect_eq Entry.key count)
    | qjs =>
      change (qjsMaxCount maxCount).map _ = (qjsMaxCount maxCount).map _
      refine congrArg (Except.map · _) (funext fun count => ?_)
      exact congrArg JsValue.keys (h.collect_eq Entry.key count.toNat)
  | items maxCount =>
    refine iff_of_true (h.read eng (by cases eng <;> rfl) (by cases eng <;> rfl) ?_) trivial
    cases eng with
    | njs =>
      change (njsMaxCount maxCount).map _ = (njsMaxCount maxCount).map _
      refine congrArg (Except.map · _) (funext fun count => ?_)
      exact congrArg JsValue.items (h.collect_eq (fun e => (e.key, e.value)) count)
    | qjs =>
      change (qjsMaxCount maxCount).map _ = (qjsMaxCount maxCount).map _
      refine congrArg (Except.map · _) (funext fun count => ?_)
      exact congrArg JsValue.items (h.collect_eq (fun e => (e.key, e.value)) count.toNat)
  | size =>
    refine iff_of_true (h.read eng (by cases eng <;> rfl) (by cases eng <;> rfl) ?_) trivial
    have hcount : liveCount c now z = liveCount c now z' := by
      rw [liveCount_eq, liveCount_eq, h.live_eq]
    cases eng with
    | njs => exact congrArg (fun n : ℕ => Except.ok (JsValue.number (Env.ofInt n))) hcount
    | qjs =>
      exact congrArg
        (fun n : ℕ => Except.ok (JsValue.number (Env.ofInt (Int.bmod n (2 ^ 32))))) hcount
  | set flags key value timeo =>
    cases hargs : eng.setArgs c value timeo with
    | error e =>
      obtain ⟨e', heq⟩ := Engine.set_error hargs now flags key
      rw [heq, heq]
      refine iff_of_true ⟨rfl, h.sameLive⟩ fun _ hok => ?_
      obtain ⟨timeout, hok⟩ := hok
      rw [hargs] at hok
      cases hok
    | ok timeout =>
      rw [Engine.set_ok hargs, Engine.set_ok hargs]
      by_cases hghost : flags = .mustExist ∧ Ghost c now z key
      · obtain ⟨rfl, hghost⟩ := hghost
        obtain ⟨hok, hdecl⟩ := replace_ghost ht h hm hm' value timeout hghost
        refine iff_of_false (fun hsame => ?_) fun hno => hno rfl ⟨timeout, hargs⟩ hghost
        have hvalue := hsame.1
        simp only [hok, hdecl, setResult] at hvalue
        simp at hvalue
      · have hno : flags = .mustExist → ¬ Ghost c now z key := fun hf hg => hghost ⟨hf, hg⟩
        obtain ⟨hrc, hlive⟩ := set_same ht h hm hm' key value timeout hno
        exact iff_of_true ⟨by simp only [hrc], hlive⟩ fun hf _ => hno hf
  | incr key delta init timeo =>
    cases hargs : eng.incrArgs c delta init timeo with
    | error e =>
      obtain ⟨e', heq⟩ := Engine.incr_error hargs now key
      rw [heq, heq]
      refine iff_of_true ⟨rfl, h.sameLive⟩ fun delta' init' timeout hok => ?_
      rw [hargs] at hok
      cases hok
    | ok args =>
      obtain ⟨delta', init', timeout⟩ := args
      obtain ⟨htype, e', heq⟩ := Engine.incr_ok hargs now key
      have hiff := incr_same_iff ht htype h hm hm' key delta' init' timeout
      obtain ⟨z₁, hr, -⟩ := incr_ample ht htype h.inv hm key delta' init' timeout now
      obtain ⟨z₁', hr', -⟩ := incr_ample ht htype h.inv' hm' key delta' init' timeout now
      rw [heq, heq]
      rw [hr, hr'] at hiff ⊢
      have hcond : NoGhost eng c now z (.incr key delta init timeo) ↔
          IncrAgrees c now z key delta' init' timeout := by
        refine ⟨fun hno => hno _ _ _ hargs, fun hagree d i t hok => ?_⟩
        rw [hargs] at hok
        cases hok
        exact hagree
      rw [hcond, ← hiff]
      simp [SameEffect]
  | delete key =>
    rw [Engine.delete_call eng h.inv, Engine.delete_call eng h.inv']
    have hlive := delete_sameLive h key false
    by_cases hghost : Ghost c now z key
    · refine iff_of_false (fun hsame => ?_) (not_not.mpr hghost)
      have hvalue := hsame.1
      obtain ⟨a, hkey, -⟩ := id hghost
      simp only [hkey, h.lookup_ghost hghost] at hvalue
      cases eng <;> simp [Engine.notDeleted] at hvalue
    · refine iff_of_true ⟨?_, hlive⟩ hghost
      simp only [h.lookup_none_iff hghost]
  | pop key =>
    rw [Engine.pop_call, Engine.pop_call]
    refine iff_of_true ⟨?_, delete_sameLive h key true⟩ trivial
    simp only [pop_value h.inv, pop_value h.inv', h.liveFind_eq]
  | clear => exact absurd rfl hcall

/-- A zone that operations can lead to from an empty one. -/
def Reached (c : Conf) (z : Zone ν) : Prop :=
  ∃ n steps, z = run c steps (Zone.init n)

/-- In every reachable zone with a timeout, at every clock, an operation returns the same and
leaves the same live entries as on the zone without its expired entries, exactly where no ghost
is taken for a live entry. -/
theorem expired_absent_iff (eng : Engine) (ht : c.timeout ≠ 0) (hz : Reached c z) (now : Msec)
    {call : Call ν} (hcall : call ≠ .clear) {slab slab' : List (ℕ → Option Addr)}
    (hm : Ample z slab) (hm' : Ample (purge c now z) slab') :
    SameEffect c now (eng.call c now call (z.withSlab slab))
        (eng.call c now call ((purge c now z).withSlab slab')) ↔
      NoGhost eng c now z call := by
  obtain ⟨n, steps, rfl⟩ := hz
  have h := purged_purge now ((Inv.init c n).run steps)
  have h' : Purged c now ((run c steps (Zone.init n)).withSlab slab)
      ((purge c now (run c steps (Zone.init n))).withSlab slab') :=
    ⟨h.inv.withSlab slab, h.inv'.withSlab slab', h.live_eq, h.allLive⟩
  exact h'.call_iff ht hm hm' eng hcall

/-- An allocator that serves two requests. -/
def twoAnswers (p q : Addr) : List (ℕ → Option Addr) :=
  [fun _ => some p, fun _ => some q]

/-- A zone after `set('a', 'b')` at the clock zero. -/
def oneEntryZone : Zone JsNumber :=
  run minuteConf [⟨.njs (.set .none [97] (.string [98]) none), 0, twoAnswers 0 1⟩]
    (Zone.init blankNode)

/-- When the entry has expired, `get('a')` treats it as absent. -/
theorem expired_absent_get : SameEffect minuteConf 60000
      (Engine.njs.call minuteConf 60000 (.get [97]) (oneEntryZone.withSlab (twoAnswers 2 3)))
      (Engine.njs.call minuteConf 60000 (.get [97])
        ((purge minuteConf 60000 oneEntryZone).withSlab (twoAnswers 2 3))) := by
  have hample : ∀ z : Zone JsNumber, 2 ∉ z.chunks → 3 ∉ z.chunks → Ample z (twoAnswers 2 3) :=
    fun z h₂ h₃ => ⟨_, _, [], rfl, fun _ _ => ⟨2, 3, rfl, rfl, h₂, h₃, by decide⟩⟩
  exact (expired_absent_iff .njs (by decide) ⟨blankNode, _, rfl⟩ 60000 (by simp)
    (hample _ (by decide) (by decide)) (hample _ (by decide) (by decide))).mpr trivial

/-- When the entry has expired, `delete('a')` returns `true`, and `false` without it. -/
theorem ghost_delete : Reached minuteConf oneEntryZone ∧
    ¬ SameEffect minuteConf 60000 (Engine.njs.call minuteConf 60000 (.delete [97])
        (oneEntryZone.withSlab (twoAnswers 2 3)))
      (Engine.njs.call minuteConf 60000 (.delete [97])
        ((purge minuteConf 60000 oneEntryZone).withSlab (twoAnswers 2 3))) := by
  refine ⟨⟨blankNode, _, rfl⟩, fun h => ?_⟩
  have hvalue : (Except.ok (.boolean true) : Outcome JsNumber) = .ok (.boolean false) := h.1
  simp at hvalue

end Njs.SharedDict
