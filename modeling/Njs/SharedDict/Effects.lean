import Mathlib.Data.List.Perm.Subperm
import Njs.SharedDict.Bindings

/-!
# What sections of a zone do to it

The loops of `ngx_js_dict_expire`, `ngx_js_dict_evict` and `ngx_js_dict_alloc` remove a leading
part of the expire tree from both trees and free its nodes; the rest of the zone stays as it
is. `Swept z z' l` says that `z'` is `z` without the nodes `l`, and there is one lemma for each
loop, from which everything else about the sweeps follows.
-/

namespace Njs.SharedDict

variable {ν : Type} {c : Conf} {z z' : Zone ν}

/-! ### Lists of chunks -/

theorem subperm_diff_of_append {l chunks : List Addr} :
    (ps : List Addr) → (ps ++ l).Subperm chunks → l.Subperm (chunks.diff ps)
  | [], h => h
  | p :: ps, h => by
    rw [List.diff_cons]
    refine subperm_diff_of_append ps ?_
    simpa using h.erase p

theorem nodup_of_subperm {l l' : List Addr} (h : l.Subperm l') (hn : l'.Nodup) : l.Nodup := by
  obtain ⟨k, hk, hs⟩ := h
  exact hk.nodup_iff.mp (hn.sublist hs)

/-! ### What a sweep does to the zone -/

theorem Zone.slabAlloc_cases (z : Zone ν) (n : ℕ) :
    (∃ slab, z.slabAlloc n = ({ z with slab }, none)) ∨ ∃ p slab, p ∉ z.chunks ∧
        z.slabAlloc n = ({ z with slab, chunks := p :: z.chunks }, some p) := by
  unfold Zone.slabAlloc
  split
  · exact .inl ⟨z.slab, rfl⟩
  next answer slab _ =>
  split
  · exact .inl ⟨slab, rfl⟩
  · next p _ =>
    split
    · exact .inl ⟨slab, rfl⟩
    · next hp => exact .inr ⟨p, slab, hp, rfl⟩

/-- `z'` is `z` without the nodes `l` in the main tree; the expire tree and the allocator's state
are left open. -/
structure Dropped (z z' : Zone ν) (l : List Addr) : Prop where
  node : z'.node = z.node
  buf : z'.buf = z.buf
  rbtree : z'.rbtree = z.rbtree.diff l
  dirty : z'.dirty = z.dirty
  writing : z'.writing = z.writing
  timerSet : z'.timerSet = z.timerSet

/-- `z'` is `z` without the nodes `l`; only the allocator's state may differ besides. -/
structure Swept (z z' : Zone ν) (l : List Addr) : Prop extends Dropped z z' l where
  rbtreeExpire : z'.rbtreeExpire = z.rbtreeExpire.diff l

theorem Swept.refl (z : Zone ν) : Swept z z [] := ⟨⟨rfl, rfl, rfl, rfl, rfl, rfl⟩, rfl⟩

theorem Swept.trans {z₁ z₂ z₃ : Zone ν} {l₁ l₂ : List Addr} (h₁ : Swept z₁ z₂ l₁)
    (h₂ : Swept z₂ z₃ l₂) : Swept z₁ z₃ (l₁ ++ l₂) where
  node := h₂.node.trans h₁.node
  buf := h₂.buf.trans h₁.buf
  rbtree := by rw [h₂.rbtree, h₁.rbtree, List.diff_append]
  rbtreeExpire := by rw [h₂.rbtreeExpire, h₁.rbtreeExpire, List.diff_append]
  dirty := h₂.dirty.trans h₁.dirty
  writing := h₂.writing.trans h₁.writing
  timerSet := h₂.timerSet.trans h₁.timerSet

/-- The chunks of a node: its value buffer, in a string zone, and its own. -/
def chunksOf (c : Conf) (z : Zone ν) (a : Addr) : List Addr :=
  match c.type with
  | .string => [(z.node a).str, a]
  | .number => [a]

theorem nodeFree_eq (c : Conf) (z : Zone ν) (a : Addr) :
    ngxJsDictNodeFree c z a = { z with chunks := z.chunks.diff (chunksOf c z a) } := by
  unfold ngxJsDictNodeFree chunksOf
  cases c.type <;> simp [Zone.slabFree, List.diff_cons]

theorem dropNode_eq (c : Conf) (z : Zone ν) (a : Addr) : dropNode c z a = { z with
      rbtree := z.rbtree.erase a
      rbtreeExpire := z.rbtreeExpire.erase a
      chunks := z.chunks.diff (chunksOf c z a) } := by
  rw [dropNode, nodeFree_eq]
  rfl

theorem outOfExpire_eq (c : Conf) (a : Addr) (z : Zone ν) : outOfExpire c a z = { z with
      rbtreeExpire := if c.timeout ≠ 0 then z.rbtreeExpire.erase a else z.rbtreeExpire } := by
  rw [outOfExpire]
  split <;> rfl

theorem swept_dropNode (c : Conf) (z : Zone ν) (a : Addr) : Swept z (dropNode c z a) [a] := by
  rw [dropNode_eq]
  refine ⟨⟨?_, ?_, ?_, ?_, ?_, ?_⟩, ?_⟩ <;> simp [List.diff_cons]

theorem swept_slabAlloc (z : Zone ν) (n : ℕ) : Swept z (z.slabAlloc n).1 [] := by
  obtain ⟨slab, h⟩ | ⟨p, slab, -, h⟩ := z.slabAlloc_cases n <;> rw [h] <;>
    exact ⟨⟨rfl, rfl, rfl, rfl, rfl, rfl⟩, rfl⟩

theorem swept_expireLoop (c : Conf) (now : Msec) : (l : List Addr) → (z : Zone ν) →
      Swept z (ngxJsDictExpireLoop c now l z) (l.takeWhile fun a => (z.node a).expire ≤ now)
  | [], z => .refl z
  | a :: l, z => by
    have hnode : (dropNode c z a).node = z.node := (swept_dropNode c z a).node
    rw [ngxJsDictExpireLoop]
    split
    · next h =>
      rw [List.takeWhile_cons_of_neg (by simpa using h)]
      exact .refl z
    · next h =>
      rw [List.takeWhile_cons_of_pos (by simpa using h)]
      have := (swept_dropNode c z a).trans (swept_expireLoop c now l (dropNode c z a))
      rwa [hnode] at this

theorem swept_evictLoop (c : Conf) : (l : List Addr) → (count : ℕ) → (z : Zone ν) →
      Swept z (ngxJsDictEvictLoop c l count z).1 (l.take count)
  | [], _, z => by rw [List.take_nil]; exact .refl z
  | _ :: _, 0, z => .refl z
  | a :: l, count + 1, z =>
    (swept_dropNode c z a).trans (swept_evictLoop c l count (dropNode c z a))

theorem evictLoop_snd (c : Conf) : (l : List Addr) → (count : ℕ) → (z : Zone ν) →
      (ngxJsDictEvictLoop c l count z).2 = min count l.length
  | [], _, _ => by simp [ngxJsDictEvictLoop]
  | _ :: _, 0, _ => by simp [ngxJsDictEvictLoop]
  | a :: l, count + 1, z => by
    simp only [ngxJsDictEvictLoop, evictLoop_snd c l count, List.length_cons]
    omega

theorem diff_take_self : (l : List Addr) → (k : ℕ) → l.diff (l.take k) = l.drop k
  | [], k => by simp
  | _ :: _, 0 => by simp
  | a :: l, k + 1 => by simp [List.diff_cons, diff_take_self l k]

theorem swept_evict (c : Conf) (count : ℕ) (z : Zone ν) :
    Swept z (ngxJsDictEvict c count z).1 (z.rbtreeExpire.take count) :=
  swept_evictLoop c z.rbtreeExpire count z

theorem evict_snd (c : Conf) (count : ℕ) (z : Zone ν) :
    (ngxJsDictEvict c count z).2 = min count z.rbtreeExpire.length :=
  evictLoop_snd c z.rbtreeExpire count z

theorem swept_expire (c : Conf) (now : Msec) (z : Zone ν) : Swept z (ngxJsDictExpire c now z)
      (z.rbtreeExpire.takeWhile fun a => (z.node a).expire ≤ now) :=
  swept_expireLoop c now z.rbtreeExpire z

/-- One round of the loop of `ngx_js_dict_alloc`: the tree is empty and the loop ends, or nodes
are evicted and the request is made again. -/
theorem allocLoop_succ (c : Conf) (n rounds : ℕ) (z : Zone ν) :
    ngxJsDictAllocLoop c n (rounds + 1) z =
      if z.rbtreeExpire = [] then ((ngxJsDictEvict c 16 z).1, none)
      else
        match ((ngxJsDictEvict c 16 z).1.slabAlloc n).2 with
        | some p => (((ngxJsDictEvict c 16 z).1.slabAlloc n).1, some p)
        | none =>
          ngxJsDictAllocLoop c n rounds ((ngxJsDictEvict c 16 z).1.slabAlloc n).1 := by
  rw [ngxJsDictAllocLoop]
  have hsnd := evict_snd c 16 z
  split
  · next z' heq =>
    have hnil : z.rbtreeExpire = [] := by
      rw [heq] at hsnd
      exact List.length_eq_zero_iff.mp (by simp only at hsnd; omega)
    simp [hnil, heq]
  next z' k heq =>
  have hne : z.rbtreeExpire ≠ [] := by
    rintro h
    simp [heq, h] at hsnd
  rw [if_neg hne, heq]
  split <;> next h => simp [h]

/-- The loop of `ngx_js_dict_alloc` evicts a leading part of the expire tree. -/
theorem swept_allocLoop (c : Conf) (n : ℕ) : (rounds : ℕ) → (z : Zone ν) →
    ∃ k, Swept z (ngxJsDictAllocLoop c n rounds z).1 (z.rbtreeExpire.take k)
  | 0, z => ⟨0, .refl z⟩
  | rounds + 1, z => by
    have hev := swept_evict c 16 z
    have hall := hev.trans (swept_slabAlloc _ n)
    rw [List.append_nil] at hall
    rw [allocLoop_succ]
    split
    · exact ⟨16, hev⟩
    split
    · exact ⟨16, hall⟩
    obtain ⟨k, hk⟩ := swept_allocLoop c n rounds ((ngxJsDictEvict c 16 z).1.slabAlloc n).1
    refine ⟨16 + k, ?_⟩
    have htree : ((ngxJsDictEvict c 16 z).1.slabAlloc n).1.rbtreeExpire =
        z.rbtreeExpire.drop 16 := by
      rw [hall.rbtreeExpire, diff_take_self]
    rw [htree] at hk
    rw [List.take_add]
    exact hall.trans hk

/-- `ngx_js_dict_alloc` drops a leading part of the expire tree, and nothing in a zone that does
not evict. -/
theorem swept_alloc (c : Conf) (n : ℕ) (z : Zone ν) : ∃ k, (c.evict = false → k = 0) ∧
      Swept z (ngxJsDictAlloc c n z).1 (z.rbtreeExpire.take k) := by
  unfold ngxJsDictAlloc
  cases hc : c.evict with
  | false => exact ⟨0, fun _ => rfl, swept_slabAlloc z n⟩
  | true =>
    have h₁ := swept_slabAlloc z n
    simp only [if_true]
    cases ha : z.slabAlloc n with
    | mk z₁ r =>
      rw [ha] at h₁
      cases r with
      | some p => exact ⟨0, by simp, h₁⟩
      | none =>
        simp only
        obtain ⟨k, h₂⟩ := swept_allocLoop c n z₁.rbtreeExpire.length z₁
        have htree : z₁.rbtreeExpire = z.rbtreeExpire := h₁.rbtreeExpire
        rw [htree] at h₂ ⊢
        have h₁₂ := h₁.trans h₂
        refine ⟨k, by simp, ?_⟩
        cases hl : ngxJsDictAllocLoop c n z.rbtreeExpire.length z₁ with
        | mk z₂ r =>
          rw [hl] at h₁₂
          cases r with
          | some p => exact h₁₂
          | none => simpa using h₁₂.trans (swept_slabAlloc z₂ n)

/-! ### What an insertion and an update can do -/

/-- The exits of `ngx_js_dict_add_value`: the node's chunk is refused, the value's chunk is
refused, or the node is linked. -/
theorem addValue_cases [Env ν] (c : Conf) (key : Bytes) (value : Value ν) (timeout now : Msec)
    (z : Zone ν) :
    (∃ z₂, ngxJsDictAlloc c (nodeSize + key.length) (sweepFirst c now z) = (z₂, none) ∧
      ngxJsDictAddValue c key value timeout now z = (z₂, .error)) ∨
    ∃ z₂ a, ngxJsDictAlloc c (nodeSize + key.length) (sweepFirst c now z) = (z₂, some a) ∧
      ((∃ z₃, c.type = .string ∧ ngxJsDictAlloc c value.bytes.length z₂ = (z₃, none) ∧
        ngxJsDictAddValue c key value timeout now z = (z₃.slabFree a, .error)) ∨
      (∃ z₃ p, c.type = .string ∧ ngxJsDictAlloc c value.bytes.length z₂ = (z₃, some p) ∧
        ngxJsDictAddValue c key value timeout now z = (linkNode c a key timeout now
            ((z₃.setNode a { z₃.node a with str := p }).setBuf p value.bytes), .ok)) ∨
      (c.type = .number ∧ ngxJsDictAddValue c key value timeout now z =
        (linkNode c a key timeout now (z₂.setNode a { z₂.node a with number := value.num }),
          .ok))) := by
  unfold ngxJsDictAddValue
  cases h₁ : ngxJsDictAlloc c (nodeSize + key.length) (sweepFirst c now z) with
  | mk z₂ r =>
    cases r with
    | none => exact .inl ⟨z₂, rfl, rfl⟩
    | some a =>
      refine .inr ⟨z₂, a, rfl, ?_⟩
      cases hs : c.type with
      | number => exact .inr (.inr ⟨rfl, rfl⟩)
      | string =>
        cases h₂ : ngxJsDictAlloc c value.bytes.length z₂ with
        | mk z₃ r =>
          cases r with
          | none => exact .inl ⟨z₃, rfl, rfl, by simp [h₂]⟩
          | some p => exact .inr (.inl ⟨z₃, p, rfl, rfl, by simp [h₂]⟩)

/-- The exits of `ngx_js_dict_update`: the value's chunk is refused, or the node is
rewritten. -/
theorem update_cases [Env ν] (c : Conf) (a : Addr) (value : Value ν) (timeout now : Msec)
    (z : Zone ν) :
    (∃ z₂, c.type = .string ∧ ngxJsDictAlloc c value.bytes.length (outOfExpire c a z) = (z₂, none) ∧
      ngxJsDictUpdate c a value timeout now z =
        (if c.timeout ≠ 0 then z₂.insertExpire a else z₂, .error)) ∨
    (∃ z₂ p, c.type = .string ∧ ngxJsDictAlloc c value.bytes.length (outOfExpire c a z) =
        (z₂, some p) ∧
      ngxJsDictUpdate c a value timeout now z =
        (setExpire c a timeout now (((z₂.slabFree (z₂.node a).str).setBuf p
          value.bytes).setNode a { z₂.node a with str := p }), .ok)) ∨
    (c.type = .number ∧ ngxJsDictUpdate c a value timeout now z =
      (setExpire c a timeout now ((outOfExpire c a z).setNode a
        { (outOfExpire c a z).node a with number := value.num }), .ok)) := by
  unfold ngxJsDictUpdate
  cases hs : c.type with
  | number => exact .inr (.inr ⟨rfl, rfl⟩)
  | string =>
    cases h₁ : ngxJsDictAlloc c value.bytes.length (outOfExpire c a z) with
    | mk z₂ r =>
      cases r with
      | none => exact .inl ⟨z₂, rfl, rfl, rfl⟩
      | some p => exact .inr (.inl ⟨z₂, p, rfl, rfl, rfl⟩)

end Njs.SharedDict

/-!
## What one locked section can do to a zone

The two bindings hold a copy each of most operations. `Effect c now z z'` lists what a method
call may make of a zone, whichever binding executes it; an invariant of the zone is proved by
cases on it, without unfolding the operations again.
-/

namespace Njs.SharedDict

variable {ν : Type} [Env ν] {c : Conf} {now : Msec} {z : Zone ν}

/-- The exits of the locked sections, in the order of the source: nothing is written; a new
entry; no memory for a new entry; an updated entry; no memory for the new value; no memory in
the engine, before the allocation; a deleted entry; an incremented number; an empty zone. -/
inductive Effect (c : Conf) (now : Msec) (z : Zone ν) : Zone ν → Prop
  | same : Effect c now z z
  | add {key : Bytes} {value : Value ν} {timeout : Msec} {z' : Zone ν}
      (hkey : ngxJsDictLookup z key = none)
      (heq : ngxJsDictAddValue c key value timeout now z = (z', .ok)) :
      Effect c now z (markDirty c z')
  | addFailed {key : Bytes} {value : Value ν} {timeout : Msec} {z' : Zone ν}
      (hkey : ngxJsDictLookup z key = none)
      (heq : ngxJsDictAddValue c key value timeout now z = (z', .error)) :
      Effect c now z z'
  | update {key : Bytes} {a : Addr} {value : Value ν} {timeout : Msec} {z' : Zone ν}
      (hkey : ngxJsDictLookup z key = some a)
      (heq : ngxJsDictUpdate c a value timeout now z = (z', .ok)) :
      Effect c now z (markDirty c z')
  | updateFailed {key : Bytes} {a : Addr} {value : Value ν} {timeout : Msec} {z' : Zone ν}
      (hkey : ngxJsDictLookup z key = some a)
      (heq : ngxJsDictUpdate c a value timeout now z = (z', .error)) :
      Effect c now z z'
  | relink {key : Bytes} {a : Addr} (hkey : ngxJsDictLookup z key = some a) :
      Effect c now z
        (if c.timeout ≠ 0 then (outOfExpire c a z).insertExpire a else outOfExpire c a z)
  | delete {key : Bytes} {a : Addr} (hkey : ngxJsDictLookup z key = some a) :
      Effect c now z (markDirty c (ngxJsDictNodeFree c ((outOfExpire c a z).deleteTree a) a))
  | incr {key : Bytes} {a : Addr} (hkey : ngxJsDictLookup z key = some a) (value : ν)
      (timeout : Msec) :
      Effect c now z (markDirty c (if c.timeout ≠ 0 ∧ timeout ≠ 0 then
          setExpire c a timeout now ((z.setNode a { z.node a with number := value }).deleteExpire a)
        else z.setNode a { z.node a with number := value }))
  | clear : Effect c now z (njsJsExtSharedDictClear c z)

/-! ### The exits of insertion and update -/

theorem addValue_rc (c : Conf) (key : Bytes) (value : Value ν) (timeout now : Msec)
    (z : Zone ν) : (ngxJsDictAddValue c key value timeout now z).2 ≠ .declined := by
  obtain ⟨_, -, h⟩ | ⟨_, _, -, ⟨_, -, -, h⟩ | ⟨_, _, -, -, h⟩ | ⟨-, h⟩⟩ :=
    addValue_cases c key value timeout now z <;> simp [h]

theorem update_rc (c : Conf) (a : Addr) (value : Value ν) (timeout now : Msec) (z : Zone ν) :
    (ngxJsDictUpdate c a value timeout now z).2 ≠ .declined := by
  obtain ⟨_, -, -, h⟩ | ⟨_, _, -, -, h⟩ | ⟨-, h⟩ := update_cases c a value timeout now z <;>
    simp [h]

/-- The slab allocator serves the requests of an insertion, if need be after evictions. -/
def AddFits (c : Conf) (key : Bytes) (value : Value ν) (now : Msec) (z : Zone ν) : Prop :=
  (ngxJsDictAlloc c (nodeSize + key.length) (sweepFirst c now z)).2 ≠ none ∧ (c.type = .string →
      (ngxJsDictAlloc c value.bytes.length
        (ngxJsDictAlloc c (nodeSize + key.length) (sweepFirst c now z)).1).2 ≠ none)

/-- The slab allocator serves the request of an update, if need be after evictions. -/
def UpdateFits (c : Conf) (a : Addr) (value : Value ν) (z : Zone ν) : Prop :=
  c.type = .string → (ngxJsDictAlloc c value.bytes.length (outOfExpire c a z)).2 ≠ none

variable {key : Bytes} {value : Value ν}

theorem addValue_fits (h : AddFits c key value now z) :
    ∃ z' a, ∀ timeout, ngxJsDictAddValue c key value timeout now z =
      (linkNode c a key timeout now z', .ok) := by
  obtain ⟨h₁, h₂⟩ := h
  unfold ngxJsDictAddValue
  rcases ha : ngxJsDictAlloc c (nodeSize + key.length) (sweepFirst c now z) with ⟨z₂, _ | a⟩
  · simp [ha] at h₁
  rw [ha] at h₂
  cases hs : c.type with
  | number => exact ⟨_, a, fun _ => rfl⟩
  | string =>
    rcases hb : ngxJsDictAlloc c value.bytes.length z₂ with ⟨z₃, _ | p⟩
    · simp [hb, hs] at h₂
    · exact ⟨(z₃.setNode a { z₃.node a with str := p }).setBuf p value.bytes, a,
        fun _ => by simp only [hb]⟩

theorem addValue_not_fits (h : ¬ AddFits c key value now z) :
    ∃ z', ∀ timeout, ngxJsDictAddValue c key value timeout now z = (z', .error) := by
  unfold AddFits at h
  unfold ngxJsDictAddValue
  rcases ha : ngxJsDictAlloc c (nodeSize + key.length) (sweepFirst c now z) with ⟨z₂, _ | a⟩
  · exact ⟨z₂, fun _ => rfl⟩
  rw [ha] at h
  cases hs : c.type with
  | number => simp [hs] at h
  | string =>
    rcases hb : ngxJsDictAlloc c value.bytes.length z₂ with ⟨z₃, _ | p⟩
    · exact ⟨z₃.slabFree a, fun _ => by simp only [hb]⟩
    · simp [hb] at h

theorem update_fits (now : Msec) {a : Addr} (h : UpdateFits c a value z) :
    ∃ z', ∀ timeout, ngxJsDictUpdate c a value timeout now z =
      (setExpire c a timeout now z', .ok) := by
  unfold UpdateFits at h
  unfold ngxJsDictUpdate
  cases hs : c.type with
  | number => exact ⟨_, fun _ => rfl⟩
  | string =>
    rcases hb : ngxJsDictAlloc c value.bytes.length (outOfExpire c a z) with ⟨z₂, _ | p⟩
    · simp [hb, hs] at h
    · exact ⟨_, fun _ => rfl⟩

theorem update_not_fits (now : Msec) {a : Addr} (h : ¬ UpdateFits c a value z) :
    ∃ z', ∀ timeout, ngxJsDictUpdate c a value timeout now z = (z', .error) := by
  unfold UpdateFits at h
  unfold ngxJsDictUpdate
  cases hs : c.type with
  | number => simp [hs] at h
  | string =>
    rcases hb : ngxJsDictAlloc c value.bytes.length (outOfExpire c a z) with ⟨z₂, _ | p⟩
    · exact ⟨_, fun _ => rfl⟩
    · simp [hb] at h

/-- An insertion inside a locked section: `dirty` is set only when it succeeds. -/
theorem Effect.of_addValue (c : Conf) (now : Msec) (hkey : ngxJsDictLookup z key = none)
    (value : Value ν) (timeout : Msec) :
    (∃ z', ngxJsDictAddValue c key value timeout now z = (z', .ok) ∧
      Effect c now z (markDirty c z')) ∨
    ∃ z', ngxJsDictAddValue c key value timeout now z = (z', .error) ∧ Effect c now z z' := by
  have hrc := addValue_rc c key value timeout now z
  rcases h : ngxJsDictAddValue c key value timeout now z with ⟨z', _ | _ | _⟩
  · exact .inl ⟨z', rfl, .add hkey h⟩
  · rw [h] at hrc
    exact absurd rfl hrc
  · exact .inr ⟨z', rfl, .addFailed hkey h⟩

theorem Effect.of_update (c : Conf) (now : Msec) {a : Addr}
    (hkey : ngxJsDictLookup z key = some a) (value : Value ν) (timeout : Msec) :
    (∃ z', ngxJsDictUpdate c a value timeout now z = (z', .ok) ∧ Effect c now z (markDirty c z')) ∨
    ∃ z', ngxJsDictUpdate c a value timeout now z = (z', .error) ∧ Effect c now z z' := by
  have hrc := update_rc c a value timeout now z
  rcases h : ngxJsDictUpdate c a value timeout now z with ⟨z', _ | _ | _⟩
  · exact .inl ⟨z', rfl, .update hkey h⟩
  · rw [h] at hrc
    exact absurd rfl hrc
  · exact .inr ⟨z', rfl, .updateFailed hkey h⟩

/-! ### The njs binding -/

theorem ngxJsDictSet_effect (c : Conf) (now : Msec) (z : Zone ν) (key : Bytes) (value :
    JsValue ν) (timeout : Msec)
    (flags : SetFlags) :
    Effect c now z (ngxJsDictSet c key value timeout flags now z).1 := by
  unfold ngxJsDictSet
  split
  · next hkey =>
    split
    · exact .same
    · obtain ⟨z', heq, h⟩ | ⟨z', heq, h⟩ :=
        Effect.of_addValue c now hkey (value.toValue c) timeout <;>
      · rw [heq]
        exact h
  next a hkey =>
  split
  · exact .same
  · obtain ⟨z', heq, h⟩ | ⟨z', heq, h⟩ :=
      Effect.of_update c now hkey (value.toValue c) timeout <;>
    · rw [heq]
      exact h

theorem ngxJsDictDelete_effect (c : Conf) (now : Msec) (z : Zone ν) (key : Bytes) (retval : Bool) :
    Effect c now z (ngxJsDictDelete c key retval now z).1 := by
  unfold ngxJsDictDelete
  split
  · exact .same
  · next a hkey => exact .delete hkey

theorem ngxJsDictIncr_effect (c : Conf) (now : Msec) (z : Zone ν) (key : Bytes) (delta init :
    ν) (timeout : Msec) :
    Effect c now z (ngxJsDictIncr c key delta init timeout now z).1 := by
  unfold ngxJsDictIncr
  split
  · next hkey =>
    obtain ⟨z', heq, h⟩ | ⟨z', heq, h⟩ :=
      Effect.of_addValue c now hkey (.number (Env.add init delta))
        (if timeout ≠ 0 then timeout else c.timeout) <;>
    · simp only [heq]
      exact h
  · next a hkey => exact .incr hkey _ timeout

theorem ngxJsDictIncr_rc (c : Conf) (key : Bytes) (delta init : ν) (timeout now : Msec)
    (z : Zone ν) : (ngxJsDictIncr c key delta init timeout now z).2.1 ≠ .declined := by
  unfold ngxJsDictIncr
  split
  · simp only
    split <;> simp
  · simp

theorem njsCall_effect (c : Conf) (now : Msec) (z : Zone ν) (call : Call ν) :
    Effect c now z (njsCall c now call z).1 := by
  cases call with
  | get | has | ttl | keys | items | size => exact .same
  | set flags key value timeo =>
    rw [njsCall, njsJsExtSharedDictSet]
    split
    · exact .same
    · next timeout _ =>
      have h := ngxJsDictSet_effect c now z key value timeout flags
      split <;> next heq => rwa [heq] at h
  | incr key delta init timeo =>
    rw [njsCall, njsJsExtSharedDictIncr]
    split
    · exact .same
    · next delta init timeout _ =>
      have h := ngxJsDictIncr_effect c now z key delta init timeout
      split <;> next heq => rwa [heq] at h
  | delete key => exact ngxJsDictDelete_effect c now z key false
  | pop key => exact ngxJsDictDelete_effect c now z key true
  | clear => exact .clear

/-! ### The QuickJS binding -/

theorem qjsAdd_eq {cstring : Bool} {v : JsValue ν} (hv : qjsToValue c cstring v = some value)
    (key : Bytes) (timeout now : Msec) (z : Zone ν) :
    ngxQjsDictAdd c cstring key v timeout now z = ngxJsDictAddValue c key value timeout now z := by
  rw [ngxQjsDictAdd, hv]

theorem qjsUpdate_eq {cstring : Bool} {v : JsValue ν} (hv : qjsToValue c cstring v = some value)
    (a : Addr) (timeout now : Msec) (z : Zone ν) :
    ngxQjsDictUpdate c cstring a v timeout now z = ngxJsDictUpdate c a value timeout now z := by
  unfold ngxQjsDictUpdate ngxJsDictUpdate
  rewrite [hv]
  cases c.type <;> rfl

theorem qjsUpdate_none {cstring : Bool} {v : JsValue ν} (hv : qjsToValue c cstring v = none)
    (a : Addr) (timeout now : Msec) (z : Zone ν) :
    ngxQjsDictUpdate c cstring a v timeout now z =
      (if c.timeout ≠ 0 then (outOfExpire c a z).insertExpire a else outOfExpire c a z,
        .error) := by
  simp only [ngxQjsDictUpdate, hv]
  cases c.type <;> rfl

theorem ngxQjsDictSet_effect (c : Conf) (now : Msec) (z : Zone ν) (cstring : Bool) (key :
    Bytes) (v : JsValue ν) (timeout : Msec)
    (flags : SetFlags) :
    Effect c now z (ngxQjsDictSet c cstring key v timeout flags now z).1 := by
  unfold ngxQjsDictSet
  split
  · next hkey =>
    split
    · exact .same
    cases hv : qjsToValue c cstring v with
    | none =>
      simp only [ngxQjsDictAdd, hv]
      exact .same
    | some value =>
      rw [qjsAdd_eq hv]
      obtain ⟨z', heq, h⟩ | ⟨z', heq, h⟩ :=
        Effect.of_addValue c now hkey value timeout <;>
      · rw [heq]
        exact h
  · next a hkey =>
    split
    · exact .same
    cases hv : qjsToValue c cstring v with
    | none =>
      rw [qjsUpdate_none hv]
      exact .relink hkey
    | some value =>
      rw [qjsUpdate_eq hv]
      obtain ⟨z', heq, h⟩ | ⟨z', heq, h⟩ :=
        Effect.of_update c now hkey value timeout <;>
      · rw [heq]
        exact h

theorem ngxQjsDictDelete_effect (c : Conf) (now : Msec) (z : Zone ν) (key : Bytes) (retval : Bool) :
    Effect c now z (ngxQjsDictDelete c key retval now z).1 := by
  unfold ngxQjsDictDelete
  split
  · exact .same
  · next a hkey => exact .delete hkey

theorem ngxQjsDictIncr_effect (c : Conf) (now : Msec) (z : Zone ν) (cstring : Bool) (key :
    Bytes) (delta init : ν)
    (timeout : Msec) :
    Effect c now z (ngxQjsDictIncr c cstring key delta init timeout now z).1 := by
  unfold ngxQjsDictIncr
  split
  · next hkey =>
    simp only
    cases hv : qjsToValue c cstring (.number (Env.add init delta)) with
    | none =>
      simp only [ngxQjsDictAdd, hv]
      exact .same
    | some value =>
      rw [qjsAdd_eq hv]
      obtain ⟨z', heq, h⟩ | ⟨z', heq, h⟩ :=
        Effect.of_addValue c now hkey value (if timeout ≠ 0 then timeout else c.timeout) <;>
      · rw [heq]
        exact h
  · next a hkey => exact .incr hkey _ timeout

theorem qjsCall_effect (c : Conf) (now : Msec) (z : Zone ν) (cstring : Bool) (call : Call ν) :
    Effect c now z (qjsCall c cstring now call z).1 := by
  cases call with
  | get | has | ttl | keys | items | size => exact .same
  | set flags key value timeo =>
    rw [qjsCall, ngxQjsExtSharedDictSet]
    split
    · exact .same
    · next timeout _ =>
      have h := ngxQjsDictSet_effect c now z cstring key value timeout.toUInt64 flags
      split <;> next heq => rwa [heq] at h
  | incr key delta init timeo =>
    rw [qjsCall, ngxQjsExtSharedDictIncr]
    split
    · exact .same
    · exact ngxQjsDictIncr_effect c now z cstring key _ _ _
  | delete key => exact ngxQjsDictDelete_effect c now z key false
  | pop key => exact ngxQjsDictDelete_effect c now z key true
  | clear => exact .clear

end Njs.SharedDict
