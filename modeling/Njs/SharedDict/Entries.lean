import Njs.SharedDict.Invariant
import Mathlib.Data.List.TakeWhile

/-!
# The entries of a zone

What a zone means to its users: a key has a value and an expiry time. `entries` reads them off
the nodes of the main tree, `live` keeps those that have not expired. The lemmas say what the
sweeps, the insertion and the update do to them.
-/

namespace Njs.SharedDict

variable {ν : Type} {c : Conf} {z z' : Zone ν} {now : Msec}

/-- A key, its value and its expiry time. -/
@[ext] structure Entry (ν : Type) where
  key : Bytes
  value : Value ν
  expire : Msec
  deriving DecidableEq

def entry (c : Conf) (z : Zone ν) (a : Addr) : Entry ν where
  key := (z.node a).key
  value := nodeValue c z a
  expire := (z.node a).expire

def entries (c : Conf) (z : Zone ν) : List (Entry ν) :=
  z.rbtree.map (entry c z)

/-- An entry that has not expired; in a zone without timeout no entry expires. -/
def Entry.isLive (c : Conf) (now : Msec) (e : Entry ν) : Bool :=
  c.timeout = 0 || now < e.expire

/-- The entries that have not expired. -/
def live (c : Conf) (now : Msec) (z : Zone ν) : List (Entry ν) :=
  (entries c z).filter (Entry.isLive c now)

@[simp] theorem entry_key (c : Conf) (z : Zone ν) (a : Addr) :
    (entry c z a).key = (z.node a).key := rfl

@[simp] theorem entry_expire (c : Conf) (z : Zone ν) (a : Addr) :
    (entry c z a).expire = (z.node a).expire := rfl

variable {e : Entry ν} {a : Addr} {l : List Addr}

theorem mem_entries : e ∈ entries c z ↔ ∃ a ∈ z.rbtree, entry c z a = e :=
  List.mem_map

theorem mem_live : e ∈ live c now z ↔ e ∈ entries c z ∧ e.isLive c now = true :=
  List.mem_filter

theorem isLive_entry (c : Conf) (now : Msec) (z : Zone ν) (a : Addr) :
    (entry c z a).isLive c now = !isExpired c now z a := by
  change (decide (c.timeout = 0) || decide (now < (z.node a).expire)) = _
  rw [Bool.eq_iff_iff]
  simp only [isExpired, Bool.or_eq_true, decide_eq_true_eq, Bool.not_eq_true',
    Bool.and_eq_false_iff,
    decide_eq_false_iff_not, not_not, ge_iff_le, UInt64.not_le]

theorem entry_congr (hnode : z'.node a = z.node a)
    (hbuf : z'.buf (z.node a).str = z.buf (z.node a).str) : entry c z' a = entry c z a := by
  simp only [entry, nodeValue, hnode]
  cases c.type <;> simp [hbuf]

theorem Dropped.entry_eq (h : Dropped z z' l) (a : Addr) : entry c z' a = entry c z a :=
  entry_congr (by rw [h.node]) (by rw [h.buf])

/-! ### Lookup -/

theorem Inv.eq_of_key (h : Inv c z [] []) {b : Addr} (ha : a ∈ z.rbtree) (hb : b ∈ z.rbtree)
    (hkey : (z.node a).key = (z.node b).key) : a = b :=
  List.inj_on_of_nodup_map h.keys ha hb hkey

theorem Inv.entry_eq_of_key (h : Inv c z [] []) {e' : Entry ν} (he : e ∈ entries c z)
    (he' : e' ∈ entries c z) (hkey : e.key = e'.key) : e = e' := by
  obtain ⟨a, ha, rfl⟩ := mem_entries.mp he
  obtain ⟨b, hb, rfl⟩ := mem_entries.mp he'
  rw [h.eq_of_key ha hb hkey]

theorem key_ne_of_lookup_none {key : Bytes} (h : ngxJsDictLookup z key = none)
    (he : e ∈ entries c z) : e.key ≠ key := by
  obtain ⟨a, ha, rfl⟩ := mem_entries.mp he
  exact lookup_eq_none.mp h a ha

theorem Inv.lookup_eq (h : Inv c z [] []) (ha : a ∈ z.rbtree) :
    ngxJsDictLookup z (z.node a).key = some a := by
  cases hkey : ngxJsDictLookup z (z.node a).key with
  | none => exact absurd rfl (lookup_eq_none.mp hkey a ha)
  | some b =>
    obtain ⟨hb, hk⟩ := lookup_eq_some hkey
    rw [h.eq_of_key hb ha hk]

/-! ### Sweeps -/

theorem Dropped.mem_rbtree (h : Dropped z z' l) (hn : z.rbtree.Nodup) :
    a ∈ z'.rbtree ↔ a ∈ z.rbtree ∧ a ∉ l := by
  rw [h.rbtree, hn.mem_sdiff_iff]

theorem mem_entries_dropped (h : Dropped z z' l) (hn : z.rbtree.Nodup) :
    e ∈ entries c z' ↔ ∃ a ∈ z.rbtree, a ∉ l ∧ entry c z a = e := by
  simp only [mem_entries, h.mem_rbtree hn, h.entry_eq, and_assoc]

theorem exists_and_not_expired (hl : ∀ a ∈ l, isExpired c now z a = true)
    (hlive : e.isLive c now = true) :
    (∃ a ∈ z.rbtree, a ∉ l ∧ entry c z a = e) ↔ ∃ a ∈ z.rbtree, entry c z a = e := by
  refine exists_congr fun a => and_congr_right fun _ => and_iff_right_of_imp ?_
  rintro rfl hal
  rw [isLive_entry, hl a hal] at hlive
  exact absurd hlive (by decide)

theorem mem_live_dropped (h : Dropped z z' l) (hn : z.rbtree.Nodup)
    (hl : ∀ a ∈ l, isExpired c now z a = true) : e ∈ live c now z' ↔ e ∈ live c now z := by
  rw [mem_live, mem_live, mem_entries_dropped h hn, mem_entries]
  exact and_congr_left fun hlive => exists_and_not_expired hl hlive

theorem expired_of_mem_takeWhile (ht : c.timeout ≠ 0)
    (ha : a ∈ l.takeWhile fun a => (z.node a).expire ≤ now) : isExpired c now z a = true := by
  have := List.mem_takeWhile_imp ha
  simpa [isExpired, ht] using this

/-- The sweep of `ngx_js_dict_add_value` drops expired nodes only. -/
theorem swept_sweepFirst (c : Conf) (now : Msec) (z : Zone ν) :
    ∃ l, Swept z (sweepFirst c now z) l ∧ ∀ a ∈ l, isExpired c now z a = true := by
  rw [sweepFirst]
  split
  · next ht => exact ⟨_, swept_expire c now z, fun _ ha => expired_of_mem_takeWhile ht ha⟩
  · exact ⟨[], .refl z, by simp⟩

/-! ### Writing one entry -/

/-- The expiry time that `setExpire` leaves in a node. -/
def newExpire (c : Conf) (z : Zone ν) (a : Addr) (timeout now : Msec) : Msec :=
  if c.timeout ≠ 0 then now + timeout else (z.node a).expire

theorem setExpire_rbtree (c : Conf) (a : Addr) (timeout now : Msec) (z : Zone ν) :
    (setExpire c a timeout now z).rbtree = z.rbtree := by
  rw [setExpire]
  split <;> rfl

theorem entry_setExpire_self (c : Conf) (a : Addr) (timeout now : Msec) (z : Zone ν) :
    entry c (setExpire c a timeout now z) a =
      { entry c z a with expire := newExpire c z a timeout now } := by
  rw [setExpire, newExpire]
  split
  · simp [entry, nodeValue]
  · rfl

theorem entry_setExpire_of_ne {b : Addr} (hne : b ≠ a) (timeout now : Msec) (z : Zone ν) :
    entry c (setExpire c a timeout now z) b = entry c z b := by
  rw [setExpire]
  split
  · exact entry_congr (by simp [Function.update_of_ne hne]) rfl
  · rfl

theorem mem_entries_setExpire (ha : a ∈ z.rbtree) (timeout now : Msec) :
    e ∈ entries c (setExpire c a timeout now z) ↔
      e = { entry c z a with expire := newExpire c z a timeout now } ∨
        ∃ b ∈ z.rbtree, b ≠ a ∧ entry c z b = e := by
  rw [mem_entries, setExpire_rbtree]
  constructor
  · rintro ⟨b, hb, rfl⟩
    by_cases hba : b = a
    · rw [hba, entry_setExpire_self]
      exact .inl rfl
    · exact .inr ⟨b, hb, hba, (entry_setExpire_of_ne hba timeout now z).symm⟩
  · rintro (rfl | ⟨b, hb, hba, rfl⟩)
    · exact ⟨a, ha, entry_setExpire_self c a timeout now z⟩
    · exact ⟨b, hb, entry_setExpire_of_ne hba timeout now z⟩

theorem mem_entries_linkNode [Env ν] (ha : a ∉ z.rbtree) (key : Bytes) (timeout now : Msec) :
    e ∈ entries c (linkNode c a key timeout now z) ↔
      e = ⟨key, nodeValue c z a, newExpire c z a timeout now⟩ ∨ e ∈ entries c z := by
  set z₁ := (z.setNode a { z.node a with key := key }).insertTree a
  have hmem : ∀ b, b ∈ z₁.rbtree ↔ b = a ∨ b ∈ z.rbtree := fun b =>
    (List.perm_orderedInsert _ _ _).mem_iff.trans List.mem_cons
  have hself : entry c z₁ a = { entry c z a with key := key } := by
    simp [z₁, entry, nodeValue]
  have hother : ∀ b, b ≠ a → entry c z₁ b = entry c z b := fun b hne =>
    entry_congr (by simp [z₁, hne]) rfl
  have hexp : newExpire c z₁ a timeout now = newExpire c z a timeout now := by
    simp [z₁, newExpire]
  rw [linkNode, mem_entries_setExpire ((hmem a).mpr (.inl rfl)), hself, hexp, mem_entries]
  refine or_congr Iff.rfl (exists_congr fun b => ?_)
  constructor
  · rintro ⟨hb, hne, rfl⟩
    exact ⟨((hmem b).mp hb).resolve_left hne, (hother b hne).symm⟩
  · rintro ⟨hb, rfl⟩
    have hne : b ≠ a := by
      rintro rfl
      exact ha hb
    exact ⟨(hmem b).mpr (.inr hb), hne, hother b hne⟩

/-! ### Reading -/

def liveFind (c : Conf) (now : Msec) (z : Zone ν) (key : Bytes) : Option (Entry ν) :=
  (live c now z).find? fun e => e.key = key

theorem liveFind_eq_some {key : Bytes} (h : liveFind c now z key = some e) :
    e ∈ live c now z ∧ e.key = key :=
  ⟨List.mem_of_find?_eq_some h, by simpa using List.find?_some h⟩

theorem liveFind_eq_none {key : Bytes} :
    liveFind c now z key = none ↔ ∀ e ∈ live c now z, e.key ≠ key := by
  simp [liveFind, List.find?_eq_none]

theorem Inv.liveFind_eq (h : Inv c z [] []) (now : Msec) (key : Bytes) : liveFind c now z key =
      match ngxJsDictLookup z key with
      | none => none
      | some a => if isExpired c now z a then none else some (entry c z a) := by
  cases hfind : liveFind c now z key with
  | none =>
    cases hkey : ngxJsDictLookup z key with
    | none => rfl
    | some a =>
      obtain ⟨ha, hk⟩ := lookup_eq_some hkey
      have hnot : (entry c z a).isLive c now ≠ true := fun hlive =>
        liveFind_eq_none.mp hfind _ (mem_live.mpr ⟨mem_entries.mpr ⟨a, ha, rfl⟩, hlive⟩) hk
      rw [isLive_entry] at hnot
      have hexp : isExpired c now z a = true := by simpa using hnot
      simp [hexp]
  | some e =>
    obtain ⟨he, hk⟩ := liveFind_eq_some hfind
    obtain ⟨hmem, hlive⟩ := mem_live.mp he
    obtain ⟨a, ha, rfl⟩ := mem_entries.mp hmem
    rw [isLive_entry] at hlive
    have hexp : isExpired c now z a = false := by simpa using hlive
    rw [← hk, entry_key, h.lookup_eq ha]
    simp [hexp]

/-- `get()` reads the live entry of the key. -/
theorem Inv.get_eq (h : Inv c z [] []) (key : Bytes) : ngxJsDictGet c key now z =
      match liveFind c now z key with
      | none => .undefined
      | some e => e.value.toJs := by
  rw [h.liveFind_eq, ngxJsDictGet]
  cases ngxJsDictLookup z key with
  | none => rfl
  | some a => by_cases hexp : isExpired c now z a = true <;> simp [hexp, entry,
      ngxJsDictCopyValueLocked]

theorem Inv.has_eq (h : Inv c z [] []) (key : Bytes) : njsJsExtSharedDictHas c now key z =
      .ok (.boolean (liveFind c now z key).isSome) := by
  rw [h.liveFind_eq, njsJsExtSharedDictHas]
  cases ngxJsDictLookup z key with
  | none => rfl
  | some a => by_cases hexp : isExpired c now z a = true <;> simp [hexp]

theorem Inv.ttl_eq [Env ν] (h : Inv c z [] []) (key : Bytes) : njsJsExtSharedDictTtl c now key z =
      if c.timeout = 0 then throwTypeError "shared dict must be declared with timeout"
      else
        match liveFind c now z key with
        | none => .ok .undefined
        | some e => .ok (.number (Env.ofInt (e.expire - now).toNat)) := by
  rw [h.liveFind_eq, njsJsExtSharedDictTtl]
  split
  · rfl
  next ht =>
  cases ngxJsDictLookup z key with
  | none => rfl
  | some a =>
    by_cases hlt : now < (z.node a).expire
    · have hexp : isExpired c now z a = false := by simpa [isExpired, ht] using hlt
      simp [hlt, hexp]
    · have hexp : isExpired c now z a = true := by simpa [isExpired, ht] using hlt
      simp [hlt, hexp]

/-- The first elements of a list, all of them for a negative count. -/
def limit {α : Type} : List α → ℤ → List α
  | [], _ => []
  | a :: l, count => if count = 0 then [] else a :: limit l (count - 1)

/-- `keys()` and `items()` list live entries in the order of the main tree. -/
theorem collect_eq {β : Type} (c : Conf) (now : Msec) (z : Zone ν) (g : Entry ν → β)
    (l : List Addr) (count : ℤ) :
    collect c now z (fun a => g (entry c z a)) l count =
      limit (((l.map (entry c z)).filter (Entry.isLive c now)).map g) count := by
  induction l generalizing count with
  | nil => rfl
  | cons a l ih =>
    rw [collect, List.map_cons, List.filter_cons, isLive_entry]
    by_cases hexp : isExpired c now z a = true
    · simp only [hexp, if_true, Bool.not_true, Bool.false_eq_true, if_false]
      exact ih count
    · simp only [hexp, if_false, Bool.false_eq_true, Bool.not_false, if_true, List.map_cons,
        limit, ih]

/-- `size()` counts the live entries. -/
theorem liveCount_eq (c : Conf) (now : Msec) (z : Zone ν) :
    liveCount c now z = (live c now z).length := by
  rw [liveCount, live, entries, List.filter_map, List.length_map, List.countP_eq_length_filter]
  refine congrArg List.length (List.filter_congr fun a _ => ?_)
  exact (isLive_entry c now z a).symm

end Njs.SharedDict
