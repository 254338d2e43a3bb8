import Njs.SharedDict.StateReader

/-!
# The state file round trip

The loader inserts the entries that it reads with `now` equal to 1, so that the insertion adds
one millisecond to the expiry time that it is handed. A zone survives being written and loaded
when it has no timeout, or when every expiry time is read as one millisecond less, which
`strtod` does not do below `2 ^ 53`.
-/

namespace Njs.SharedDict

variable {c : Conf} {now : Msec} {z z' : Zone JsNumber} {strtod : Strtod}

/-- What an entry means to the users of a zone; without timeout there is no expiry time. -/
def Entry.seen (c : Conf) (e : Entry JsNumber) : Bytes × Value JsNumber × Option Msec :=
  (e.key, e.value, if c.timeout ≠ 0 then some e.expire else none)

/-- Writing a zone and loading the file into another one at the same time succeeds and leaves
there exactly the entries that were live. -/
def RoundTrip (strtod : Strtod) (c : Conf) (junk : ℕ → ParsedEntry) (now : Msec)
    (z z₀ : Zone JsNumber) : Prop :=
  ∃ file z', ngxJsDictRenderJson c now z = some file ∧
    ngxJsDictLoad strtod c junk now (some file) z₀ = (z', .ok) ∧
    ∀ x, x ∈ (entries c z').map (Entry.seen c) ↔ x ∈ (live c now z).map (Entry.seen c)

/-! ### Inserting one entry -/

theorem linkNode_slab (c : Conf) (a : Addr) (key : Bytes) (timeout now : Msec) (z : Zone JsNumber) :
    (linkNode c a key timeout now z).slab = z.slab ∧
      (linkNode c a key timeout now z).chunks = z.chunks := by
  rw [linkNode, setExpire]
  split <;> exact ⟨rfl, rfl⟩

theorem addValue_load {k : ℕ} (h : Inv c z [] []) (hm : Serves (k + 2) z.slab z.chunks)
    {key : Bytes} (hkey : ngxJsDictLookup z key = none) (value : Value JsNumber)
    (expire : Msec) :
    ∃ z', ngxJsDictAddValue c key value expire 1 z = (z', .ok) ∧ Inv c z' [] [] ∧
      Serves k z'.slab z'.chunks ∧
      (∀ e ∈ entries c z', e ∈ entries c z ∨ e.seen c =
        (key, storedValue c value, if c.timeout ≠ 0 then some (1 + expire) else none)) ∧
      (∃ e ∈ entries c z', e.seen c =
        (key, storedValue c value, if c.timeout ≠ 0 then some (1 + expire) else none)) ∧
      ∀ e ∈ entries c z, e.isLive c 1 = true → e ∈ entries c z' := by
  obtain ⟨z₁, a, l, heq, ha, hvalue, hexp, hmem, hserves⟩ :=
    addValue_ample h (hm.mono (by omega) (List.Subset.refl _)).ample key value 1
  have hinv := h.addValue (lookup_eq_none.mp hkey) value expire 1
  have hseen : ∀ e : Entry JsNumber, e = ⟨key, nodeValue c z₁ a, newExpire c z₁ a expire 1⟩ →
      e.seen c = (key, storedValue c value, if c.timeout ≠ 0 then some (1 + expire) else none) := by
    rintro e rfl
    rw [Entry.seen, hvalue, newExpire]
    split <;> rfl
  obtain ⟨hslab, hchunks⟩ := linkNode_slab c a key expire 1 z₁
  refine ⟨_, heq expire, ?_, ?_, fun e he => ?_, ?_, fun e he hlive => ?_⟩
  · rwa [heq expire] at hinv
  · rw [hslab, hchunks]
    exact hserves k hm
  · obtain he | he := (mem_entries_linkNode ha key expire 1).mp he
    · exact .inr (hseen e he)
    · obtain ⟨b, hb, -, rfl⟩ := (hmem e).mp he
      exact .inl (mem_entries.mpr ⟨b, hb, rfl⟩)
  · exact ⟨_, (mem_entries_linkNode ha key expire 1).mpr (.inl rfl), hseen _ rfl⟩
  · refine (mem_entries_linkNode ha key expire 1).mpr (.inr ((hmem e).mpr ?_))
    exact (exists_and_not_expired hexp hlive).mpr (mem_entries.mp he)

/-! ### Loading a list of entries -/

def loaded (c : Conf) (e : ParsedEntry) (expire : Msec) : Bytes × Value JsNumber × Option Msec :=
  (e.key, storedValue c e.value, if c.timeout ≠ 0 then some (1 + expire) else none)

theorem loadEntries_sound {l : List ParsedEntry} (h : Inv c z [] [])
    (hm : Serves (2 * l.length) z.slab z.chunks) (hload : loadEntries c now l z = (z', .ok)) :
    ∀ e ∈ entries c z', e ∈ entries c z ∨
      ∃ p ∈ l, ∃ expire d, loadExpire c now p.expire = some (expire, d) ∧
        e.seen c = loaded c p expire := by
  induction l generalizing z with
  | nil =>
    obtain rfl : z = z' := congrArg Prod.fst hload
    exact fun e he => .inl he
  | cons p l ih =>
    have hlen : 2 * (p :: l).length = 2 * l.length + 2 := by simp [Nat.mul_add]
    rw [hlen] at hm
    rw [loadEntries] at hload
    -- Both branches of the loader leave the entries alone before the insertion.
    have hdirty : ∀ d : Bool, Inv c (if d then setDirty z else z) [] [] ∧
        entries c (if d then setDirty z else z) = entries c z ∧
        Serves (2 * l.length + 2) (if d then setDirty z else z).slab
          (if d then setDirty z else z).chunks := by
      rintro (_ | _)
      · exact ⟨h, rfl, hm⟩
      · exact ⟨h.congr rfl rfl rfl rfl, rfl, hm⟩
    cases hexp : loadExpire c now p.expire with
    | none =>
      simp only [hexp] at hload
      intro e he
      obtain hin | ⟨q, hq, hrest⟩ := ih (hdirty true).1
        ((hdirty true).2.2.mono (by omega) (List.Subset.refl _)) hload e he
      · exact .inl hin
      · exact .inr ⟨q, List.mem_cons_of_mem _ hq, hrest⟩
    | some r =>
      obtain ⟨expire, d⟩ := r
      obtain ⟨hinv, hentries, hserves⟩ := hdirty d
      simp only [hexp] at hload
      generalize (if d then setDirty z else z) = w at hload hinv hentries hserves
      by_cases hkey : ngxJsDictLookup w p.key = none
      · obtain ⟨z₁, heq, hinv₁, hserves₁, hsub, -⟩ :=
          addValue_load hinv hserves hkey p.value expire
        rw [if_neg (by simpa using hkey), heq] at hload
        intro e he
        obtain hin | ⟨q, hq, hrest⟩ := ih hinv₁ hserves₁ hload e he
        · obtain hin | hnew := hsub e hin
          · exact .inl (hentries ▸ hin)
          · exact .inr ⟨p, List.mem_cons_self, expire, d, hexp, hnew⟩
        · exact .inr ⟨q, List.mem_cons_of_mem _ hq, hrest⟩
      · rw [if_pos hkey] at hload
        simp at hload

theorem lookup_eq_none_iff_entries {key : Bytes} :
    ngxJsDictLookup z key = none ↔ ∀ e ∈ entries c z, e.key ≠ key := by
  refine ⟨fun h e he => key_ne_of_lookup_none h he, fun h => lookup_eq_none.mpr fun a ha => ?_⟩
  exact h _ (mem_entries.mpr ⟨a, ha, rfl⟩)

theorem loadEntries_complete {l : List ParsedEntry} (h : Inv c z [] [])
    (hm : Serves (2 * l.length) z.slab z.chunks) (hkeys : (l.map ParsedEntry.key).Nodup)
    (hfresh : ∀ p ∈ l, ∀ e ∈ entries c z, e.key ≠ p.key) :
    ∃ z', loadEntries c now l z = (z', .ok) ∧
      (∀ e ∈ entries c z, e.isLive c 1 = true → e ∈ entries c z') ∧
      ∀ p ∈ l, ∀ expire d, loadExpire c now p.expire = some (expire, d) →
        (c.timeout ≠ 0 → 1 < 1 + expire) → ∃ e ∈ entries c z', e.seen c = loaded c p expire := by
  induction l generalizing z with
  | nil => exact ⟨z, rfl, fun _ he _ => he, by simp⟩
  | cons p l ih =>
    have hlen : 2 * (p :: l).length = 2 * l.length + 2 := by simp [Nat.mul_add]
    rw [hlen] at hm
    rw [List.map_cons, List.nodup_cons] at hkeys
    cases hload : loadExpire c now p.expire with
    | none =>
      obtain ⟨z', hz', hkeep, hall⟩ := ih (z := setDirty z) (h.congr rfl rfl rfl rfl)
        (hm.mono (by omega) (List.Subset.refl _)) hkeys.2
        (fun q hq => hfresh q (List.mem_cons_of_mem _ hq))
      refine ⟨z', ?_, hkeep, fun q hq expire' d' hload' => ?_⟩
      · rw [loadEntries, hload]
        exact hz'
      · obtain rfl | hq := List.mem_cons.mp hq
        · rw [hload] at hload'
          exact absurd hload' (by simp)
        · exact hall q hq expire' d' hload'
    | some r =>
      obtain ⟨expire, d⟩ := r
      obtain ⟨w, hw, hinv, hentries, hserves⟩ : ∃ w, (if d then setDirty z else z) = w ∧
          Inv c w [] [] ∧ entries c w = entries c z ∧
          Serves (2 * l.length + 2) w.slab w.chunks := by
        cases d with
        | false => exact ⟨z, rfl, h, rfl, hm⟩
        | true => exact ⟨setDirty z, rfl, h.congr rfl rfl rfl rfl, rfl, hm⟩
      have hkey : ngxJsDictLookup w p.key = none := by
        rw [lookup_eq_none_iff_entries (c := c), hentries]
        exact hfresh p List.mem_cons_self
      obtain ⟨z₁, heq, hinv₁, hserves₁, hsub, ⟨new, hnew, hseen⟩, hold⟩ :=
        addValue_load hinv hserves hkey p.value expire
      rw [hentries] at hsub hold
      have hfresh₁ : ∀ q ∈ l, ∀ e ∈ entries c z₁, e.key ≠ q.key := by
        intro q hq e he
        obtain hin | hseen := hsub e he
        · exact hfresh q (List.mem_cons_of_mem _ hq) e hin
        · have hk : e.key = p.key := congrArg Prod.fst hseen
          rw [hk]
          rintro heq
          exact hkeys.1 (heq ▸ List.mem_map_of_mem hq)
      have hnewlive : (c.timeout ≠ 0 → 1 < 1 + expire) → new.isLive c 1 = true := by
        intro hlt
        by_cases ht : c.timeout = 0
        · simp [Entry.isLive, ht]
        · have hexpire : new.expire = 1 + expire := by
            simpa [Entry.seen, ht] using congrArg (fun x => x.2.2) hseen
          simp [Entry.isLive, hexpire, hlt ht]
      obtain ⟨z', hz', hsub', hall⟩ := ih hinv₁ hserves₁ hkeys.2 hfresh₁
      refine ⟨z', ?_, fun e he hlive => hsub' e (hold e he hlive) hlive,
        fun q hq expire' d' hload' hlt => ?_⟩
      · rw [loadEntries, hload]
        simp only
        rw [hw, if_neg (by simpa using hkey), heq]
        exact hz'
      · obtain rfl | hq := List.mem_cons.mp hq
        · rw [hload] at hload'
          cases hload'
          exact ⟨new, hsub' new hnew (hnewlive hlt), hseen⟩
        · exact hall q hq expire' d' hload' hlt

/-! ### Loading the file of a zone -/

theorem map_key_parsedEntries (strtod : Strtod) (c : Conf) (now : Msec) (z : Zone JsNumber)
    (v : Addr → Value JsNumber) (junk : ℕ → ParsedEntry) (l : List Addr) :
    (parsedEntries strtod c now z v junk l).map ParsedEntry.key =
      ((l.map (entry c z)).filter (Entry.isLive c now)).map Entry.key := by
  induction l generalizing junk with
  | nil => rfl
  | cons rn next ih =>
    rw [parsedEntries, List.map_cons, List.filter_cons, isLive_entry]
    by_cases hexp : isExpired c now z rn = true
    · simp only [hexp, if_true, Bool.not_true, Bool.false_eq_true, if_false]
      exact ih junk
    · simp only [hexp, if_false, Bool.false_eq_true, Bool.not_false, if_true, List.map_cons, ih,
        entry_key]

theorem Inv.nodup_parsed (h : Inv c z [] []) (v : Addr → Value JsNumber) (junk : ℕ → ParsedEntry) :
    ((parsedEntries strtod c now z v junk z.rbtree).map ParsedEntry.key).Nodup := by
  rw [map_key_parsedEntries]
  refine List.Nodup.sublist (List.Sublist.map _ List.filter_sublist) ?_
  rw [List.map_map]
  exact h.keys

theorem length_parsedEntries (v : Addr → Value JsNumber) (junk : ℕ → ParsedEntry) :
    (parsedEntries strtod c now z v junk z.rbtree).length = (live c now z).length := by
  have := congrArg List.length (map_key_parsedEntries strtod c now z v junk z.rbtree)
  rwa [List.length_map, List.length_map] at this

theorem exists_parsedEntry (strtod : Strtod) (c : Conf) (v : Addr → Value JsNumber)
    {l : List Addr} {a : Addr} (ha : a ∈ l) (hlive : isExpired c now z a = false)
    (junk : ℕ → ParsedEntry) :
    ∃ p ∈ parsedEntries strtod c now z v junk l, p.key = (z.node a).key ∧ p.value = v a ∧
      (c.timeout ≠ 0 → p.expire = readTime strtod (z.node a).expire) := by
  induction l generalizing junk with
  | nil => simp at ha
  | cons rn next ih =>
    rw [parsedEntries]
    obtain rfl | ha := List.mem_cons.mp ha
    · rw [if_neg (by simp [hlive])]
      exact ⟨_, List.mem_cons_self, rfl, rfl, fun ht => if_pos ht⟩
    · split
      · exact ih ha junk
      · obtain ⟨p, hp, hrest⟩ := ih ha fun i => junk (i + 1)
        exact ⟨p, List.mem_cons_of_mem _ hp, hrest⟩

/-- The expiry time is read as a time that the loader makes the same expiry time of: as one
millisecond less, or as zero where the zone's own timeout happens to give it. -/
def ReadBefore (strtod : Strtod) (c : Conf) (now expire : Msec) : Prop :=
  (readTime strtod expire ≠ 0 ∧ now < readTime strtod expire ∧
    1 + readTime strtod expire = expire) ∨
  (readTime strtod expire = 0 ∧ 1 + (now + c.timeout) = expire)

theorem readBefore_iff (ht : c.timeout ≠ 0) (expire : Msec) : ReadBefore strtod c now expire ↔
      ∃ x d, loadExpire c now (readTime strtod expire) = some (x, d) ∧ 1 + x = expire := by
  rw [ReadBefore, loadExpire, if_pos ht]
  generalize readTime strtod expire = m
  by_cases hm : m = 0
  · simp [hm]
  · by_cases hlt : now < m
    · have hge : ¬ now ≥ m := by simpa using hlt
      simp [hm, hlt]
    · have hge : now ≥ m := by simpa using hlt
      simp [hm, hlt]

/-- Up to `2 ^ 53` an expiry time is read as it is, so that the loader delays it. -/
theorem not_readBefore (hlt : now < expire) (hle : expire.toNat ≤ 2 ^ 53) :
    ¬ ReadBefore strtod c now expire := by
  have hread : readTime strtod expire = expire := by
    rw [readTime, strtod.toMsec_round _ hle, UInt64.ofNat_toNat]
  have hpos : expire ≠ 0 := by
    rintro rfl
    simp at hlt
  rw [ReadBefore, hread]
  rintro (⟨-, -, h⟩ | ⟨h, -⟩)
  · simp at h
  · exact hpos h

/-- A node whose key can be written and whose value is read back as it is. -/
def LoadsBack (strtod : Strtod) (c : Conf) (z : Zone JsNumber) (a : Addr) (text : Bytes) : Prop :=
  EncodedText (z.node a).key ∧ renderValue c z a = some (valueMember ++ text) ∧
    Readable strtod c text (nodeValue c z a)

theorem storedValue_nodeValue (c : Conf) (z : Zone JsNumber) (a : Addr) :
    storedValue c (nodeValue c z a) = nodeValue c z a := by
  simp only [storedValue, nodeValue]
  cases c.type <;> rfl

theorem roundTrip_iff_loadEntries (hfile : c.stateFile = true) {text : Addr → Bytes}
    (hback : ∀ a ∈ z.rbtree, isExpired c now z a = false → LoadsBack strtod c z a (text a))
    (junk : ℕ → ParsedEntry) (z₀ : Zone JsNumber) :
    RoundTrip strtod c junk now z z₀ ↔
      ∃ z', loadEntries c now (parsedEntries strtod c now z (nodeValue c z) junk z.rbtree) z₀ =
        (z', .ok) ∧
        ∀ x, x ∈ (entries c z').map (Entry.seen c) ↔ x ∈ (live c now z).map (Entry.seen c) := by
  have hrender := renderJson_eq (fun a ha hlive => (hback a ha hlive).1)
    fun a ha hlive => (hback a ha hlive).2.1
  have hparse := parseState_fileText (fun a ha hlive => (hback a ha hlive).2.2) junk
  have hload : ngxJsDictLoad strtod c junk now (some (stateText c now z text)) z₀ =
      loadEntries c now (parsedEntries strtod c now z (nodeValue c z) junk z.rbtree) z₀ := by
    rw [ngxJsDictLoad, if_neg (by simp [hfile])]
    simp only [if_neg (stateText_ne_nil c now z text), hparse]
  constructor
  · rintro ⟨file, z', hfile', hz', hset⟩
    rw [hrender] at hfile'
    cases hfile'
    exact ⟨z', hload ▸ hz', hset⟩
  · rintro ⟨z', hz', hset⟩
    exact ⟨_, z', hrender, hload ▸ hz', hset⟩

theorem roundTrip_iff_of_loadsBack (hfile : c.stateFile = true) (h : Inv c z [] [])
    {text : Addr → Bytes}
    (hback : ∀ a ∈ z.rbtree, isExpired c now z a = false → LoadsBack strtod c z a (text a))
    (junk : ℕ → ParsedEntry) (n : Node JsNumber) {slab : List (ℕ → Option Addr)}
    (hm : Serves (2 * (live c now z).length) slab []) :
    RoundTrip strtod c junk now z ((Zone.init n).withSlab slab) ↔
      c.timeout = 0 ∨ ∀ e ∈ live c now z, ReadBefore strtod c now e.expire := by
  rw [roundTrip_iff_loadEntries hfile hback]
  set l := parsedEntries strtod c now z (nodeValue c z) junk z.rbtree with hl
  have hinv₀ : Inv c ((Zone.init n).withSlab slab) [] [] := (Inv.init c n).withSlab slab
  have hm₀ : Serves (2 * l.length) ((Zone.init n).withSlab slab).slab
      ((Zone.init n).withSlab slab).chunks := by
    rw [hl, length_parsedEntries]
    exact hm
  have hlive : ∀ a, isExpired c now z a = false ↔ (entry c z a).isLive c now = true := fun a => by
    rw [isLive_entry]
    simp
  constructor
  · rintro ⟨z', hload, hset⟩
    by_cases ht : c.timeout = 0
    · exact .inl ht
    refine .inr fun e he => (readBefore_iff ht e.expire).mpr ?_
    obtain ⟨e', he', hseen⟩ := List.mem_map.mp ((hset _).mpr (List.mem_map_of_mem he))
    obtain hin | ⟨p, hp, x, d, hx, hloaded⟩ := loadEntries_sound hinv₀ hm₀ hload e' he'
    · exact absurd hin List.not_mem_nil
    rw [hloaded] at hseen
    obtain ⟨a, ha, -, hkey, -, hexpire⟩ := mem_parsedEntries hp
    have hek : (entry c z a).key = e.key := hkey.symm.trans (congrArg Prod.fst hseen)
    obtain rfl := h.entry_eq_of_key (mem_entries.mpr ⟨a, ha, rfl⟩) (mem_live.mp he).1 hek
    refine ⟨x, d, by rw [← hx, hexpire ht]; rfl, ?_⟩
    simpa [loaded, Entry.seen, ht] using congrArg (fun x => x.2.2) hseen
  · intro hcond
    have hexp : ∀ p ∈ l, ∃ expire d, loadExpire c now p.expire = some (expire, d) ∧
        (c.timeout ≠ 0 → 1 < 1 + expire) := by
      intro p hp
      by_cases ht : c.timeout = 0
      · exact ⟨0, false, by simp [loadExpire, ht], fun hne => absurd ht hne⟩
      obtain ⟨a, ha, halive, -, -, hexpire⟩ := mem_parsedEntries hp
      have hmem := mem_live.mpr ⟨mem_entries.mpr ⟨a, ha, rfl⟩, (hlive a).mp halive⟩
      have hread := hcond.resolve_left ht _ hmem
      have hlt : now < (entry c z a).expire := by
        have := (hlive a).mp halive
        rw [Entry.isLive, decide_eq_false ht, Bool.false_or] at this
        exact of_decide_eq_true this
      have hbig : ¬ (entry c z a).expire.toNat ≤ 2 ^ 53 := fun hle => not_readBefore hlt hle hread
      obtain ⟨x, d, hx, hsucc⟩ := (readBefore_iff ht _).mp hread
      refine ⟨x, d, by rw [hexpire ht]; exact hx, fun _ => ?_⟩
      rw [hsucc, UInt64.lt_iff_toNat_lt]
      change 1 < _
      omega
    obtain ⟨z', hload, -, hall⟩ := loadEntries_complete hinv₀ hm₀ (h.nodup_parsed _ _)
      fun p _ e he => absurd he List.not_mem_nil
    refine ⟨z', hload, fun x => ?_⟩
    -- What the loader makes of a node is what the users of the zone saw of it.
    have hsame : ∀ a ∈ z.rbtree, isExpired c now z a = false → ∀ p : ParsedEntry,
        p.key = (z.node a).key → p.value = nodeValue c z a →
        (c.timeout ≠ 0 → p.expire = readTime strtod (z.node a).expire) →
        ∀ x d, loadExpire c now p.expire = some (x, d) → loaded c p x = (entry c z a).seen c := by
      intro a ha halive p hkey hvalue hexpire x d hx
      rw [loaded, Entry.seen, hkey, hvalue, storedValue_nodeValue]
      by_cases ht : c.timeout = 0
      · simp [ht, entry]
      have hmem := mem_live.mpr ⟨mem_entries.mpr ⟨a, ha, rfl⟩, (hlive a).mp halive⟩
      obtain ⟨x', d', hx', hsucc⟩ := (readBefore_iff ht _).mp (hcond.resolve_left ht _ hmem)
      rw [hexpire ht] at hx
      rw [entry_expire, hx] at hx'
      cases hx'
      simp [ht, hsucc, entry]
    constructor
    · intro hx
      obtain ⟨e, he, rfl⟩ := List.mem_map.mp hx
      obtain hin | ⟨p, hp, x, d, hx, hloaded⟩ := loadEntries_sound hinv₀ hm₀ hload e he
      · exact absurd hin List.not_mem_nil
      · obtain ⟨a, ha, halive, hkey, hvalue, hexpire⟩ := mem_parsedEntries hp
        rw [hloaded, hsame a ha halive p hkey hvalue hexpire x d hx]
        exact List.mem_map_of_mem (mem_live.mpr ⟨mem_entries.mpr ⟨a, ha, rfl⟩, (hlive a).mp halive⟩)
    intro hx
    obtain ⟨e, he, rfl⟩ := List.mem_map.mp hx
    obtain ⟨hmem, helive⟩ := mem_live.mp he
    obtain ⟨a, ha, rfl⟩ := mem_entries.mp hmem
    have halive := (hlive a).mpr helive
    obtain ⟨p, hp, hkey, hvalue, hexpire⟩ :=
      exists_parsedEntry strtod c (nodeValue c z) ha halive junk
    obtain ⟨x, d, hx, hlt⟩ := hexp p hp
    obtain ⟨e', he', hseen⟩ := hall p hp x d hx hlt
    rw [← hsame a ha halive p hkey hvalue hexpire x d hx, ← hseen]
    exact List.mem_map_of_mem he'

/-! ### String zones -/

theorem readable_rendered (hs : c.type = .string) (s : Bytes) :
    Readable strtod c (rendered s) (.str s) where
  head := ⟨chr '"', _, rfl, by decide⟩
  read entry see ch p _ := by
    have hhead : (rendered s ++ ch :: p).head? = some (chr '"') := rfl
    rw [parseMember, if_pos hhead, parseString_rendered]
    simp [hs]

theorem loadsBack_string (hs : c.type = .string) {a : Addr} (hkey : EncodedText (z.node a).key)
    (hvalue : EncodedText (z.buf (z.node a).str)) :
    LoadsBack strtod c z a (rendered (z.buf (z.node a).str)) := by
  refine ⟨hkey, ?_, ?_⟩
  · simp only [renderValue, hs, renderString_eq hvalue, Option.map_some]
  · simp only [nodeValue, hs]
    exact readable_rendered hs _

theorem loadsBack_of_validUtf8 (hs : c.type = .string)
    (hutf : ∀ e ∈ live c now z, ValidUtf8 e.key ∧ ValidUtf8 e.value.bytes) {a : Addr}
    (ha : a ∈ z.rbtree) (hlive : isExpired c now z a = false) :
    LoadsBack strtod c z a (rendered (z.buf (z.node a).str)) := by
  obtain ⟨hkey, hvalue⟩ := hutf (entry c z a)
    (mem_live.mpr ⟨mem_entries.mpr ⟨a, ha, rfl⟩, by rw [isLive_entry, hlive]; rfl⟩)
  refine loadsBack_string hs hkey.encoded ?_
  simpa [entry, nodeValue, hs, Value.bytes] using hvalue.encoded

/-- A string zone survives being written and loaded exactly when it has no timeout, or when
`strtod` and the loader make of the expiry time of every live entry that same expiry time. -/
theorem stateFile_string_iff (strtod : Strtod) (hs : c.type = .string)
    (hfile : c.stateFile = true) (hz : Reached c z) (now : Msec)
    (hutf : ∀ e ∈ live c now z, ValidUtf8 e.key ∧ ValidUtf8 e.value.bytes)
    (junk : ℕ → ParsedEntry) (n : Node JsNumber) {slab : List (ℕ → Option Addr)}
    (hm : Serves (2 * (live c now z).length) slab []) :
    RoundTrip strtod c junk now z ((Zone.init n).withSlab slab) ↔
      c.timeout = 0 ∨ ∀ e ∈ live c now z, ReadBefore strtod c now e.expire := by
  obtain ⟨n', steps, rfl⟩ := hz
  exact roundTrip_iff_of_loadsBack hfile ((Inv.init c n').run steps)
    (fun a ha hlive => loadsBack_of_validUtf8 hs hutf ha hlive) junk n hm

/-- A string zone that has a state file. -/
def fileConf (timeout : Msec) : Conf where
  timeout := timeout
  evict := false
  type := .string
  stateFile := true
  evict_timeout := nofun

/-- A zone after `set('a', 'b')`. -/
def savedZone (c : Conf) : Zone JsNumber :=
  run c [⟨.njs (.set .none [97] (.string [98]) none), 0, twoAnswers 0 1⟩] (Zone.init blankNode)

/-- Memory that holds nothing. -/
def blankEntries (_ : ℕ) : ParsedEntry where
  key := []
  value := .str []
  expire := 0

theorem validUtf8_ascii : ValidUtf8 [97] ∧ ValidUtf8 [98] :=
  ⟨⟨['a'], by decide⟩, ⟨['b'], by decide⟩⟩

/-- Without a timeout it survives. -/
theorem savedZone_roundTrip :
    RoundTrip decimalStrtod (fileConf 0) blankEntries 0 (savedZone (fileConf 0))
      ((Zone.init blankNode).withSlab (twoAnswers 2 3)) := by
  refine (stateFile_string_iff decimalStrtod rfl rfl ⟨blankNode, _, rfl⟩ 0 (fun e he => ?_)
    blankEntries blankNode ?_).mpr (.inl rfl)
  · obtain rfl : e = ⟨[97], .str [98], 0⟩ := List.mem_singleton.mp he
    exact validUtf8_ascii
  · exact fun _ => ⟨2, rfl, by decide, fun _ => ⟨3, rfl, by decide, trivial⟩⟩

/-- With a timeout of a minute its entry comes back with an expiry time of 60001, not 60000. -/
theorem savedZone_not_roundTrip :
    ¬ RoundTrip decimalStrtod (fileConf 60000) blankEntries 0 (savedZone (fileConf 60000))
      ((Zone.init blankNode).withSlab (twoAnswers 2 3)) := by
  intro h
  have hutf : ∀ e ∈ live (fileConf 60000) 0 (savedZone (fileConf 60000)),
      ValidUtf8 e.key ∧ ValidUtf8 e.value.bytes := by
    intro e he
    obtain rfl : e = ⟨[97], .str [98], 60000⟩ := List.mem_singleton.mp he
    exact validUtf8_ascii
  have hserves : Serves (2 * (live (fileConf 60000) 0 (savedZone (fileConf 60000))).length)
      (twoAnswers 2 3) [] :=
    fun _ => ⟨2, rfl, by decide, fun _ => ⟨3, rfl, by decide, trivial⟩⟩
  have hcond := (roundTrip_iff_of_loadsBack rfl ((Inv.init (fileConf 60000) blankNode).run _)
    (fun a ha hlive => loadsBack_of_validUtf8 rfl hutf ha hlive) blankEntries blankNode
    hserves).mp h
  have hread := hcond.resolve_left (by decide) ⟨[97], .str [98], 60000⟩ List.mem_cons_self
  exact not_readBefore (by decide) (by decide) hread

end Njs.SharedDict
