import Njs.SharedDict.Agreement
import Njs.SharedDict.Entries

/-!
# Saving a zone to its state file

Several workers share a zone with a state file. A worker saves the zone in three phases
(`ngx_js_dict_save`): under the lock it takes a snapshot, sets `writing` and clears `dirty`; it
writes the file, which may fail; and without the lock it stores the outcome in `writing` and
`dirty`. In between, the other workers go on operating on the zone.

The clocks of the workers need not agree. An entry is taken to have expired once some worker has
seen a clock at which it had; `System.clock` is the latest clock seen.
-/

namespace Njs.SharedDict

variable {ν : Type} {c : Conf} {now clock : Msec} {z z' : Zone ν}

/-! ### Operations that fail -/

/-- The flag `dirty` and the entries that have not expired are left as they were. -/
def KeepsLive (c : Conf) (clock : Msec) (z z' : Zone ν) : Prop :=
  z'.dirty = z.dirty ∧ ∀ e, e ∈ live c clock z' ↔ e ∈ live c clock z

theorem KeepsLive.refl (c : Conf) (clock : Msec) (z : Zone ν) : KeepsLive c clock z z :=
  ⟨rfl, fun _ => Iff.rfl⟩

theorem Dropped.keepsLive {l : List Addr} (h : Dropped z z' l) (hn : z.rbtree.Nodup)
    (hl : ∀ a ∈ l, isExpired c clock z a = true) : KeepsLive c clock z z' :=
  ⟨h.dirty, fun _ => mem_live_dropped h hn hl⟩

theorem isExpired_mono (hle : now ≤ clock) {a : Addr} (h : isExpired c now z a = true) :
    isExpired c clock z a = true := by
  simp only [isExpired, Bool.and_eq_true, decide_eq_true_eq, ge_iff_le] at h ⊢
  exact ⟨h.1, UInt64.le_trans h.2 hle⟩

variable [Env ν]

variable {key : Bytes} {value : Value ν}

theorem addValue_error {timeout : Msec}
    (h : ngxJsDictAddValue c key value timeout now z = (z', .error)) :
    ∃ l, Dropped z z' l ∧ (c.evict = false → ∀ a ∈ l, isExpired c now z a = true) := by
  obtain ⟨l₁, h₁, hexp⟩ := swept_sweepFirst c now z
  obtain ⟨k, hk, h₂⟩ := swept_alloc c (nodeSize + key.length) (sweepFirst c now z)
  obtain ⟨z₂, ha, heq⟩ | ⟨z₂, a, ha, ⟨z₃, -, hb, heq⟩ | ⟨_, _, -, -, heq⟩ | ⟨-, heq⟩⟩ :=
    addValue_cases c key value timeout now z <;> rw [heq] at h <;> cases h <;>
    rw [ha] at h₂
  · refine ⟨_, (h₁.trans h₂).toDropped, fun hev a ha => ?_⟩
    rw [hk hev, List.take_zero, List.append_nil] at ha
    exact hexp a ha
  obtain ⟨k', hk', h₃⟩ := swept_alloc c value.bytes.length z₂
  rw [hb] at h₃
  have h₁₃ := (h₁.trans h₂).trans h₃
  refine ⟨_, ⟨h₁₃.node, h₁₃.buf, h₁₃.rbtree, h₁₃.dirty, h₁₃.writing, h₁₃.timerSet⟩,
    fun hev a ha => ?_⟩
  rw [hk hev, hk' hev, List.take_zero, List.take_zero, List.append_nil, List.append_nil] at ha
  exact hexp a ha

theorem update_error (hinv : Inv c z [] []) {a : Addr} {timeout : Msec}
    (h : ngxJsDictUpdate c a value timeout now z = (z', .error)) :
    ∃ l, Dropped z z' l ∧ a ∉ l ∧ (c.evict = false → l = []) := by
  obtain ⟨z₂, -, hb, heq⟩ | ⟨_, _, -, -, heq⟩ | ⟨-, heq⟩ :=
    update_cases c a value timeout now z <;> rw [heq] at h <;> cases h
  obtain ⟨k, hk, hs⟩ := swept_alloc c value.bytes.length (outOfExpire c a z)
  rw [hb] at hs
  rw [outOfExpire_eq] at hs
  obtain ⟨l, hl⟩ : ∃ l, l = (if c.timeout ≠ 0 then z.rbtreeExpire.erase a
    else z.rbtreeExpire).take k := ⟨_, rfl⟩
  have hd : Dropped z z₂ l := by
    rw [hl]
    exact ⟨hs.node, hs.buf, hs.rbtree, hs.dirty, hs.writing, hs.timerSet⟩
  refine ⟨l, ?_, fun hmem => ?_, fun hev => by rw [hl, hk hev, List.take_zero]⟩
  · split
    · exact ⟨hd.node, hd.buf, hd.rbtree, hd.dirty, hd.writing, hd.timerSet⟩
    · exact hd
  · have hmem := List.mem_of_mem_take (hl ▸ hmem)
    by_cases ht : c.timeout = 0
    · simp [ht, hinv.noExpire ht] at hmem
    · simp only [ne_eq, ht, not_false_eq_true, if_true] at hmem
      exact hinv.nodup_expire.not_mem_erase hmem

def NothingToEvict (c : Conf) (clock : Msec) (key : Bytes) (z : Zone ν) : Prop :=
  c.evict = true → ∀ e ∈ live c clock z, e.key = key

theorem addValue_error_keeps (h : Inv c z [] []) (hle : now ≤ clock)
    (hkey : ngxJsDictLookup z key = none) (hevict : NothingToEvict c clock key z) {timeout : Msec}
    (herr : ngxJsDictAddValue c key value timeout now z = (z', .error)) :
    KeepsLive c clock z z' := by
  obtain ⟨l, hd, hexp⟩ := addValue_error herr
  cases hev : c.evict with
  | false => exact hd.keepsLive h.nodup fun a ha => isExpired_mono hle (hexp hev a ha)
  | true =>
    -- The key has no entry, so nothing in the zone is live.
    have hnone : ∀ e, e ∉ live c clock z := fun e he =>
      key_ne_of_lookup_none hkey (mem_live.mp he).1 (hevict hev e he)
    refine ⟨hd.dirty, fun e => iff_of_false (fun he => ?_) (hnone e)⟩
    obtain ⟨hmem, hlive⟩ := mem_live.mp he
    obtain ⟨a, ha, -, rfl⟩ := (mem_entries_dropped hd h.nodup).mp hmem
    exact hnone _ (mem_live.mpr ⟨mem_entries.mpr ⟨a, ha, rfl⟩, hlive⟩)

theorem update_error_keeps (h : Inv c z [] []) {a : Addr} (hkey : ngxJsDictLookup z key = some a)
    (hevict : NothingToEvict c clock key z) {timeout : Msec}
    (herr : ngxJsDictUpdate c a value timeout now z = (z', .error)) : KeepsLive c clock z z' := by
  obtain ⟨ha, hk⟩ := lookup_eq_some hkey
  obtain ⟨l, hd, hal, hnil⟩ := update_error h herr
  cases hev : c.evict with
  | false => exact hd.keepsLive h.nodup (by simp [hnil hev])
  | true =>
    refine ⟨hd.dirty, fun e => ?_⟩
    rw [mem_live, mem_live, mem_entries_dropped hd h.nodup, mem_entries]
    constructor
    · rintro ⟨⟨b, hb, -, rfl⟩, hlive⟩
      exact ⟨⟨b, hb, rfl⟩, hlive⟩
    · rintro ⟨⟨b, hb, rfl⟩, hlive⟩
      have hkb := hevict hev _ (mem_live.mpr ⟨mem_entries.mpr ⟨b, hb, rfl⟩, hlive⟩)
      have hba : b = a := h.eq_of_key hb ha (hkb.trans hk.symm)
      exact ⟨⟨b, hb, hba ▸ hal, rfl⟩, hlive⟩

omit [Env ν] in
theorem relink_keeps (a : Addr) (z : Zone ν) : KeepsLive c clock z
      (if c.timeout ≠ 0 then (outOfExpire c a z).insertExpire a else outOfExpire c a z) := by
  rw [outOfExpire_eq]
  split <;> exact ⟨rfl, fun _ => Iff.rfl⟩

/-! ### What an operation does to the entries -/

/-- `set()`, `add()` or `replace()` is to store the entry, but the slab allocator refuses a
request, even after evictions. -/
def SetRefused (c : Conf) (flags : SetFlags) (key : Bytes) (value : Value ν) (now : Msec)
    (z : Zone ν) : Prop :=
  match ngxJsDictLookup z key with
  | none => flags ≠ .mustExist ∧ ¬ AddFits c key value now z
  | some a =>
    (flags = .mustNotExist → isExpired c now z a = true) ∧ ¬ UpdateFits c a value z

/-- `incr()` needs memory for a new key only. -/
def IncrRefused (c : Conf) (key : Bytes) (value : ν) (now : Msec) (z : Zone ν) : Prop :=
  ngxJsDictLookup z key = none ∧ ¬ AddFits c key (.number value) now z

/-- The operation asks for memory on behalf of the key, and the slab allocator refuses it. -/
def Op.Refused (c : Conf) (now : Msec) (z : Zone ν) (key : Bytes) : Op ν → Prop
  | .njs (.set flags key' value timeo) =>
    key' = key ∧ (∃ timeout, njsSetArgs c value timeo = .ok timeout) ∧
      SetRefused c flags key (value.toValue c) now z
  | .qjs cstring (.set flags key' value timeo) =>
    key' = key ∧ (∃ timeout, qjsSetArgs c value timeo = .ok timeout) ∧
      qjsToValue c cstring value ≠ none ∧ SetRefused c flags key (value.toValue c) now z
  | .njs (.incr key' delta init timeo) =>
    key' = key ∧ ∃ delta' init' timeout,
      njsIncrArgs c delta init timeo = .ok (delta', init', timeout) ∧
        IncrRefused c key (Env.add init' delta') now z
  | .qjs _ (.incr key' delta init timeo) =>
    key' = key ∧ ∃ delta' init' timeout,
      qjsIncrArgs c delta init timeo = .ok (delta', init', timeout) ∧
        IncrRefused c key (Env.add init' delta') now z
  | _ => False

/-- Marked dirty, or the live entries left alone. -/
def MarkedOrKept (c : Conf) (clock : Msec) (z z' : Zone ν) : Prop :=
  z'.dirty = true ∨ KeepsLive c clock z z'

theorem ngxJsDictSet_keeps (h : Inv c z [] []) (hle : now ≤ clock) {value : JsValue ν}
    {flags : SetFlags}
    (hevict : SetRefused c flags key (value.toValue c) now z → NothingToEvict c clock key z)
    (timeout : Msec) : MarkedOrKept c clock z (ngxJsDictSet c key value timeout flags now z).1 := by
  unfold ngxJsDictSet
  unfold SetRefused at hevict
  cases hkey : ngxJsDictLookup z key with
  | none =>
    rw [hkey] at hevict
    by_cases hflags : flags = .mustExist
    · simp only [if_pos hflags]
      exact .inr (.refl c clock z)
    simp only [if_neg hflags]
    by_cases hfits : AddFits c key (value.toValue c) now z
    · obtain ⟨z', a, heq⟩ := addValue_fits hfits
      simp only [heq]
      exact .inl rfl
    · obtain ⟨z', heq⟩ := addValue_not_fits hfits
      simp only [heq]
      exact .inr (addValue_error_keeps h hle hkey (hevict ⟨hflags, hfits⟩) (heq timeout))
  | some a =>
    rw [hkey] at hevict
    by_cases hflag : flags = .mustNotExist → isExpired c now z a = true
    · simp only [if_neg (not_admits_iff.not.mpr (not_not.mpr hflag))]
      by_cases hfits : UpdateFits c a (value.toValue c) z
      · obtain ⟨z', heq⟩ := update_fits now hfits
        simp only [heq]
        exact .inl rfl
      · obtain ⟨z', heq⟩ := update_not_fits now hfits
        simp only [heq]
        exact .inr (update_error_keeps h hkey (hevict ⟨hflag, hfits⟩) (heq timeout))
    · simp only [if_pos (not_admits_iff.mpr hflag)]
      exact .inr (.refl c clock z)

/-- The QuickJS copy of `set()` differs when the engine has no memory for the value. -/
theorem ngxQjsDictSet_keeps (h : Inv c z [] []) (hle : now ≤ clock) {cstring : Bool}
    {value : JsValue ν} (hvalue : ZoneValue c value) {flags : SetFlags}
    (hevict : qjsToValue c cstring value ≠ none → SetRefused c flags key (value.toValue c) now z →
      NothingToEvict c clock key z)
    (timeout : Msec) :
    MarkedOrKept c clock z (ngxQjsDictSet c cstring key value timeout flags now z).1 := by
  by_cases hv : qjsToValue c cstring value = none
  · unfold ngxQjsDictSet
    split
    · split
      · exact .inr (.refl c clock z)
      · simp only [ngxQjsDictAdd, hv]
        exact .inr (.refl c clock z)
    · split
      · exact .inr (.refl c clock z)
      · rw [qjsUpdate_none hv]
        exact .inr (relink_keeps _ z)
  have hcstring : qjsToValue c cstring value = qjsToValue c true value := by
    cases cstring with
    | true => rfl
    | false =>
      unfold qjsToValue at hv ⊢
      split at hv
      · split at hv <;> exact absurd rfl hv
      · rfl
  have heq : ngxQjsDictSet c cstring key value timeout flags now z =
      ngxQjsDictSet c true key value timeout flags now z := by
    simp only [ngxQjsDictSet, ngxQjsDictAdd, ngxQjsDictUpdate, hcstring]
  rw [heq, qjsSet_eq hvalue]
  exact ngxJsDictSet_keeps h hle (hevict hv) timeout

theorem ngxJsDictIncr_keeps (h : Inv c z [] []) (hle : now ≤ clock) {delta init : ν}
    (hevict : IncrRefused c key (Env.add init delta) now z → NothingToEvict c clock key z)
    (timeout : Msec) : MarkedOrKept c clock z (ngxJsDictIncr c key delta init timeout now z).1 := by
  unfold ngxJsDictIncr
  cases hkey : ngxJsDictLookup z key with
  | none =>
    by_cases hfits : AddFits c key (.number (Env.add init delta)) now z
    · obtain ⟨z', a, heq⟩ := addValue_fits hfits
      simp only [heq]
      exact .inl rfl
    · obtain ⟨z', heq⟩ := addValue_not_fits hfits
      simp only [heq]
      exact .inr (addValue_error_keeps h hle hkey (hevict ⟨hkey, hfits⟩) (heq 0))
  | some a => exact .inl rfl

omit [Env ν] in
theorem ngxJsDictDelete_keeps (key : Bytes) (retval : Bool) (now : Msec) (z : Zone ν) :
    MarkedOrKept c clock z (ngxJsDictDelete c key retval now z).1 := by
  unfold ngxJsDictDelete
  split
  · exact .inr (.refl c clock z)
  · exact .inl rfl

omit [Env ν] in
theorem ngxQjsDictDelete_keeps (key : Bytes) (retval : Bool) (now : Msec) (z : Zone ν) :
    MarkedOrKept c clock z (ngxQjsDictDelete c key retval now z).1 := by
  unfold ngxQjsDictDelete
  split
  · exact .inr (.refl c clock z)
  · exact .inl rfl

omit [Env ν] in
def Op.isCall : Op ν → Bool
  | .njs _ | .qjs _ _ => true
  | _ => false

theorem Op.keeps {op : Op ν} (hop : op.isCall = true) (h : Inv c z [] []) (hle : now ≤ clock)
    (hevict : ∀ key, op.Refused c now z key → NothingToEvict c clock key z) :
    MarkedOrKept c clock z (op.exec c now z) := by
  cases op with
  | njs call =>
    cases call with
    | get | has | ttl | keys | items | size => exact .inr (.refl c clock z)
    | set flags key value timeo =>
      cases hargs : njsSetArgs c value timeo with
      | error e =>
        simp only [Op.exec, njsCall, njsJsExtSharedDictSet, hargs]
        exact .inr (.refl c clock z)
      | ok timeout =>
        simp only [Op.exec, njsCall, njsSet_eq hargs]
        exact ngxJsDictSet_keeps h hle
          (fun href => hevict key ⟨rfl, ⟨timeout, hargs⟩, href⟩) timeout
    | incr key delta init timeo =>
      cases hargs : njsIncrArgs c delta init timeo with
      | error e =>
        simp only [Op.exec, njsCall, njsJsExtSharedDictIncr, hargs]
        exact .inr (.refl c clock z)
      | ok args =>
        obtain ⟨delta', init', timeout⟩ := args
        simp only [Op.exec, njsCall, njsIncr_eq hargs]
        exact ngxJsDictIncr_keeps h hle
          (fun href => hevict key ⟨rfl, delta', init', timeout, hargs, href⟩) timeout
    | delete key => exact ngxJsDictDelete_keeps key false now z
    | pop key => exact ngxJsDictDelete_keeps key true now z
    | clear => exact .inl rfl
  | qjs cstring call =>
    cases call with
    | get | has | ttl | keys | items | size => exact .inr (.refl c clock z)
    | set flags key value timeo =>
      cases hargs : qjsSetArgs c value timeo with
      | error e =>
        simp only [Op.exec, qjsCall, ngxQjsExtSharedDictSet, hargs]
        exact .inr (.refl c clock z)
      | ok timeout =>
        have hkeeps := ngxQjsDictSet_keeps h hle (zoneValue_of_qjsSetArgs hargs)
          (fun hv href => hevict key ⟨rfl, ⟨timeout, hargs⟩, hv, href⟩) timeout.toUInt64
        simp only [Op.exec, qjsCall, ngxQjsExtSharedDictSet, hargs]
        split <;> next heq => rwa [heq] at hkeeps
    | incr key delta init timeo =>
      cases hargs : qjsIncrArgs c delta init timeo with
      | error e =>
        simp only [Op.exec, qjsCall, ngxQjsExtSharedDictIncr, hargs]
        exact .inr (.refl c clock z)
      | ok args =>
        obtain ⟨delta', init', timeout⟩ := args
        have htype := type_of_qjsIncrArgs hargs
        simp only [Op.exec, qjsCall, ngxQjsExtSharedDictIncr, hargs]
        rw [qjsIncr_cstring htype, qjsIncr_eq htype]
        exact ngxJsDictIncr_keeps h hle
          (fun href => hevict key ⟨rfl, delta', init', timeout, hargs, href⟩) timeout.toUInt64
    | delete key => exact ngxQjsDictDelete_keeps key false now z
    | pop key => exact ngxQjsDictDelete_keeps key true now z
    | clear => exact .inl rfl
  | sweep | evict | load => exact absurd hop (by simp [Op.isCall])

/-! ### The flags `dirty` and `writing` -/

omit [Env ν] in
/-- No part of an operation touches `writing`, and none clears `dirty`. -/
def SameFlags (z z' : Zone ν) : Prop :=
  z'.writing = z.writing ∧ (z.dirty = true → z'.dirty = true)

omit [Env ν] in
theorem Dropped.sameFlags {l : List Addr} (h : Dropped z z' l) : SameFlags z z' :=
  ⟨h.writing, fun hd => h.dirty.trans hd⟩

omit [Env ν] in
theorem SameFlags.trans {z₁ z₂ z₃ : Zone ν} (h₁ : SameFlags z₁ z₂) (h₂ : SameFlags z₂ z₃) :
    SameFlags z₁ z₃ :=
  ⟨h₂.1.trans h₁.1, fun hd => h₂.2 (h₁.2 hd)⟩

omit [Env ν] in
theorem sameFlags_setExpire (c : Conf) (a : Addr) (timeout now : Msec) (z : Zone ν) :
    SameFlags z (setExpire c a timeout now z) := by
  rw [setExpire]
  split <;> exact ⟨rfl, id⟩

omit [Env ν] in
theorem sameFlags_outOfExpire (c : Conf) (a : Addr) (z : Zone ν) :
    SameFlags z (outOfExpire c a z) := by
  rw [outOfExpire]
  split <;> exact ⟨rfl, id⟩

omit [Env ν] in
theorem sameFlags_alloc (c : Conf) (n : ℕ) (z : Zone ν) : SameFlags z (ngxJsDictAlloc c n z).1 := by
  obtain ⟨k, -, h⟩ := swept_alloc c n z
  exact h.toDropped.sameFlags

theorem sameFlags_addValue (c : Conf) (key : Bytes) (value : Value ν) (timeout now : Msec)
    (z : Zone ν) : SameFlags z (ngxJsDictAddValue c key value timeout now z).1 := by
  obtain ⟨l, hsweep, -⟩ := swept_sweepFirst c now z
  have h₁ := hsweep.toDropped.sameFlags.trans
    (sameFlags_alloc c (nodeSize + key.length) (sweepFirst c now z))
  obtain ⟨z₂, ha, heq⟩ | ⟨z₂, a, ha, hcases⟩ := addValue_cases c key value timeout now z
  · rw [heq]
    rwa [ha] at h₁
  rw [ha] at h₁
  have h₂ := h₁.trans (sameFlags_alloc c value.bytes.length z₂)
  obtain ⟨z₃, -, hb, heq⟩ | ⟨z₃, p, -, hb, heq⟩ | ⟨-, heq⟩ := hcases <;> rw [heq]
  · rw [hb] at h₂
    exact h₂
  · rw [hb] at h₂
    exact h₂.trans (sameFlags_setExpire c a timeout now _)
  · exact h₁.trans (sameFlags_setExpire c a timeout now _)

theorem sameFlags_update (c : Conf) (a : Addr) (value : Value ν) (timeout now : Msec)
    (z : Zone ν) : SameFlags z (ngxJsDictUpdate c a value timeout now z).1 := by
  have h₁ := (sameFlags_outOfExpire c a z).trans
    (sameFlags_alloc c value.bytes.length (outOfExpire c a z))
  obtain ⟨z₂, -, hb, heq⟩ | ⟨z₂, p, -, hb, heq⟩ | ⟨-, heq⟩ :=
    update_cases c a value timeout now z <;> rw [heq]
  · rw [hb] at h₁
    split
    · exact h₁
    · exact h₁
  · rw [hb] at h₁
    exact h₁.trans (sameFlags_setExpire c a timeout now _)
  · exact (sameFlags_outOfExpire c a z).trans (sameFlags_setExpire c a timeout now _)

omit [Env ν] in
theorem SameFlags.markDirty (h : SameFlags z z') : SameFlags z (markDirty c z') :=
  ⟨h.1, fun _ => rfl⟩

omit [Env ν] in
theorem sameFlags_nodeFree (c : Conf) (z : Zone ν) (a : Addr) :
    SameFlags z (ngxJsDictNodeFree c z a) := by
  rw [nodeFree_eq]
  exact ⟨rfl, id⟩

omit [Env ν] in
theorem sameFlags_clearLoop (c : Conf) (l : List Addr) (z : Zone ν) :
    SameFlags z (clearLoop c l z) := by
  induction l generalizing z with
  | nil => exact ⟨rfl, id⟩
  | cons a l ih =>
    have hdrop : SameFlags z (ngxJsDictNodeFree c (z.deleteTree a) a) :=
      sameFlags_nodeFree c (z.deleteTree a) a
    exact hdrop.trans (ih _)

theorem Effect.sameFlags (h : Effect c now z z') : SameFlags z z' := by
  cases h with
  | same => exact ⟨rfl, id⟩
  | @add key value timeout z' hkey heq =>
    have hf := sameFlags_addValue c key value timeout now z
    rw [heq] at hf
    exact hf.markDirty
  | @addFailed key value timeout z' hkey heq =>
    have hf := sameFlags_addValue c key value timeout now z
    rwa [heq] at hf
  | @update key a value timeout z' hkey heq =>
    have hf := sameFlags_update c a value timeout now z
    rw [heq] at hf
    exact hf.markDirty
  | @updateFailed key a value timeout z' hkey heq =>
    have hf := sameFlags_update c a value timeout now z
    rwa [heq] at hf
  | @relink key a hkey =>
    have hf := sameFlags_outOfExpire c a z
    split
    · exact hf
    · exact hf
  | @delete key a hkey =>
    exact ((sameFlags_outOfExpire c a z).trans
      (sameFlags_nodeFree c ((outOfExpire c a z).deleteTree a) a)).markDirty
  | @incr key a hkey value timeout =>
    refine SameFlags.markDirty ?_
    split
    · exact sameFlags_setExpire c a timeout now
        ((z.setNode a { z.node a with number := value }).deleteExpire a)
    · exact ⟨rfl, id⟩
  | clear =>
    refine SameFlags.markDirty ?_
    split
    · exact (swept_evict c _ z).toDropped.sameFlags
    · exact sameFlags_clearLoop c z.rbtree z

theorem Op.sameFlags {op : Op ν} (hop : op.isCall = true) (now : Msec) (z : Zone ν) :
    SameFlags z (op.exec c now z) := by
  cases op with
  | njs call => exact (njsCall_effect c now z call).sameFlags
  | qjs cstring call => exact (qjsCall_effect c now z cstring call).sameFlags
  | sweep | evict | load => exact absurd hop (by simp [Op.isCall])

/-! ### The workers -/

omit [Env ν] in
/-- Where a worker is in `ngx_js_dict_save`: not in it; with a snapshot that is still to be
written; with the file written; or with a failed write. In the last two the final store is still
to come. -/
inductive Phase (ν : Type)
  | idle
  | saving (snapshot : List (Entry ν))
  | written
  | failed
  deriving DecidableEq

/-- The workers `W` that share a zone, and its state file. -/
structure System (ν W : Type) where
  zone : Zone ν
  /-- `save_event.timer_set` of every worker. -/
  timer : W → Bool
  phase : W → Phase ν
  /-- What the last successfully written state file holds. -/
  file : List (Entry ν)
  /-- The latest clock that a worker has seen. -/
  clock : Msec

/-- What can happen next: a worker executes a method call; its save timer fires, and the
rendering succeeds or not; the file is written or not; the final store. A worker that is exiting
does not arm its timer again after an error. -/
inductive Event (ν W : Type)
  | call (w : W) (op : Op ν) (now : Msec) (slab : List (ℕ → Option Addr))
  | snapshot (w : W) (now : Msec) (rendered exiting : Bool)
  | write (w : W) (ok : Bool)
  | store (w : W) (exiting : Bool)

variable {W : Type} [DecidableEq W]

/-- The zone as the worker sees it, with its own timer. -/
def System.zoneOf (s : System ν W) (w : W) : Zone ν :=
  { s.zone with timerSet := s.timer w }

/-- `ngx_js_dict_save` up to the unlock, with what `ngx_js_dict_save_handler` does when it ends
there. -/
def System.snapshot (c : Conf) (s : System ν W) (w : W) (now : Msec)
    (rendered exiting : Bool) : System ν W :=
  if s.zone.dirty = false then { s with timer := Function.update s.timer w false }
  else if s.zone.writing then s
  else if rendered = false then { s with timer := Function.update s.timer w (!exiting) }
  else
    { s with
      zone := { s.zone with writing := true, dirty := false }
      timer := Function.update s.timer w false
      phase := Function.update s.phase w (.saving (live c now s.zone))
      clock := max s.clock now }

/-- One step of a worker; a worker that is saving executes nothing else, and a save starts when
the timer fires. -/
def System.step (c : Conf) (s : System ν W) : Event ν W → System ν W
  | .call w op now slab =>
    match s.phase w with
    | .idle =>
      if op.isCall then
        let z := op.exec c now ((s.zoneOf w).withSlab slab)
        { s with
          zone := z
          timer := Function.update s.timer w z.timerSet
          clock := max s.clock now }
      else s
    | _ => s
  | .snapshot w now rendered exiting =>
    match s.phase w with
    | .idle => if s.timer w then s.snapshot c w now rendered exiting else s
    | _ => s
  | .write w ok =>
    match s.phase w with
    | .saving snapshot =>
      if ok then { s with file := snapshot, phase := Function.update s.phase w .written }
      else { s with phase := Function.update s.phase w .failed }
    | _ => s
  | .store w exiting =>
    match s.phase w with
    | .written =>
      { s with
        zone := { s.zone with writing := false }
        phase := Function.update s.phase w .idle }
    | .failed =>
      { s with
        zone := { s.zone with writing := false, dirty := true }
        timer := Function.update s.timer w (!exiting)
        phase := Function.update s.phase w .idle }
    | _ => s

omit [Env ν] [DecidableEq W] in
/-- Idle workers on an empty zone, with an empty state file or none. -/
def System.init (W : Type) (n : Node ν) : System ν W where
  zone := Zone.init n
  timer _ := false
  phase _ := .idle
  file := []
  clock := 0

def System.run (c : Conf) (events : List (Event ν W)) (s : System ν W) : System ν W :=
  events.foldl (System.step c) s

omit [Env ν] in
/-- The entries differ from those of the zone in expired ones only. -/
def Agrees (c : Conf) (clock : Msec) (l : List (Entry ν)) (z : Zone ν) : Prop :=
  ∀ e : Entry ν, e.isLive c clock = true → (e ∈ l ↔ e ∈ entries c z)

omit [Env ν] [DecidableEq W] in
/-- If the state file differs from the zone, the zone is dirty or a worker is saving it. -/
def NoLostSave (c : Conf) (s : System ν W) : Prop :=
  ¬ Agrees c s.clock s.file s.zone → s.zone.dirty = true ∨ ∃ w, s.phase w ≠ .idle

/-! ### The invariant of the workers -/

section

omit [Env ν]

theorem clock_le_max (a b : Msec) : a ≤ max a b ∧ b ≤ max a b := by
  change a ≤ (if a ≤ b then b else a) ∧ b ≤ (if a ≤ b then b else a)
  split
  · next h => exact ⟨h, UInt64.le_refl b⟩
  · next h => exact ⟨UInt64.le_refl a, UInt64.le_of_lt (UInt64.not_le.mp h)⟩

theorem Agrees.mono {l : List (Entry ν)} (h : Agrees c now l z) (hle : now ≤ clock) :
    Agrees c clock l z := fun e he => by
  refine h e ?_
  simp only [Entry.isLive, Bool.or_eq_true, decide_eq_true_eq] at he ⊢
  exact he.imp_right fun hlt => UInt64.lt_of_le_of_lt hle hlt

theorem agrees_live (c : Conf) (now : Msec) (z : Zone ν) : Agrees c now (live c now z) z :=
  fun _ he => mem_live.trans (and_iff_left he)

theorem Agrees.keepsLive {l : List (Entry ν)} (h : Agrees c clock l z)
    (hk : KeepsLive c clock z z') : Agrees c clock l z' := fun e he => by
  have hlive := hk.2 e
  rw [mem_live, mem_live, and_iff_left he, and_iff_left he] at hlive
  rw [h e he, hlive]

/-- What holds between the steps of the workers: at most one of them is saving, `writing` tells
whether one is, and unless the zone is dirty it agrees with what is in the state file or about to
get there. -/
structure SaveInv (c : Conf) (s : System ν W) : Prop where
  inv : Inv c s.zone [] []
  writing : s.zone.writing = true ↔ ∃ w, s.phase w ≠ .idle
  one : ∀ w w', s.phase w ≠ .idle → s.phase w' ≠ .idle → w = w'
  idle : s.zone.writing = false → s.zone.dirty = false → Agrees c s.clock s.file s.zone
  saving : ∀ w snapshot, s.phase w = .saving snapshot → s.zone.dirty = false →
    Agrees c s.clock snapshot s.zone
  written : ∀ w, s.phase w = .written → s.zone.dirty = false → Agrees c s.clock s.file s.zone

variable {s : System ν W}

omit [DecidableEq W] in
theorem SaveInv.noLostSave (h : SaveInv c s) : NoLostSave c s := by
  intro hdiff
  by_contra hnot
  obtain ⟨hdirty, hphase⟩ := not_or.mp hnot
  have hidle : ∀ w, s.phase w = .idle := fun w => by_contra fun hw => hphase ⟨w, hw⟩
  have hwriting : s.zone.writing = false := by
    by_contra hw
    obtain ⟨w, hw⟩ := h.writing.mp (by simpa using hw)
    exact hw (hidle w)
  exact hdiff (h.idle hwriting (by simpa using hdirty))

omit [DecidableEq W] in
theorem SaveInv.init (c : Conf) (n : Node ν) : SaveInv c (System.init W n) where
  inv := Inv.init c n
  writing := by simp [System.init, Zone.init]
  one := by simp [System.init]
  idle _ _ := fun e _ => by simp [System.init, Zone.init, entries]
  saving := by simp [System.init]
  written := by simp [System.init]

omit [DecidableEq W] in
theorem SaveInv.setTimer (h : SaveInv c s) (timer : W → Bool) : SaveInv c { s with timer } :=
  ⟨h.inv, h.writing, h.one, h.idle, h.saving, h.written⟩

omit [DecidableEq W] in
theorem SaveInv.setZone (h : SaveInv c s) {z : Zone ν} (hinv : Inv c z [] [])
    (hflags : SameFlags s.zone z) (hle : s.clock ≤ clock)
    (hkeeps : z.dirty = true ∨ KeepsLive c clock s.zone z) :
    SaveInv c { s with zone := z, clock } := by
  -- What agreed with the old zone agrees with the new one.
  have hagree : ∀ l, (s.zone.dirty = false → Agrees c s.clock l s.zone) → z.dirty = false →
      Agrees c clock l z := fun l hl hz => by
    have hk := hkeeps.resolve_left (by simp [hz])
    exact ((hl (hk.1.symm.trans hz)).mono hle).keepsLive hk
  exact ⟨hinv, by rw [← h.writing, hflags.1], h.one,
    fun hw => hagree _ (h.idle (hflags.1.symm.trans hw)),
    fun w snapshot hw => hagree _ (h.saving w snapshot hw),
    fun w hw => hagree _ (h.written w hw)⟩

omit [DecidableEq W] in
theorem SaveInv.others_idle (h : SaveInv c s) {w : W} (hw : s.phase w ≠ .idle) {w' : W}
    (hne : w' ≠ w) : s.phase w' = .idle :=
  by_contra fun hw' => hne (h.one w' w hw' hw)

theorem SaveInv.update {s : System ν W} {w : W} {p : Phase ν} (hinv : Inv c s.zone [] [])
    (hothers : ∀ w', w' ≠ w → s.phase w' = .idle) (hwriting : s.zone.writing = true ↔ p ≠ .idle)
    (hidle : p = .idle → s.zone.dirty = false → Agrees c s.clock s.file s.zone)
    (hsaving : ∀ snapshot, p = .saving snapshot → s.zone.dirty = false →
      Agrees c s.clock snapshot s.zone)
    (hwritten : p = .written → s.zone.dirty = false → Agrees c s.clock s.file s.zone) :
    SaveInv c { s with phase := Function.update s.phase w p } := by
  -- Only the worker itself can be out of the idle phase.
  have hphase : ∀ w', Function.update s.phase w p w' ≠ .idle →
      w' = w ∧ Function.update s.phase w p w' = p := fun w' hw => by
    by_cases hne : w' = w
    · exact ⟨hne, by rw [hne, Function.update_self]⟩
    · rw [Function.update_of_ne hne] at hw
      exact absurd (hothers w' hne) hw
  refine ⟨hinv, hwriting.trans ⟨fun hp => ⟨w, ?_⟩, ?_⟩, fun w₁ w₂ h₁ h₂ => ?_, fun hw => ?_,
    fun w' snapshot hw => ?_, fun w' hw => ?_⟩
  · change Function.update s.phase w p w ≠ .idle
    rwa [Function.update_self]
  · rintro ⟨w', hw⟩
    rw [← (hphase w' hw).2]
    exact hw
  · rw [(hphase w₁ h₁).1, (hphase w₂ h₂).1]
  · refine hidle (by_contra fun hp => ?_)
    rw [hwriting.mpr hp] at hw
    cases hw
  · change Function.update s.phase w p w' = _ at hw
    have hp := (hphase w' (by rw [hw]; simp)).2
    exact hsaving snapshot (hp.symm.trans hw)
  · change Function.update s.phase w p w' = _ at hw
    have hp := (hphase w' (by rw [hw]; simp)).2
    exact hwritten (hp.symm.trans hw)

/-- The locked part of `ngx_js_dict_save`. -/
theorem SaveInv.snapshot (h : SaveInv c s) (w : W) (now : Msec) (rendered exiting : Bool) :
    SaveInv c (s.snapshot c w now rendered exiting) := by
  rw [System.snapshot]
  split
  · exact h.setTimer _
  split
  · exact h
  next hwriting =>
  split
  · exact h.setTimer _
  -- Nobody was saving, so the worker is the only one now.
  refine SaveInv.update (s := { s with
    zone := { s.zone with writing := true, dirty := false }
    timer := Function.update s.timer w false
    clock := max s.clock now }) (h.inv.congr rfl rfl rfl rfl) (fun w' _ => ?_)
    (iff_of_true rfl (by simp)) (by simp) (fun snapshot hp _ => ?_) (by simp)
  · by_contra hw
    exact hwriting (h.writing.mpr ⟨w', hw⟩)
  · cases hp
    exact (agrees_live c now s.zone).mono (clock_le_max _ _).2

theorem SaveInv.write {s : System ν W} (h : SaveInv c s) {w : W} {snapshot : List (Entry ν)}
    (hw : s.phase w = .saving snapshot) :
    SaveInv c { s with file := snapshot, phase := Function.update s.phase w .written } ∧
      SaveInv c { s with phase := Function.update s.phase w .failed } := by
  have hne : s.phase w ≠ .idle := by simp [hw]
  have hwriting : s.zone.writing = true := h.writing.mpr ⟨w, hne⟩
  constructor
  · exact SaveInv.update (s := { s with file := snapshot }) h.inv
      (fun _ hw' => h.others_idle hne hw') (iff_of_true hwriting (by simp)) (by simp) (by simp)
      (fun _ => h.saving w snapshot hw)
  · exact SaveInv.update h.inv (fun _ hw' => h.others_idle hne hw')
      (iff_of_true hwriting (by simp)) (by simp) (by simp) (by simp)

theorem SaveInv.store (h : SaveInv c s) {w : W} (hne : s.phase w ≠ .idle) {dirty : Bool}
    (hdirty : dirty = false → s.zone.dirty = false ∧ s.phase w = .written) :
    SaveInv c { s with
      zone := { s.zone with writing := false, dirty }
      phase := Function.update s.phase w .idle } :=
  SaveInv.update (s := { s with zone := { s.zone with writing := false, dirty } })
    (h.inv.congr rfl rfl rfl rfl) (fun _ hw' => h.others_idle hne hw') (by simp)
    (fun _ hd => h.written w (hdirty hd).2 (hdirty hd).1) (by simp) (by simp)

end

/-! ### Runs of the workers -/

/-- A method call loses no save: the zone is dirty already, or memory is not refused to the call,
or it is and no other key has a live entry to evict. -/
def Event.Harmless (c : Conf) (s : System ν W) : Event ν W → Prop
  | .call w op now slab =>
    s.zone.dirty = true ∨ ∀ key, op.Refused c now ((s.zoneOf w).withSlab slab) key →
      NothingToEvict c (max s.clock now) key s.zone
  | _ => True

theorem SaveInv.step {s : System ν W} (h : SaveInv c s) {e : Event ν W}
    (he : e.Harmless c s) : SaveInv c (s.step c e) := by
  cases e with
  | call w op now slab =>
    rw [System.step]
    split
    · split
      · next hop =>
        set z := (s.zoneOf w).withSlab slab
        have hz : Inv c z [] [] := h.inv.congr rfl rfl rfl rfl
        have hflags : SameFlags s.zone (op.exec c now z) := op.sameFlags hop now z
        refine (h.setZone (hz.op now op) hflags (clock_le_max _ _).1 ?_).setTimer _
        obtain hdirty | hevict := he
        · exact .inl (hflags.2 hdirty)
        · exact op.keeps hop hz (clock_le_max _ _).2 hevict
      · exact h
    · exact h
  | snapshot w now rendered exiting =>
    rw [System.step]
    split
    · split
      · exact h.snapshot w now rendered exiting
      · exact h
    · exact h
  | write w ok =>
    rw [System.step]
    split
    · next snapshot hw =>
      split
      · exact (h.write hw).1
      · exact (h.write hw).2
    · exact h
  | store w exiting =>
    rw [System.step]
    split
    · next hw => exact h.store (by simp [hw]) fun hd => ⟨hd, hw⟩
    · next hw => exact (h.store (by simp [hw]) (by simp)).setTimer _
    · exact h

def HarmlessRun (c : Conf) : List (Event ν W) → System ν W → Prop
  | [], _ => True
  | e :: events, s => e.Harmless c s ∧ HarmlessRun c events (s.step c e)

theorem SaveInv.run {s : System ν W} (h : SaveInv c s) {events : List (Event ν W)}
    (hevents : HarmlessRun c events s) : SaveInv c (s.run c events) := by
  induction events generalizing s with
  | nil => exact h
  | cons e events ih => exact ih (h.step hevents.1) hevents.2

/-- No save is lost in any run of the workers in which no method call that is refused memory
evicts a live entry of another key from a zone that is not dirty. -/
theorem noLostSave_of_harmless (n : Node ν) {events : List (Event ν W)}
    (h : HarmlessRun c events (System.init W n)) :
    NoLostSave c ((System.init W n).run c events) :=
  ((SaveInv.init c n).run h).noLostSave

/-- A string zone that evicts and has a state file. -/
def evictConf : Conf where
  timeout := 60000
  evict := true
  type := .string
  stateFile := true
  evict_timeout _ := by decide

/-- The first of two workers stores an entry and saves the zone. -/
def savingRun : List (Event JsNumber (Fin 2)) :=
  [.call 0 (.njs (.set .none [97] (.string [98]) none)) 0 [fun _ => some 0, fun _ => some 1],
    .snapshot 0 0 true false, .write 0 true, .store 0 false]

/-- No save is lost in it. -/
theorem savingRun_noLostSave :
    NoLostSave evictConf ((System.init (Fin 2) blankNode).run evictConf savingRun) :=
  noLostSave_of_harmless blankNode
    ⟨.inr fun _ _ _ _ he => absurd he List.not_mem_nil, trivial, trivial, trivial, trivial⟩

/-- Then the second worker stores another entry and is refused memory: the first entry has been
evicted, and nobody is going to save the zone. -/
theorem refused_set_losesSave :
    ¬ NoLostSave evictConf ((System.init (Fin 2) blankNode).run evictConf
      (savingRun ++ [.call 1 (.njs (.set .none [99] (.string [100]) none)) 0 []])) := by
  intro h
  have hdiff : ¬ Agrees evictConf 0 [⟨[97], .str [98], 60000⟩]
      ((System.init (Fin 2) blankNode).run evictConf (savingRun ++
        [.call 1 (.njs (.set .none [99] (.string [100]) none)) 0 []])).zone := fun hagree => by
    have hmem := (hagree ⟨[97], .str [98], 60000⟩ (by decide)).mp (by decide)
    exact absurd hmem (by decide)
  exact absurd (h hdiff) (by decide)

end Njs.SharedDict
