import Njs.SharedDict.Effects

/-!
# The two bindings of the shared dictionary

The njs and the QuickJS binding hold a copy each of the operations. For well-typed calls they
leave the same zone and return the same value, except in three places: the deletion of a key
that is not there, the size of a dictionary with `2 ^ 31` entries, and the timeout of a zone
that does not fit into 32 bits, which QuickJS truncates. The engine's own memory is taken to
suffice: `JS_ToCStringLen` succeeds.
-/

namespace Njs.SharedDict

variable {ν : Type} [Env ν] {c : Conf} {now : Msec} {z : Zone ν}

/-! ### Well-typed calls -/

/-- A timeout is omitted or an integer from 1 to `2 ^ 32 - 1`. -/
def TimeoutArg (timeo : Option (JsValue ν)) : Prop :=
  timeo = none ∨ ∃ n : UInt32, 1 ≤ n ∧ timeo = some (.number (Env.ofInt n.toNat))

/-- A maximal count is omitted or a non-negative 32-bit integer. -/
def CountArg (maxCount : Option (JsValue ν)) : Prop :=
  maxCount = none ∨ ∃ n : UInt32, maxCount = some (.number (Env.ofInt n.toNat))

omit [Env ν] in
def ZoneValue (c : Conf) (value : JsValue ν) : Prop :=
  match c.type with
  | .string => ∃ s, value = .string s
  | .number => ∃ x, value = .number x

omit [Env ν] in
def NumberArg (arg : Option (JsValue ν)) : Prop :=
  arg = none ∨ ∃ x, arg = some (.number x)

def WellTyped (c : Conf) : Call ν → Prop
  | .keys maxCount | .items maxCount => CountArg maxCount
  | .set _ _ value timeo => ZoneValue c value ∧ TimeoutArg timeo
  | .incr _ delta init timeo => (∃ x, delta = .number x) ∧ NumberArg init ∧ TimeoutArg timeo
  | _ => True

omit [Env ν] in
/-- Both return the same value, or both throw. -/
def SameOutcome : Outcome ν → Outcome ν → Prop
  | .ok v, .ok w => v = w
  | .error _, .error _ => True
  | _, _ => False

omit [Env ν] in
/-- Both calls leave the same zone, with the same answers of the slab allocator to come. -/
def SameResult (r r' : Zone ν × Outcome ν) : Prop :=
  r.1 = r'.1 ∧ SameOutcome r.2 r'.2

omit [Env ν] in
@[simp] theorem SameOutcome.refl (o : Outcome ν) : SameOutcome o o := by
  cases o <;> trivial

omit [Env ν] in
@[simp] theorem SameResult.refl (r : Zone ν × Outcome ν) : SameResult r r :=
  ⟨rfl, .refl _⟩

/-! ### Where the bindings differ -/

/-- `set()`, `add()` or `replace()` writes the entry: the flags admit it, and the slab allocator
serves its requests, if need be after evictions. -/
def Stores (c : Conf) (flags : SetFlags) (key : Bytes) (value : JsValue ν) (now : Msec)
    (z : Zone ν) : Prop :=
  match ngxJsDictLookup z key with
  | none => flags ≠ .mustExist ∧ AddFits c key (value.toValue c) now z
  | some a =>
    (flags = .mustNotExist → isExpired c now z a = true) ∧ UpdateFits c a (value.toValue c) z

def AgreeOn (c : Conf) (now : Msec) (z : Zone ν) : Call ν → Prop
  | .delete key => ngxJsDictLookup z key ≠ none
  | .size => liveCount c now z < 2 ^ 31
  | .set flags key value timeo =>
    timeo = none → 2 ^ 32 ≤ c.timeout.toNat → ¬ Stores c flags key value now z
  | _ => True

/-! ### The arguments -/

variable {value delta : JsValue ν} {flags : SetFlags} {key : Bytes}
  {timeo init : Option (JsValue ν)} {timeout : UInt32}

theorem qjsToValue_eq (h : ZoneValue c value) :
    qjsToValue c true value = some (value.toValue c) := by
  unfold ZoneValue at h
  unfold qjsToValue JsValue.toValue
  cases hc : c.type <;> rw [hc] at h <;> obtain ⟨x, rfl⟩ := h
  · rfl
  · simp [Env.jsToFloat64_number]

omit [Env ν] in
theorem checkValue_eq (c : Conf) (value : JsValue ν) :
    qjsCheckValue c value = njsCheckValue c value := by
  cases value <;> rfl

omit [Env ν] in
theorem checkValue_ok_iff (c : Conf) (value : JsValue ν) :
    njsCheckValue c value = .ok () ↔ ZoneValue c value := by
  unfold ZoneValue
  cases value <;> cases hc : c.type <;> simp [njsCheckValue, throwTypeError, hc]

/-- An integer from 1 to `2 ^ 32 - 1` is the same timeout for both bindings. -/
theorem njsTimeout_ofInt {n : UInt32} (hn : 1 ≤ n) (c : Conf) (default : Msec) :
    njsTimeout c default (some (.number (Env.ofInt n.toNat) : JsValue ν)) =
      if c.timeout = 0 then throwTypeError "shared dict must be declared with timeout"
      else .ok n.toUInt64 := by
  have hle : ¬ n.toUInt64 < 1 := by
    rw [UInt64.lt_iff_toNat_lt]
    have := UInt32.le_iff_toNat_le.mp hn
    simp at this ⊢
    omega
  simp [njsTimeout, Env.toMsec_ofInt, hle]

theorem qjsSetTimeout_ofInt {n : UInt32} (hn : 1 ≤ n) (c : Conf) :
    qjsSetTimeout c (some (.number (Env.ofInt n.toNat) : JsValue ν)) =
      if c.timeout = 0 then throwTypeError "shared dict must be declared with timeout"
      else .ok n := by
  simp [qjsSetTimeout, Env.jsToUint32_ofInt, UInt32.not_lt.mpr hn]

theorem qjsIncrTimeout_ofInt {n : UInt32} (hn : 1 ≤ n) (c : Conf) :
    qjsIncrTimeout c (some (.number (Env.ofInt n.toNat) : JsValue ν)) =
      if c.timeout = 0 then throwTypeError "shared dict must be declared with timeout"
      else .ok n := by
  simp [qjsIncrTimeout, Env.jsToUint32_ofInt, UInt32.not_lt.mpr hn]

theorem maxCount_eq {maxCount : Option (JsValue ν)} (h : CountArg maxCount) :
    ∃ n : UInt32, njsMaxCount maxCount = .ok (n.toNat : ℤ) ∧ qjsMaxCount maxCount = .ok n := by
  obtain rfl | ⟨n, rfl⟩ := h
  · exact ⟨1024, rfl, rfl⟩
  · exact ⟨n, by simp [njsMaxCount, ngxJsInteger, Env.isValid_ofInt, Env.toInt_ofInt],
      by simp [qjsMaxCount, Env.jsToUint32_ofInt]⟩

/-! ### The copies of the operations -/

omit [Env ν] in
/-- The two tests of an entry that `add()` finds are complementary. -/
theorem not_admits_iff {a : Addr} :
    (flags = .mustNotExist ∧ (c.timeout = 0 ∨ now < (z.node a).expire)) ↔
      ¬ (flags = .mustNotExist → isExpired c now z a = true) := by
  have h : (c.timeout = 0 ∨ now < (z.node a).expire) ↔ ¬ isExpired c now z a = true := by
    simp only [isExpired, Bool.and_eq_true, decide_eq_true_eq, ne_eq, ge_iff_le, not_and,
      UInt64.not_le]
    tauto
  rw [h]
  tauto

theorem ngxJsDictSet_stores (h : Stores c flags key value now z) :
    ∃ z' a, ∀ timeout, ngxJsDictSet c key value timeout flags now z =
      (markDirty c (setExpire c a timeout now z'), .ok) := by
  unfold Stores at h
  unfold ngxJsDictSet
  cases hkey : ngxJsDictLookup z key with
  | none =>
    rw [hkey] at h
    obtain ⟨z', a, heq⟩ := addValue_fits h.2
    exact ⟨(z'.setNode a { z'.node a with key := key }).insertTree a, a, fun timeout => by
      simp only [if_neg h.1, heq, linkNode]⟩
  | some a =>
    rw [hkey] at h
    obtain ⟨z', heq⟩ := update_fits now h.2
    exact ⟨z', a, fun timeout => by
      simp only [if_neg (not_admits_iff.not.mpr (not_not.mpr h.1)), heq]⟩

theorem ngxJsDictSet_not_stores (h : ¬ Stores c flags key value now z) :
    ∃ r, ∀ timeout, ngxJsDictSet c key value timeout flags now z = r := by
  unfold Stores at h
  unfold ngxJsDictSet
  cases hkey : ngxJsDictLookup z key with
  | none =>
    rw [hkey] at h
    by_cases hflags : flags = .mustExist
    · exact ⟨(z, .declined), fun _ => by simp only [if_pos hflags]⟩
    · obtain ⟨z', heq⟩ := addValue_not_fits fun hfits => h ⟨hflags, hfits⟩
      exact ⟨(z', .error), fun timeout => by simp only [if_neg hflags, heq]⟩
  | some a =>
    rw [hkey] at h
    by_cases hflag : flags = .mustNotExist → isExpired c now z a = true
    · obtain ⟨z', heq⟩ := update_not_fits now fun hfits => h ⟨hflag, hfits⟩
      exact ⟨(z', .error), fun timeout => by
        simp only [if_neg (not_admits_iff.not.mpr (not_not.mpr hflag)), heq]⟩
    · exact ⟨(z, .declined), fun _ => by simp only [if_pos (not_admits_iff.mpr hflag)]⟩

omit [Env ν] in
theorem copyValue_eq (c : Conf) (z : Zone ν) (a : Addr) :
    ngxQjsDictCopyValueLocked c z a = ngxJsDictCopyValueLocked c z a := by
  unfold ngxQjsDictCopyValueLocked ngxJsDictCopyValueLocked nodeValue
  cases c.type <;> rfl

omit [Env ν] in
theorem qjsGet_eq (c : Conf) (key : Bytes) (now : Msec) (z : Zone ν) :
    ngxQjsDictGet c key now z = ngxJsDictGet c key now z := by
  simp only [ngxQjsDictGet, ngxJsDictGet, copyValue_eq]
  rfl

/-- The return value that `ngx_qjs_dict_set` makes of the return code of `ngx_js_dict_set`. -/
def setOutcome : Rc → Outcome ν
  | .ok => .ok (.boolean true)
  | .declined => .ok (.boolean false)
  | .error => .error .sharedMemoryError

theorem qjsSet_eq (h : ZoneValue c value) (key : Bytes) (timeout : Msec) (flags : SetFlags) :
    ngxQjsDictSet c true key value timeout flags now z =
      ((ngxJsDictSet c key value timeout flags now z).1,
        setOutcome (ngxJsDictSet c key value timeout flags now z).2) := by
  have hv := qjsToValue_eq h
  unfold ngxQjsDictSet ngxJsDictSet
  rw [show ngxQjsDictLookup z key = ngxJsDictLookup z key from rfl]
  cases ngxJsDictLookup z key with
  | none =>
    by_cases hflags : flags = .mustExist
    · simp only [if_pos hflags, setOutcome]
    · simp only [if_neg hflags, qjsAdd_eq hv]
      rcases ngxJsDictAddValue c key (value.toValue c) timeout now z with ⟨z', _ | _ | _⟩ <;> rfl
  | some a =>
    by_cases hflag : flags = .mustNotExist ∧ (c.timeout = 0 ∨ now < (z.node a).expire)
    · simp only [if_pos hflag, setOutcome]
    · simp only [if_neg hflag, qjsUpdate_eq hv]
      rcases ngxJsDictUpdate c a (value.toValue c) timeout now z with ⟨z', _ | _ | _⟩ <;> rfl

theorem qjsIncr_cstring (htype : c.type = .number) (cstring : Bool) (key : Bytes)
    (delta init : ν) (timeout : Msec) :
    ngxQjsDictIncr c cstring key delta init timeout now z =
      ngxQjsDictIncr c true key delta init timeout now z := by
  simp only [ngxQjsDictIncr, ngxQjsDictAdd, qjsToValue, htype]

theorem qjsIncr_eq (htype : c.type = .number) (key : Bytes) (delta init : ν) (timeout : Msec) :
    ngxQjsDictIncr c true key delta init timeout now z =
      ((ngxJsDictIncr c key delta init timeout now z).1,
        if (ngxJsDictIncr c key delta init timeout now z).2.1 = .ok then
          .ok (.number (ngxJsDictIncr c key delta init timeout now z).2.2)
        else .error .sharedMemoryError) := by
  have hv : qjsToValue c true (.number (Env.add init delta) : JsValue ν) =
      some (.number (Env.add init delta)) := by
    simp [qjsToValue, htype, Env.jsToFloat64_number]
  unfold ngxQjsDictIncr ngxJsDictIncr
  rw [show ngxQjsDictLookup z key = ngxJsDictLookup z key from rfl]
  cases ngxJsDictLookup z key with
  | none =>
    simp only [qjsAdd_eq hv]
    rcases ngxJsDictAddValue c key (.number (Env.add init delta))
      (if timeout ≠ 0 then timeout else c.timeout) now z with ⟨z', _ | _ | _⟩ <;> rfl
  | some a => rfl

/-! ### The method `set()` and its variants -/

/-- What `set()`, `add()` and `replace()` return for a return code. -/
def setResult (flags : SetFlags) : Rc → Outcome ν
  | .error => .error .sharedMemoryError
  | rc => .ok (if flags = .none then .this else .boolean (rc = .ok))

theorem njsSet_eq {timeout : Msec} (hargs : njsSetArgs c value timeo = .ok timeout) :
    njsJsExtSharedDictSet c now flags key value timeo z =
      ((ngxJsDictSet c key value timeout flags now z).1,
        setResult flags (ngxJsDictSet c key value timeout flags now z).2) := by
  rw [njsJsExtSharedDictSet, hargs]
  simp only
  rcases ngxJsDictSet c key value timeout flags now z with ⟨z', _ | _ | _⟩ <;> rfl

theorem zoneValue_of_qjsSetArgs (hargs : qjsSetArgs c value timeo = .ok timeout) :
    ZoneValue c value := by
  rw [qjsSetArgs, checkValue_eq] at hargs
  split at hargs
  · cases hargs
  · next hcheck => exact (checkValue_ok_iff c value).mp hcheck

theorem qjsExtSet_eq (hargs : qjsSetArgs c value timeo = .ok timeout) :
    ngxQjsExtSharedDictSet c true now flags key value timeo z =
      ((ngxJsDictSet c key value timeout.toUInt64 flags now z).1,
        setResult flags (ngxJsDictSet c key value timeout.toUInt64 flags now z).2) := by
  rw [ngxQjsExtSharedDictSet, hargs]
  simp only [qjsSet_eq (zoneValue_of_qjsSetArgs hargs)]
  rcases ngxJsDictSet c key value timeout.toUInt64 flags now z with ⟨z', _ | _ | _⟩ <;> rfl

theorem njsSetArgs_eq (hvalue : ZoneValue c value) (timeo : Option (JsValue ν)) :
    njsSetArgs c value timeo = njsTimeout c c.timeout timeo := by
  rw [njsSetArgs, (checkValue_ok_iff c value).mpr hvalue]

theorem qjsSetArgs_eq (hvalue : ZoneValue c value) (timeo : Option (JsValue ν)) :
    qjsSetArgs c value timeo = qjsSetTimeout c timeo := by
  rw [qjsSetArgs, checkValue_eq, (checkValue_ok_iff c value).mpr hvalue]

/-- A timeout of the zone that fits into 32 bits survives the `uint32_t` of QuickJS. -/
theorem toUInt32_toUInt64_iff (t : Msec) : t.toUInt32.toUInt64 = t ↔ ¬ 2 ^ 32 ≤ t.toNat := by
  rw [← UInt64.toNat_inj]
  have := t.toNat_lt
  simp only [UInt32.toNat_toUInt64, UInt64.toNat_toUInt32]
  omega

omit [Env ν] in
theorem setExpire_ne (ht : c.timeout ≠ 0) {t t' : Msec} (hne : t ≠ t') (a : Addr) (z' : Zone ν) :
    markDirty c (setExpire c a t now z') ≠ markDirty c (setExpire c a t' now z') := by
  intro h
  have hnode := congrArg (fun z => (z.node a).expire) h
  simp only [setExpire, if_pos ht, markDirty_node, Zone.insertExpire_node, Zone.setNode_node,
    Function.update_self] at hnode
  exact hne (UInt64.add_right_inj now |>.mp hnode)

theorem set_agree_iff (flags : SetFlags) (key : Bytes) (hvalue : ZoneValue c value)
    (htimeo : TimeoutArg timeo) :
    SameResult (njsJsExtSharedDictSet c now flags key value timeo z)
        (ngxQjsExtSharedDictSet c true now flags key value timeo z) ↔
      (timeo = none → 2 ^ 32 ≤ c.timeout.toNat → ¬ Stores c flags key value now z) := by
  have hnjs := njsSetArgs_eq hvalue timeo
  have hqjs := qjsSetArgs_eq hvalue timeo
  obtain rfl | ⟨n, hn, rfl⟩ := htimeo
  · -- The timeout of the zone, which only njs keeps in 64 bits.
    rw [njsSet_eq hnjs, qjsExtSet_eq hqjs]
    by_cases hlt : 2 ^ 32 ≤ c.timeout.toNat
    · by_cases hstores : Stores c flags key value now z
      · obtain ⟨z', a, heq⟩ := ngxJsDictSet_stores hstores
        have ht : c.timeout ≠ 0 := by
          rintro h0
          rw [h0] at hlt
          exact absurd hlt (by decide)
        have hne : c.timeout ≠ c.timeout.toUInt32.toUInt64 := fun h =>
          (toUInt32_toUInt64_iff c.timeout).mp h.symm hlt
        simp only [heq]
        exact ⟨fun h => absurd h.1 (setExpire_ne ht hne a z'),
          fun h => absurd hstores (h trivial hlt)⟩
      · obtain ⟨r, heq⟩ := ngxJsDictSet_not_stores hstores
        simp only [heq]
        exact ⟨fun _ _ _ => hstores, fun _ => .refl _⟩
    · rw [(toUInt32_toUInt64_iff c.timeout).mpr hlt]
      exact ⟨fun _ _ h => absurd h hlt, fun _ => .refl _⟩
  · refine ⟨fun _ h => absurd h (by simp), fun _ => ?_⟩
    rw [njsTimeout_ofInt hn] at hnjs
    rw [qjsSetTimeout_ofInt hn] at hqjs
    by_cases ht : c.timeout = 0
    · rw [if_pos ht] at hnjs hqjs
      rw [njsJsExtSharedDictSet, ngxQjsExtSharedDictSet, hnjs, hqjs]
      exact .refl _
    · rw [if_neg ht] at hnjs hqjs
      rw [njsSet_eq hnjs, qjsExtSet_eq hqjs]
      exact .refl _

/-! ### The method `incr()` -/

theorem njsIncr_eq {delta' init' : ν} {timeout : Msec}
    (hargs : njsIncrArgs c delta init timeo = .ok (delta', init', timeout)) :
    njsJsExtSharedDictIncr c now key delta init timeo z =
      ((ngxJsDictIncr c key delta' init' timeout now z).1,
        if (ngxJsDictIncr c key delta' init' timeout now z).2.1 = .ok then
          .ok (.number (ngxJsDictIncr c key delta' init' timeout now z).2.2)
        else .error (.error "failed to increment value in shared dict")) := by
  rw [njsJsExtSharedDictIncr, hargs]
  have hrc := ngxJsDictIncr_rc c key delta' init' timeout now z
  simp only
  rcases hr : ngxJsDictIncr c key delta' init' timeout now z with ⟨z', _ | _ | _, value⟩
  · rfl
  · exact absurd (by rw [hr]) hrc
  · rfl

theorem type_of_qjsIncrArgs {args : ν × ν × UInt32}
    (hargs : qjsIncrArgs c delta init timeo = .ok args) : c.type = .number := by
  by_contra htype
  rw [qjsIncrArgs, if_pos htype] at hargs
  cases hargs

theorem qjsExtIncr_eq {delta' init' : ν}
    (hargs : qjsIncrArgs c delta init timeo = .ok (delta', init', timeout)) :
    ngxQjsExtSharedDictIncr c true now key delta init timeo z =
      ((ngxJsDictIncr c key delta' init' timeout.toUInt64 now z).1,
        if (ngxJsDictIncr c key delta' init' timeout.toUInt64 now z).2.1 = .ok then
          .ok (.number (ngxJsDictIncr c key delta' init' timeout.toUInt64 now z).2.2)
        else .error .sharedMemoryError) := by
  rw [ngxQjsExtSharedDictIncr, hargs]
  exact qjsIncr_eq (type_of_qjsIncrArgs hargs) key delta' init' timeout.toUInt64

theorem incrArgs_agree {delta : JsValue ν} {init timeo : Option (JsValue ν)}
    (hdelta : ∃ x, delta = .number x) (hinit : NumberArg init) (htimeo : TimeoutArg timeo) :
    (∃ e e', njsIncrArgs c delta init timeo = .error e ∧
        qjsIncrArgs c delta init timeo = .error e') ∨
      ∃ delta' init' timeout, njsIncrArgs c delta init timeo =
          .ok (delta', init', UInt32.toUInt64 timeout) ∧
        qjsIncrArgs c delta init timeo = .ok (delta', init', timeout) := by
  obtain ⟨x, rfl⟩ := hdelta
  obtain ⟨y, hnjs, hqjs⟩ : ∃ y : ν, njsInit init = .ok y ∧ qjsInit init = some y := by
    obtain rfl | ⟨y, rfl⟩ := hinit
    · exact ⟨Env.zero, rfl, rfl⟩
    · exact ⟨y, rfl, Env.jsToFloat64_number y⟩
  unfold njsIncrArgs qjsIncrArgs
  by_cases htype : c.type = .number
  swap
  · rw [if_pos htype, if_pos htype]
    exact .inl ⟨_, _, rfl, rfl⟩
  rw [if_neg (not_not.mpr htype), if_neg (not_not.mpr htype)]
  simp only [hnjs, hqjs, Env.jsToFloat64_number]
  obtain rfl | ⟨n, hn, rfl⟩ := htimeo
  · exact .inr ⟨x, y, 0, rfl, rfl⟩
  rw [njsTimeout_ofInt hn, qjsIncrTimeout_ofInt hn]
  by_cases ht : c.timeout = 0
  · rw [if_pos ht, if_pos ht]
    exact .inl ⟨_, _, rfl, rfl⟩
  · rw [if_neg ht, if_neg ht]
    exact .inr ⟨x, y, n, rfl, rfl⟩

theorem incr_agree (key : Bytes) (hdelta : ∃ x, delta = .number x) (hinit : NumberArg init)
    (htimeo : TimeoutArg timeo) :
    SameResult (njsJsExtSharedDictIncr c now key delta init timeo z)
      (ngxQjsExtSharedDictIncr c true now key delta init timeo z) := by
  obtain ⟨e, e', hnjs, hqjs⟩ | ⟨delta', init', timeout, hnjs, hqjs⟩ :=
    incrArgs_agree (c := c) hdelta hinit htimeo
  · rw [njsJsExtSharedDictIncr, ngxQjsExtSharedDictIncr, hnjs, hqjs]
    exact ⟨rfl, trivial⟩
  rw [njsIncr_eq hnjs, qjsExtIncr_eq hqjs]
  refine ⟨rfl, ?_⟩
  simp only
  split
  · exact .refl _
  · trivial

/-! ### The other methods -/

omit [Env ν] in
theorem delete_agree_iff (key : Bytes) :
    SameResult (njsJsExtSharedDictDelete c now key z) (ngxQjsExtSharedDictDelete c now key z) ↔
      ngxJsDictLookup z key ≠ none := by
  unfold njsJsExtSharedDictDelete ngxQjsExtSharedDictDelete ngxJsDictDelete ngxQjsDictDelete
  rw [show ngxQjsDictLookup z key = ngxJsDictLookup z key from rfl]
  cases ngxJsDictLookup z key with
  | none => simp [SameResult, SameOutcome]
  | some a => simp

omit [Env ν] in
theorem pop_agree (key : Bytes) :
    SameResult (njsJsExtSharedDictPop c now key z) (ngxQjsExtSharedDictPop c now key z) := by
  unfold njsJsExtSharedDictPop ngxQjsExtSharedDictPop ngxJsDictDelete ngxQjsDictDelete
  rw [show ngxQjsDictLookup z key = ngxJsDictLookup z key from rfl]
  cases ngxJsDictLookup z key with
  | none => exact .refl _
  | some a =>
    simp only [if_true, copyValue_eq]
    split <;> exact .refl _

theorem size_agree_iff :
    SameOutcome (njsJsExtSharedDictSize c now z) (ngxQjsExtSharedDictSize c now z) ↔
      liveCount c now z < 2 ^ 31 := by
  simp only [njsJsExtSharedDictSize, ngxQjsExtSharedDictSize, SameOutcome, JsValue.number.injEq]
  constructor
  · intro h
    by_contra hlt
    refine Env.ofInt_ne _ _ ?_ ?_ h.symm
    · have := @Int.bmod_lt (liveCount c now z) (2 ^ 32) (by decide)
      omega
    · exact_mod_cast not_lt.mp hlt
  · intro h
    rw [Int.bmod_eq_of_le] <;> omega

/-- For well-typed calls the two bindings leave the same zone and return the same value, or both
throw, exactly where none of the three differences is met. -/
theorem bindings_agree_iff (now : Msec) (z : Zone ν) {call : Call ν} (h : WellTyped c call) :
    SameResult (njsCall c now call z) (qjsCall c true now call z) ↔ AgreeOn c now z call := by
  cases call with
  | get key => exact iff_of_true ⟨rfl, (qjsGet_eq c key now z).symm⟩ trivial
  | has key => exact iff_of_true (.refl _) trivial
  | ttl key => exact iff_of_true (.refl _) trivial
  | keys maxCount =>
    obtain ⟨n, hnjs, hqjs⟩ := maxCount_eq h
    refine iff_of_true ?_ trivial
    simp [njsCall, qjsCall, njsJsExtSharedDictKeys, ngxQjsExtSharedDictKeys, hnjs, hqjs, Except.map]
  | items maxCount =>
    obtain ⟨n, hnjs, hqjs⟩ := maxCount_eq h
    refine iff_of_true ?_ trivial
    simp [njsCall, qjsCall, njsJsExtSharedDictItems, ngxQjsExtSharedDictItems, hnjs, hqjs,
      Except.map]
  | size => exact (and_iff_right rfl).trans size_agree_iff
  | set flags key value timeo => exact set_agree_iff flags key h.1 h.2
  | incr key delta init timeo => exact iff_of_true (incr_agree key h.1 h.2.1 h.2.2) trivial
  | delete key => exact delete_agree_iff key
  | pop key => exact iff_of_true (pop_agree key) trivial
  | clear => exact iff_of_true (.refl _) trivial

/-- The bindings agree on `set('a', 'b')` in an empty zone. -/
theorem bindings_agree_set : SameResult
      (njsCall minuteConf 0 (.set .none [97] (.string [98]) none) (Zone.init blankNode))
      (qjsCall minuteConf true 0 (.set .none [97] (.string [98]) none) (Zone.init blankNode)) := by
  have htyped : WellTyped minuteConf (.set .none [97] (.string [98]) none : Call JsNumber) :=
    ⟨⟨[98], rfl⟩, .inl rfl⟩
  exact (bindings_agree_iff 0 (Zone.init blankNode) htyped).mpr fun _ h => absurd h (by decide)

/-- The deletion of a key that is not there returns `false` to njs and `undefined` to
QuickJS. -/
theorem bindings_differ_delete : WellTyped minuteConf (.delete [97] : Call JsNumber) ∧
    ¬ SameResult (njsCall minuteConf 0 (.delete [97]) (Zone.init blankNode))
      (qjsCall minuteConf true 0 (.delete [97]) (Zone.init blankNode)) := by
  refine ⟨trivial, fun h => ?_⟩
  have hvalue : (JsValue.boolean false : JsValue JsNumber) = .undefined := h.2
  exact absurd hvalue (by decide)

end Njs.SharedDict
