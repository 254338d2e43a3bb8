import Njs.WebCrypto.Representation

/-!
# The usages of keys

What a key may be used for, over a run of calls: its usages are among those that were asked for and
that its algorithm and kind allow, and a call succeeds only with a key that has the usage of the
name of the call.
-/

namespace Njs.WebCrypto

open Text
open StateExcept
open Runs (AllSteps)

variable {env : Env} {m : Memory} {keys : List Key} {key : Key}

/-! ### Conditions on results -/

section Ok

variable {α β : Type} {x : M α} {P Q : α → Memory → Prop}

/-- The result meets a condition, if there is a result. -/
def Ok (m : Memory) (x : M α) (P : α → Memory → Prop) : Prop := Post x m P fun _ => True

theorem Safe.ok (h : Safe m x P) : Ok m x P := Post.mono h (fun _ _ ha => ha.2) fun _ _ => trivial

theorem Ok.pure {a : α} (h : P a m) : Ok m (pure a) P := h

theorem Ok.throw {f : Fault} : Ok m (throw f) P := trivial

theorem Ok.mono (h : Ok m x P) (hpq : ∀ a t, P a t → Q a t) : Ok m x Q :=
  Post.mono h hpq fun _ _ => trivial

theorem Ok.bind {f : α → M β} {R : β → Memory → Prop} (h : Ok m x P)
    (hf : ∀ a t, P a t → Ok t (f a) R) : Ok m (x >>= f) R := Post.bind h hf

theorem Ok.map {f : α → β} {R : β → Memory → Prop} (h : Ok m x P)
    (hf : ∀ a t, P a t → R (f a) t) : Ok m (f <$> x) R := by
  rw [map_eq_pure_bind]
  exact h.bind fun a t ha => Ok.pure (hf a t ha)

theorem Ok.of_run {a : α} {t : Memory} (h : Ok m x P) (hrun : x.run m = .ok (a, t)) : P a t :=
  Post.of_run h hrun

theorem Ok.true : Ok m x fun _ _ => True := by
  unfold Ok Post
  rcases x.run m with f | ⟨a, t⟩ <;> trivial

theorem Ok.after {f : α → M β} {R : β → Memory → Prop} (hf : ∀ a t, Ok t (f a) R) :
    Ok m (x >>= f) R := Ok.true.bind fun a t _ => hf a t

theorem Ok.ite {c : Prop} [Decidable c] {y : M α} (hx : c → Ok m x P) (hy : ¬c → Ok m y P) :
    Ok m (if c then x else y) P := by
  split_ifs with h
  · exact hx h
  · exact hy h

theorem Ok.run : Ok m x fun a t => x.run m = .ok (a, t) := by
  unfold Ok Post
  rcases x.run m with f | ⟨a, t⟩
  · trivial
  · rfl

theorem Ok.gives : Ok m x fun a _ => Gives x a := Ok.run.mono fun _ t h => ⟨m, t, h⟩

theorem Ok.and (hp : Ok m x P) (hq : Ok m x Q) : Ok m x fun a t => P a t ∧ Q a t := by
  unfold Ok Post at hp hq ⊢
  generalize x.run m = r at hp hq ⊢
  rcases r with f | ⟨a, t⟩
  · trivial
  · exact ⟨hp, hq⟩

end Ok

/-! ### What is allowed -/

/-- The usages of the keys of an algorithm, by their kind. -/
def Alg.allows : Alg → Kind → Finset Usage
  | .rsassaPkcs1V15, .privateKey | .rsaPss, .privateKey | .ecdsa, .privateKey
  | .ed25519, .privateKey => {.sign}
  | .rsassaPkcs1V15, _ | .rsaPss, _ | .ecdsa, _ | .ed25519, _ => {.verify}
  | .rsaOaep, .privateKey => {.decrypt, .unwrapKey}
  | .rsaOaep, _ => {.encrypt, .wrapKey}
  | .ecdh, .privateKey | .x25519, .privateKey => {.deriveKey, .deriveBits}
  | .ecdh, _ | .x25519, _ => ∅
  | .hmac, _ => {.sign, .verify}
  | .aesGcm, _ | .aesCtr, _ | .aesCbc, _ => {.encrypt, .decrypt, .wrapKey, .unwrapKey}
  | .aesKw, _ => {.wrapKey, .unwrapKey}
  | .pbkdf2, _ | .hkdf, _ => {.deriveKey, .deriveBits}

def Call.keyUsages : Call → Option Value
  | .derive true _ _ _ _ keyUsages | .generateKey _ _ keyUsages _ | .importKey _ _ _ _ keyUsages
  | .unwrapKey _ _ _ _ _ _ keyUsages => some keyUsages
  | _ => none

def Call.uses : Call → Option (Value × Usage)
  | .cipher encrypt _ key _ => some (key, if encrypt then .encrypt else .decrypt)
  | .sign verify _ key _ _ => some (key, if verify then .verify else .sign)
  | .derive deriveKey _ baseKey _ _ _ =>
    some (baseKey, if deriveKey then .deriveKey else .deriveBits)
  | .wrapKey _ _ wrappingKey _ => some (wrappingKey, .wrapKey)
  | .unwrapKey _ _ unwrappingKey _ _ _ _ => some (unwrappingKey, .unwrapKey)
  | _ => none

def Call.exports : Call → Option (Value × Value)
  | .exportKey fmt key | .wrapKey fmt key _ _ => some (fmt, key)
  | _ => none

variable (env) in
/-- What a call that has succeeded has done. -/
structure Call.Granted (keys : List Key) (c : Call) (r : Result) : Prop where
  created : ∀ key ∈ r.keys, key.usage ⊆ key.alg.allows key.kind ∧
    ∃ keyUsages usage, c.keyUsages = some keyUsages ∧ Gives (njsKeyUsage env keyUsages) usage ∧
      key.usage ⊆ usage
  used : ∀ value usage, c.uses = some (value, usage) →
    ∃ key, IsKey keys value key ∧ usage ∈ key.usage
  exported : ∀ fmt value, c.exports = some (fmt, value) →
    ∃ format key, Gives (njsKeyFormat env fmt) format ∧ IsKey keys value key ∧
      key.extractable = true ∧ format ∈ key.alg.fmt

/-- The usages that the keys of a generated pair have, whichever were asked for. -/
def Alg.pairUsage : Alg → Finset Usage
  | .rsassaPkcs1V15 | .rsaPss | .ecdsa => {.sign, .verify}
  | .rsaOaep => {.encrypt, .decrypt}
  | _ => ∅

variable (env) in
/-- The calls that keep to the usages: nothing is encrypted or decrypted with AES-KW; the usages of
a generated pair have all been asked for, and it is none of ECDH; a key of ECDH or X25519 is
imported with usages only if it is private; what is derived from one is a key of bytes; and a key is
wrapped as a JSON Web Key or in a format of its algorithm. -/
def Call.Regular (w : World) : Call → Prop
  | .cipher _ options _ _ => ¬Gives (njsKeyAlgorithm env options) .aesKw
  | .generateKey aobject _ keyUsages _ => ∀ alg usage, Gives (njsKeyAlgorithm env aobject) alg →
    Gives (njsKeyUsage env keyUsages) usage → alg.pairUsage ⊆ usage ∧ alg ≠ .ecdh
  | .importKey fmt keyData options _ keyUsages => ∀ format alg usage,
    Gives (njsKeyFormat env fmt) format → Gives (njsKeyAlgorithm env options) alg →
      Gives (njsKeyUsage env keyUsages) usage → alg = .ecdh ∨ alg = .x25519 →
        usage = ∅ ∨ ImportsPrivate format keyData
  | .unwrapKey fmt data unwrappingKey options keyAlg _ keyUsages => ∀ format alg usage keyData t,
    (unwrapped env w.keys fmt data unwrappingKey options keyAlg keyUsages).run w.memory =
      .ok ((format, alg, usage, keyData), t) → alg = .ecdh ∨ alg = .x25519 →
        usage = ∅ ∨ ImportsPrivate format keyData
  | .derive true _ baseKey dobject _ _ => ∀ key alg, IsKey w.keys baseKey key →
    key.alg = .ecdh ∨ key.alg = .x25519 → Gives (njsKeyAlgorithm env dobject) alg → alg.raw = true
  | .wrapKey fmt key _ _ => ∀ format k, Gives (njsKeyFormat env fmt) format →
    IsKey w.keys key k → format = .jwk ∨ format ∈ k.alg.fmt
  | _ => True

/-! ### Usages that are asked for -/

/-- No name of a usage stands for `generateKey`. -/
theorem ok_njsKeyUsage (keyUsages : Value) :
    Ok m (njsKeyUsage env keyUsages) fun usage _ => .generateKey ∉ usage := by
  have hfold (elements : List Value) (mask : Finset Usage) (h : .generateKey ∉ mask)
      (m : Memory) : Ok m (elements.foldlM (njsKeyUsageArrayHandler env) mask)
        fun usage _ => .generateKey ∉ usage := by
    induction elements generalizing mask m with
    | nil => exact Ok.pure h
    | cons value elements ih =>
      have hhandler : Ok m (njsKeyUsageArrayHandler env mask value)
          fun usage _ => .generateKey ∉ usage := by
        refine Ok.after fun u t => Safe.ok (Safe.bind (Safe.orFail (by simp)) ?_)
        intro usage _ _ husage
        refine Safe.pure ?_
        have hne : usage ≠ .generateKey := by
          rintro rfl
          exact absurd (mem_of_entry husage) (by decide)
        simp [h, hne.symm]
      rw [List.foldlM_cons]
      exact hhandler.bind fun mask' t h' => ih mask' h' t
  cases keyUsages with
  | array elements => exact hfold elements ∅ (by simp) m
  | _ => exact Ok.throw

variable {usage : Finset Usage} {alg : Alg} {keyData : Value}

theorem Gives.generateKey_notMem {keyUsages : Value} (h : Gives (njsKeyUsage env keyUsages) usage) :
    .generateKey ∉ usage := by
  obtain ⟨m, t, hrun⟩ := h
  exact (ok_njsKeyUsage keyUsages).of_run hrun

theorem allows_of_raw {kind : Kind} (hraw : alg.raw = true) (hsub : usage ⊆ alg.usage)
    (hgen : .generateKey ∉ usage) : usage ⊆ alg.allows kind := by
  have htable : alg.usage.erase .generateKey ⊆ alg.allows kind := by
    revert hraw
    cases alg <;> cases kind <;> decide
  exact (Finset.subset_erase.2 ⟨hsub, hgen⟩).trans htable

/-! ### New keys -/

theorem Made.allowed {fmt : Format} {extractable : Bool}
    (h : Made fmt keyData alg usage extractable key m) (hgen : .generateKey ∉ usage)
    (hregular : alg = .ecdh ∨ alg = .x25519 → usage = ∅ ∨ ImportsPrivate fmt keyData) :
    usage ⊆ alg.allows key.kind := by
  have halg := h.alg_eq
  have husage : usage ⊆ alg.usage.erase .generateKey :=
    Finset.subset_erase.2 ⟨h.usage_subset, hgen⟩
  rcases hraw : alg.raw with _ | _
  · obtain ⟨pkey, privat, curve, hu⟩ := h.wellFormed.pkey (by rw [halg, hraw])
    have hkind : key.kind = if privat then .privateKey else .publicKey := by
      rw [Key.kind, halg, hraw, hu]
      cases privat <;> rfl
    have hmask : usage ⊆ alg.usage.erase .generateKey \ kindMask alg privat :=
      Finset.subset_sdiff.2 ⟨husage, h.kind _ _ _ hu⟩
    by_cases hpublic : (alg = .ecdh ∨ alg = .x25519) ∧ privat = false
    · rcases hregular hpublic.1 with rfl | himports
      · exact Finset.empty_subset _
      · rw [h.isPrivate hraw himports, hpublic.2] at hkind
        cases hkind
    · refine hmask.trans ?_
      rw [hkind]
      revert hraw hpublic
      cases alg <;> cases privat <;> decide
  · exact allows_of_raw hraw h.usage_subset hgen

theorem generatedUsage_subset (hraw : alg.raw = false) (halg : alg ≠ .ecdh) (usage : Finset Usage)
    (kind : Kind) : generatedUsage alg usage kind ⊆ alg.allows kind ∩ (alg.pairUsage ∪ usage) := by
  intro u hu
  revert hraw halg hu
  cases alg <;> cases kind <;> simp [generatedUsage, Alg.allows, Alg.raw, Alg.pairUsage] <;> tauto

theorem GeneratedKey.allowed {sized : Prop} {extractable : Bool}
    (h : GeneratedKey sized alg usage extractable key m) (hgen : .generateKey ∉ usage)
    (hpair : alg.pairUsage ⊆ usage) (halg : alg ≠ .ecdh) :
    key.usage ⊆ alg.allows key.kind ∧ key.usage ⊆ usage := by
  have hsub := h.usage_subset
  rw [h.usage_eq] at hsub ⊢
  rcases hraw : alg.raw with _ | _
  · have hown := generatedUsage_subset hraw halg usage key.kind
    rw [Finset.union_eq_right.2 hpair] at hown
    exact ⟨hown.trans Finset.inter_subset_left, hown.trans Finset.inter_subset_right⟩
  · have hown : generatedUsage alg usage key.kind = usage := by
      revert hraw
      cases alg <;> simp [generatedUsage, Alg.raw]
    rw [hown] at hsub ⊢
    exact ⟨allows_of_raw hraw hsub hgen, subset_rfl⟩

/-! ### Calls without new keys -/

theorem ok_freshBuffer (bytes : List UInt8) : Ok m (freshBuffer bytes) fun r _ => r.keys = [] :=
  (noKeys_freshBuffer bytes m).ok

theorem ok_njsVmExternal (value : Value) (message : String) :
    Ok m (njsVmExternal keys value message) fun key _ => IsKey keys value key :=
  (safe_njsVmExternal keys value message).ok

theorem ok_requireUsage (key : Key) (usage : Usage) (message : String) :
    Ok m (requireUsage key usage message) fun _ _ => usage ∈ key.usage :=
  (safe_requireUsage key usage message).ok

theorem Ok.failIf {c : Prop} [Decidable c] {f : Fault} : Ok m (failIf c f) fun _ _ => ¬c :=
  Ok.ite (fun _ => Ok.throw) fun h => Ok.pure h

theorem ok_njsExtCipher (encrypt : Bool) (options value data : Value) :
    Ok m (njsExtCipher env keys encrypt options value data) fun r _ => r.keys = [] ∧
      ∃ alg key, Gives (njsKeyAlgorithm env options) alg ∧ IsKey keys value key ∧
        cipherUsage alg encrypt ∈ key.usage := by
  unfold njsExtCipher
  refine Ok.gives.bind fun alg _ halg => (ok_njsVmExternal value _).bind fun key _ hkey => ?_
  refine (ok_requireUsage key _ _).bind fun _ _ husage => ?_
  refine Ok.after fun _ _ => Ok.after fun bytes _ => Ok.after fun dst _ => ?_
  exact (ok_freshBuffer dst).mono fun r _ hr => ⟨hr, alg, key, halg, hkey, husage⟩

theorem ok_signAlgorithm (verify : Bool) (alg : Alg) (options : Value) (key : Key)
    (sig data : List UInt8) :
    Ok m (signAlgorithm env verify alg options key sig data) fun r _ => r.keys = [] := by
  unfold signAlgorithm
  split
  · refine Ok.after fun pkey _ => Ok.ite (fun _ => ?_) fun _ => ?_
    · exact Ok.after fun ok _ => Ok.pure rfl
    · exact Ok.after fun dst _ => ok_freshBuffer dst
  · refine Ok.after fun raw _ => Ok.after fun bytes _ => Ok.after fun dst _ => ?_
    exact Ok.ite (fun _ => Ok.pure rfl) fun _ => ok_freshBuffer dst
  · refine Ok.after fun md _ => Ok.after fun pkey _ => Ok.after fun saltLength _ => ?_
    refine Ok.ite (fun _ => ?_) fun _ => ?_
    · exact Ok.after fun ok _ => Ok.pure rfl
    · exact Ok.after fun dst _ => ok_freshBuffer _

theorem ok_njsExtSign (verify : Bool) (options value sig data : Value) :
    Ok m (njsExtSign env keys verify options value sig data) fun r _ => r.keys = [] ∧
      ∃ key, IsKey keys value key ∧ (if verify then .verify else .sign) ∈ key.usage := by
  unfold njsExtSign
  refine Ok.after fun alg _ => (ok_njsVmExternal value _).bind fun key _ hkey => ?_
  refine (ok_requireUsage key _ _).bind fun _ _ husage => ?_
  refine Ok.after fun _ _ => Ok.after fun sigBytes _ => Ok.after fun bytes _ => ?_
  exact (ok_signAlgorithm verify alg options key sigBytes bytes).mono
    fun r _ hr => ⟨hr, key, hkey, husage⟩

/-! ### Exported keys -/

theorem ok_exportPkcs8 (key : Key) : Ok m (exportPkcs8 env key) fun r _ => r.keys = [] := by
  unfold exportPkcs8
  refine Ok.after fun privat _ => Ok.after fun _ _ => Ok.after fun pkey _ => ?_
  exact Ok.after fun bytes _ => ok_freshBuffer bytes

theorem ok_exportSpki (key : Key) : Ok m (exportSpki env key) fun r _ => r.keys = [] := by
  unfold exportSpki
  refine Ok.after fun privat _ => Ok.after fun _ _ => Ok.after fun pkey _ => ?_
  exact Ok.after fun bytes _ => ok_freshBuffer bytes

theorem ok_exportRaw (key : Key) : Ok m (exportRaw env key) fun r _ => r.keys = [] := by
  have hec : Ok m (njsExportRawEc env key) fun r _ => r.keys = [] := by
    unfold njsExportRawEc
    refine Ok.after fun pkey _ => Ok.after fun privat _ => Ok.after fun _ _ => ?_
    exact Ok.after fun bytes _ => ok_freshBuffer bytes
  unfold exportRaw
  split
  · exact hec
  · exact hec
  · exact Ok.after fun pkey _ => Ok.after fun bytes _ => ok_freshBuffer bytes
  · exact Ok.after fun pkey _ => Ok.after fun bytes _ => ok_freshBuffer bytes
  · exact Ok.after fun raw _ => Ok.pure rfl

theorem ok_exportJwk (key : Key) : Ok m (exportJwk env key) fun _ _ => .jwk ∈ key.alg.fmt := by
  unfold exportJwk
  cases key.alg with
  | pbkdf2 | hkdf => exact Ok.throw
  | _ => exact Ok.true.mono fun _ _ _ => by decide

theorem ok_njsWebcryptoExportKeyRaw (key : Key) {format : Format}
    (hformat : format = .jwk ∨ format ∈ key.alg.fmt) :
    Ok m (njsWebcryptoExportKeyRaw env key format)
      fun r _ => r.keys = [] ∧ format ∈ key.alg.fmt := by
  cases format with
  | jwk => exact (ok_exportJwk key).map fun v _ h => ⟨rfl, h⟩
  | pkcs8 => exact (ok_exportPkcs8 key).mono fun r _ hr => ⟨hr, hformat.resolve_left (by simp)⟩
  | spki => exact (ok_exportSpki key).mono fun r _ hr => ⟨hr, hformat.resolve_left (by simp)⟩
  | raw => exact (ok_exportRaw key).mono fun r _ hr => ⟨hr, hformat.resolve_left (by simp)⟩

theorem ok_njsExtExportKey (fmt value : Value) :
    Ok m (njsExtExportKey env keys fmt value) fun r _ => r.keys = [] ∧
      ∃ format key, Gives (njsKeyFormat env fmt) format ∧ IsKey keys value key ∧
        key.extractable = true ∧ format ∈ key.alg.fmt := by
  unfold njsExtExportKey
  refine Ok.gives.bind fun format _ hformat => (ok_njsVmExternal value _).bind fun key _ hkey => ?_
  refine Ok.failIf.bind fun _ _ hfmt => Ok.failIf.bind fun _ _ hextractable => ?_
  refine (ok_njsWebcryptoExportKeyRaw key (Or.inr (not_not.1 hfmt))).mono fun r _ hr => ?_
  exact ⟨hr.1, format, key, hformat, hkey, not_not.1 hextractable, hr.2⟩

/-- What `wrapKey` has checked: the usage of the wrapping key, and that the key is extractable. -/
theorem ok_njsExtWrapKey (fmt value wrappingValue options : Value)
    (hregular : ∀ format key, Gives (njsKeyFormat env fmt) format → IsKey keys value key →
      format = .jwk ∨ format ∈ key.alg.fmt) :
    Ok m (njsExtWrapKey env keys fmt value wrappingValue options) fun r _ => r.keys = [] ∧
      (∃ key, IsKey keys wrappingValue key ∧ .wrapKey ∈ key.usage) ∧
      ∃ format key, Gives (njsKeyFormat env fmt) format ∧ IsKey keys value key ∧
        key.extractable = true ∧ format ∈ key.alg.fmt := by
  unfold njsExtWrapKey
  refine Ok.gives.bind fun format _ hformat => (ok_njsVmExternal value _).bind fun key _ hkey => ?_
  refine (ok_njsVmExternal wrappingValue _).bind fun wrappingKey _ hwrapping => ?_
  refine Ok.after fun alg _ => Ok.failIf.bind fun _ _ hextractable => ?_
  refine (ok_requireUsage wrappingKey _ _).bind fun _ _ husage => Ok.after fun _ _ => ?_
  refine (ok_njsWebcryptoExportKeyRaw key (hregular format key hformat hkey)).bind
    fun exported _ hexported => ?_
  refine Ok.after fun data _ => Ok.after fun dst _ => (ok_freshBuffer dst).mono fun r _ hr => ?_
  exact ⟨hr, ⟨wrappingKey, hwrapping, husage⟩, format, key, hformat, hkey,
    not_not.1 hextractable, hexported.2⟩

/-! ### Calls that make keys -/

theorem ok_derived (dalg : Option Alg) (usage : Finset Usage) (k : Slice)
    (dobject extractable : Value) :
    Ok m (derived env dalg dobject usage extractable k) fun r _ =>
      r.All fun key => dalg = some key.alg ∧ key.usage = usage := by
  rcases dalg with _ | dalg
  · exact Ok.pure fun key hkey => by cases hkey
  · refine Ok.after fun hash _ => Ok.pure fun key hkey => ?_
    obtain rfl := List.mem_singleton.1 hkey
    exact ⟨rfl, rfl⟩

theorem ok_derivedLength (deriveKey : Bool) (dobject : Value) :
    Ok m (derivedLength env deriveKey dobject) fun r _ => ∀ dalg, r.1 = some dalg →
      deriveKey = true ∧ Gives (njsKeyAlgorithm env dobject) dalg := by
  unfold derivedLength
  refine Ok.ite (fun h => ?_) fun _ => ?_
  · refine Ok.gives.bind fun dalg _ hdalg => Ok.after fun length _ => Ok.pure ?_
    rintro _ ⟨⟩
    exact ⟨h, hdalg⟩
  · exact Ok.after fun length _ => Ok.pure (by simp)

variable (env) in
def DerivedKey (deriveKey : Bool) (keyUsages : Value) (key : Key) : Prop :=
  deriveKey = true ∧ Gives (njsKeyUsage env keyUsages) key.usage ∧
    key.usage ⊆ key.alg.allows key.kind

variable {extractable : Value} {deriveKey : Bool} {w : World}

theorem ok_derived_allowed {dalg : Option Alg} {keyUsages : Value}
    (hderive : ∀ alg, dalg = some alg → deriveKey = true ∧ alg.raw = true)
    (husage : ∀ alg, dalg = some alg → usage ⊆ alg.usage ∧ Gives (njsKeyUsage env keyUsages) usage)
    (k : Slice) (dobject extractable : Value) :
    Ok m (derived env dalg dobject usage extractable k) fun r _ =>
      r.All (DerivedKey env deriveKey keyUsages) := by
  refine (ok_derived dalg usage k dobject extractable).mono fun r _ hr key hkey => ?_
  obtain ⟨hdalg, rfl⟩ := hr key hkey
  obtain ⟨hsub, hgives⟩ := husage key.alg hdalg
  refine ⟨(hderive key.alg hdalg).1, hgives, ?_⟩
  exact allows_of_raw (hderive key.alg hdalg).2 hsub hgives.generateKey_notMem

theorem ok_njsExtDeriveEcdh {dobject : Value}
    (hregular : deriveKey = true → ∀ alg, Gives (njsKeyAlgorithm env dobject) alg → alg.raw = true)
    (aobject extractable keyUsages : Value) (key : Key) :
    Ok m (njsExtDeriveEcdh env keys deriveKey aobject dobject extractable keyUsages key)
      fun r _ => r.All (DerivedKey env deriveKey keyUsages) := by
  unfold njsExtDeriveEcdh
  refine (ok_derivedLength deriveKey dobject).bind fun r _ hr => ?_
  refine (safe_derivedUsage r.1 keyUsages _).ok.bind fun usage _ husage => ?_
  refine Ok.after fun pub _ => Ok.after fun priv _ => Ok.after fun secret _ => ?_
  refine Ok.after fun _ _ => Ok.after fun k _ => ?_
  refine ok_derived_allowed (fun alg halg => ⟨(hr alg halg).1, ?_⟩) husage _ dobject extractable
  exact hregular (hr alg halg).1 alg (hr alg halg).2

theorem ok_deriveRaw (deriveKey : Bool) (alg : Alg)
    (aobject dobject extractable keyUsages : Value) (key : Key) :
    Ok m (deriveRaw env deriveKey alg aobject dobject extractable keyUsages key)
      fun r _ => r.All (DerivedKey env deriveKey keyUsages) := by
  unfold deriveRaw
  refine (ok_derivedLength deriveKey dobject).bind fun r _ hr => ?_
  refine (safe_checkDerivedAlgorithm r.1 r.2).ok.bind fun _ _ hraw => ?_
  refine (safe_derivedUsage r.1 keyUsages _).ok.bind fun usage _ husage => ?_
  refine Ok.after fun _ _ => Ok.after fun k _ => ?_
  exact ok_derived_allowed (fun alg halg => ⟨(hr alg halg).1, (hraw alg halg).1⟩) husage _ dobject
    extractable

theorem ok_njsExtDerive {aobject baseKey dobject keyUsages : Value}
    (hregular : (Call.derive deriveKey aobject baseKey dobject extractable keyUsages).Regular env w)
      :
    Ok m (njsExtDerive env w.keys deriveKey aobject baseKey dobject extractable keyUsages)
      fun r _ => r.All (DerivedKey env deriveKey keyUsages) ∧
        ∃ key, IsKey w.keys baseKey key ∧
          (if deriveKey then .deriveKey else .deriveBits) ∈ key.usage := by
  unfold njsExtDerive
  refine Ok.after fun alg _ => (ok_njsVmExternal baseKey _).bind fun key _ hkey => ?_
  refine (ok_requireUsage key _ _).bind fun _ _ husage => ?_
  refine (safe_requireAlg key alg _).ok.bind fun _ _ halg => ?_
  obtain rfl := halg
  refine Ok.mono (P := fun r _ => r.All (DerivedKey env deriveKey keyUsages)) ?_
    fun r _ hr => ⟨hr, key, hkey, husage⟩
  refine Ok.ite (fun hecdh => ?_) fun _ => ok_deriveRaw deriveKey key.alg _ _ _ _ key
  refine ok_njsExtDeriveEcdh (fun hderive alg halg => ?_) aobject extractable keyUsages key
  subst hderive
  exact hregular key alg hkey hecdh halg

variable (env) in
def NewKey (keyUsages : Value) (key : Key) : Prop :=
  key.usage ⊆ key.alg.allows key.kind ∧
    ∃ usage, Gives (njsKeyUsage env keyUsages) usage ∧ key.usage ⊆ usage

theorem DerivedKey.newKey {keyUsages : Value} (h : DerivedKey env deriveKey keyUsages key) :
    NewKey env keyUsages key :=
  ⟨h.2.2, key.usage, h.2.1, subset_rfl⟩

theorem Made.newKey {fmt : Format} {extractable : Bool}
    (h : Made fmt keyData alg usage extractable key m) {keyUsages : Value}
    (hgives : Gives (njsKeyUsage env keyUsages) usage)
    (hregular : alg = .ecdh ∨ alg = .x25519 → usage = ∅ ∨ ImportsPrivate fmt keyData) :
    NewKey env keyUsages key := by
  have hallowed := h.allowed hgives.generateKey_notMem hregular
  rw [← h.usage_eq, ← h.alg_eq] at hallowed
  exact ⟨hallowed, usage, hgives, h.usage_eq.subset⟩

theorem ok_njsExtGenerateKey {aobject keyUsages : Value} {seed : ℕ}
    (hregular : (Call.generateKey aobject extractable keyUsages seed).Regular env w) :
    Ok m (njsExtGenerateKey env aobject extractable keyUsages seed)
      fun r _ => r.result.All (NewKey env keyUsages) := by
  refine (safe_njsExtGenerateKey aobject extractable keyUsages seed).ok.mono fun r _ hr => ?_
  obtain ⟨alg, usage, halg, husage, hall⟩ := hr
  obtain ⟨hpair, hne⟩ := hregular alg usage halg husage
  intro key hkey
  have hgenerated := hall.result key hkey
  obtain ⟨hallowed, hsub⟩ := hgenerated.allowed husage.generateKey_notMem hpair hne
  rw [← hgenerated.alg_eq] at hallowed
  exact ⟨hallowed, usage, husage, hsub⟩

theorem ok_njsExtImportKey {fmt options keyUsages : Value}
    (hregular : (Call.importKey fmt keyData options extractable keyUsages).Regular env w) :
    Ok m (njsExtImportKey env fmt keyData options extractable keyUsages)
      fun r _ => r.All (NewKey env keyUsages) := by
  refine (safe_njsExtImportKey fmt keyData options extractable keyUsages).ok.mono fun r _ hr => ?_
  obtain ⟨format, alg, usage, hformat, halg, husage, hall⟩ := hr
  exact fun key hkey =>
    (hall key hkey).newKey husage (hregular format alg usage hformat halg husage)

theorem ok_unwrapped (fmt data unwrappingKey options keyAlg keyUsages : Value) :
    Ok m (unwrapped env keys fmt data unwrappingKey options keyAlg keyUsages) fun r _ =>
      Gives (njsKeyUsage env keyUsages) r.2.2.1 ∧
        ∃ key, IsKey keys unwrappingKey key ∧ .unwrapKey ∈ key.usage := by
  unfold unwrapped
  refine Ok.after fun format _ => Ok.after fun bytes _ => ?_
  refine (ok_njsVmExternal unwrappingKey _).bind fun key _ hkey => ?_
  refine Ok.after fun alg _ => Ok.after fun importAlg _ => Ok.gives.bind fun usage _ husage => ?_
  refine (ok_requireUsage key _ _).bind fun _ _ hunwrap => Ok.after fun _ _ => ?_
  refine Ok.after fun decrypted _ => Ok.after fun keyData _ => Ok.pure ?_
  exact ⟨husage, key, hkey, hunwrap⟩

theorem ok_njsExtUnwrapKey {fmt data unwrappingKey options keyAlg keyUsages : Value}
    (hregular : (Call.unwrapKey fmt data unwrappingKey options keyAlg extractable keyUsages).Regular
      env w) :
    Ok w.memory (njsExtUnwrapKey env w.keys fmt data unwrappingKey options keyAlg extractable
      keyUsages) fun r _ => r.All (NewKey env keyUsages) ∧
        ∃ key, IsKey w.keys unwrappingKey key ∧ .unwrapKey ∈ key.usage := by
  unfold njsExtUnwrapKey
  refine ((ok_unwrapped fmt data unwrappingKey options keyAlg keyUsages).and Ok.run).bind ?_
  rintro ⟨format, alg, usage, keyData⟩ t ⟨⟨husage, hkey⟩, hrun⟩
  refine (safe_njsWebcryptoImportKeyInternal format keyData alg keyAlg _ usage).ok.map
    fun key _ hmade => ⟨fun k hk => ?_, hkey⟩
  obtain rfl := List.mem_singleton.1 hk
  exact hmade.newKey husage (hregular format alg usage keyData t hrun)

/-! ### Runs -/

theorem Call.Regular.granted {c : Call} (h : c.Regular env w) :
    Ok w.memory (c.run env w.keys) fun r _ => c.Granted env w.keys r := by
  have hnone {r : Result} (hr : r.keys = []) (P : Key → Prop) : ∀ key ∈ r.keys, P key := by
    simp [hr]
  cases c with
  | cipher encrypt options value data =>
    refine (ok_njsExtCipher encrypt options value data).mono fun r _ hr => ?_
    obtain ⟨hkeys, alg, key, halg, hkey, husage⟩ := hr
    refine ⟨hnone hkeys _, ?_, by simp [Call.exports]⟩
    rintro _ _ ⟨⟩
    rw [cipherUsage, if_neg (by rintro rfl; exact h halg)] at husage
    exact ⟨key, hkey, husage⟩
  | sign verify options value sig data =>
    refine (ok_njsExtSign verify options value sig data).mono fun r _ hr => ?_
    refine ⟨hnone hr.1 _, ?_, by simp [Call.exports]⟩
    rintro _ _ ⟨⟩
    exact hr.2
  | derive deriveKey aobject baseKey dobject extractable keyUsages =>
    refine (ok_njsExtDerive h).mono fun r _ hr => ⟨fun key hkey => ?_, ?_, by simp [Call.exports]⟩
    · have hderived := hr.1 key hkey
      obtain ⟨hallows, hasked⟩ := hderived.newKey
      obtain rfl := hderived.1
      exact ⟨hallows, keyUsages, hasked.imp fun usage husage => ⟨rfl, husage⟩⟩
    · rintro _ _ ⟨⟩
      exact hr.2
  | generateKey aobject extractable keyUsages seed =>
    refine (ok_njsExtGenerateKey h).map fun r _ hr =>
      ⟨fun key hkey => ?_, by simp [Call.uses], by simp [Call.exports]⟩
    obtain ⟨hallows, hasked⟩ := hr key hkey
    exact ⟨hallows, keyUsages, hasked.imp fun usage husage => ⟨rfl, husage⟩⟩
  | importKey fmt keyData options extractable keyUsages =>
    refine (ok_njsExtImportKey h).mono fun r _ hr =>
      ⟨fun key hkey => ?_, by simp [Call.uses], by simp [Call.exports]⟩
    obtain ⟨hallows, hasked⟩ := hr key hkey
    exact ⟨hallows, keyUsages, hasked.imp fun usage husage => ⟨rfl, husage⟩⟩
  | exportKey fmt value =>
    refine (ok_njsExtExportKey fmt value).mono fun r _ hr =>
      ⟨hnone hr.1 _, by simp [Call.uses], ?_⟩
    rintro _ _ ⟨⟩
    exact hr.2
  | wrapKey fmt value wrappingValue options =>
    refine (ok_njsExtWrapKey fmt value wrappingValue options h).mono fun r _ hr =>
      ⟨hnone hr.1 _, ?_, ?_⟩
    · rintro _ _ ⟨⟩
      exact hr.2.1
    · rintro _ _ ⟨⟩
      exact hr.2.2
  | unwrapKey fmt data unwrappingKey options keyAlg extractable keyUsages =>
    refine (ok_njsExtUnwrapKey h).mono fun r _ hr => ⟨fun key hkey => ?_,
      ?_, by simp [Call.exports]⟩
    · obtain ⟨hallows, hasked⟩ := hr.1 key hkey
      exact ⟨hallows, keyUsages, hasked.imp fun usage husage => ⟨rfl, husage⟩⟩
    · rintro _ _ ⟨⟩
      exact hr.2

variable (env) in
/-- The actions that keep to the usages. -/
def World.Regular (w : World) : Action → Prop
  | .call c => c.Regular env w
  | _ => True

variable (env) in
/-- The usages in a run: a call that succeeds does what it is granted, and every key comes from
one. -/
structure World.Grants (w : World) (actions : List Action) : Prop where
  calls : ∀ l₁ c l₂ r t, actions = l₁ ++ .call c :: l₂ →
    (c.run env (w.run env l₁).keys).run (w.run env l₁).memory = .ok (r, t) →
      c.Granted env (w.run env l₁).keys r
  keys : ∀ key ∈ (w.run env actions).keys, ∃ l₁ c l₂ r t, actions = l₁ ++ .call c :: l₂ ∧
    (c.run env (w.run env l₁).keys).run (w.run env l₁).memory = .ok (r, t) ∧ key ∈ r.keys

theorem World.mem_step {a : Action} (h : key ∈ (w.step env a).keys) :
    key ∈ w.keys ∨ ∃ c r t, a = .call c ∧ (c.run env w.keys).run w.memory = .ok (r, t) ∧
      key ∈ r.keys := by
  cases a with
  | call c =>
    rcases hrun : (c.run env w.keys).run w.memory with f | ⟨r, t⟩
    · rw [World.step_call_error hrun] at h
      exact Or.inl h
    · rw [World.step_call_ok hrun] at h
      exact (List.mem_append.1 h).imp_right fun hr => ⟨c, r, t, rfl, hrun, hr⟩
  | write buffer offset byte =>
    rcases htarget : w.target buffer offset with _ | ⟨block, at'⟩
    · rw [World.step_write_none htarget] at h
      exact Or.inl h
    · rw [World.step_write htarget] at h
      exact Or.inl h
  | newBuffer bytes => exact Or.inl h

theorem World.mem_run (hw : w.keys = []) {actions : List Action}
    (h : key ∈ (w.run env actions).keys) :
    ∃ l₁ c l₂ r t, actions = l₁ ++ .call c :: l₂ ∧
      (c.run env (w.run env l₁).keys).run (w.run env l₁).memory = .ok (r, t) ∧ key ∈ r.keys := by
  induction actions using List.reverseRecOn with
  | nil =>
    change key ∈ w.keys at h
    simp [hw] at h
  | append_singleton actions a ih =>
    rw [World.run_append] at h
    rcases World.mem_step h with h | ⟨c, r, t, rfl, hrun, hkey⟩
    · obtain ⟨l₁, c, l₂, r, t, rfl, hrun⟩ := ih h
      exact ⟨l₁, c, l₂ ++ [a], r, t, by simp, hrun⟩
    · exact ⟨actions, c, [], r, t, rfl, hrun, hkey⟩

/-- In a run of regular calls no usage is exceeded. -/
theorem World.run_granted (memory : Memory) (buffers : List Slice) (actions : List Action)
    (hregular : AllSteps (World.step env) (World.Regular env) (World.start memory buffers)
      actions) :
    (World.start memory buffers).Grants env actions := by
  refine ⟨?_, fun key hkey => World.mem_run rfl hkey⟩
  rintro l₁ c l₂ r t rfl hrun
  obtain ⟨-, hc, -⟩ := allSteps_append.1 hregular
  exact hc.granted.of_run hrun

/-! ### Scripts -/

/-- `importKey("raw", kek, {name: "AES-KW"}, true, ["unwrapKey"])`. -/
def importKw : Call :=
  .importKey (.string (lit "raw")) (.buffer ⟨0, 0, 16⟩) (.object [("name", .string (lit "AES-KW"))])
    (.boolean true) (.array [.string (lit "unwrapKey")])

/-- `exportKey("raw", key)`. -/
def exportKw : Call := .exportKey (.string (lit "raw")) (.cryptoKey 0)

/-- The key that `importKw` gives. -/
def kwKey : Key := {alg := .aesKw, usage := {.unwrapKey}, extractable := true, u := .s ⟨0, 0, 16⟩}

/-- A key that unwraps is imported and exported. -/
theorem World.run_granted_export :
    ((World.start [] []).run scriptEnv [.newBuffer (List.replicate 16 0), .call importKw,
      .call exportKw]).keys = [kwKey] ∧
    (World.start [] []).Grants scriptEnv [.newBuffer (List.replicate 16 0), .call importKw,
      .call exportKw] := by
  refine ⟨by decide, World.run_granted [] [] _ ⟨trivial, ?_, trivial, trivial⟩⟩
  rintro format alg usage - ⟨m, t, halg⟩ - hecdh
  have hkw : (njsKeyAlgorithm scriptEnv (.object [("name", .string (lit "AES-KW"))])).run m =
      .ok (.aesKw, m) := rfl
  rw [hkw] at halg
  cases halg
  simp at hecdh

/-- The bytes 0 to 15. -/
def kek : List UInt8 := [0, 1, 2, 3, 4, 5, 6, 7, 8, 9, 10, 11, 12, 13, 14, 15]

/-- What `kek` wraps. -/
def plainData : List UInt8 :=
  [0x00, 0x11, 0x22, 0x33, 0x44, 0x55, 0x66, 0x77, 0x88, 0x99, 0xAA, 0xBB, 0xCC, 0xDD, 0xEE, 0xFF]

/-- `plainData` wrapped with `kek`. -/
def wrappedData : List UInt8 :=
  [0x1F, 0xA6, 0x8B, 0x0A, 0x81, 0x12, 0xB4, 0x47, 0xAE, 0xF3, 0x4B, 0xD8, 0xFB, 0x5A, 0x7B, 0x82,
   0x9D, 0x3E, 0x86, 0x23, 0x71, 0xD2, 0xCF, 0xE5]

/-- AES-KW with one key, of one text. -/
def kwEnv : Env :=
  {scriptEnv with
    aesWrap := fun encrypt key data =>
      if encrypt = false ∧ key = kek ∧ data = wrappedData then some plainData else none}

/-- `decrypt({name: "AES-KW"}, key, wrapped)`. -/
def decryptKw : Call :=
  .cipher false (.object [("name", .string (lit "AES-KW"))]) (.cryptoKey 0) (.buffer ⟨1, 0, 24⟩)

/-- A key that only unwraps decrypts, and the plaintext is an array buffer of the script. -/
theorem World.decrypt_unwrapKey_not_granted :
    ¬(World.start [] []).Grants kwEnv [.newBuffer kek, .newBuffer wrappedData, .call importKw,
      .call decryptKw] := by
  intro h
  obtain ⟨key, ⟨id, hid, hkey⟩, husage⟩ := (h.calls [.newBuffer kek, .newBuffer wrappedData,
    .call importKw] decryptKw [] (.buffer ⟨2, 0, 16⟩) [kek, wrappedData, plainData] rfl
    (by rfl)).used (.cryptoKey 0) .decrypt rfl
  obtain rfl := Value.cryptoKey.inj hid
  have hkeys : ((World.start [] []).run kwEnv [.newBuffer kek, .newBuffer wrappedData,
      .call importKw]).keys = [kwKey] := by decide
  rw [hkeys] at hkey
  obtain rfl := Option.some.inj hkey
  exact absurd husage (by decide)

end Njs.WebCrypto
