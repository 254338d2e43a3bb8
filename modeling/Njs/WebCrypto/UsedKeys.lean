import Njs.WebCrypto.MadeKeys

/-!
# Calls that use keys

Every call reads of a key the member that its algorithm selects, except for `wrapKey`, which does
not look whether the algorithm of the key has the format.
-/

namespace Njs.WebCrypto

open StateExcept

variable {m : Memory} {env : Env} {keys : List Key} {key : Key}

/-- A key that is well-formed, with usages of its algorithm, and whose bytes are in memory. -/
structure Key.Sound (key : Key) (m : Memory) : Prop where
  wellFormed : key.WellFormed
  usage_subset : key.usage ⊆ key.alg.usage
  within : ∀ raw, key.u = .s raw → raw.Within m

theorem Key.Sound.mono {t : Memory} (h : key.Sound m) (ht : m <+: t) : key.Sound t :=
  ⟨h.wellFormed, h.usage_subset, fun raw hu => (h.within raw hu).mono ht⟩

/-! ### Results that are no keys -/

/-- No union is misread, and what is made is no key. -/
def NoKeys (x : M Result) : Prop := ∀ m, Safe m x fun r _ => r.keys = []

theorem NoKeys.pure {r : Result} (h : r.keys = []) : NoKeys (Pure.pure r) := fun _ => Safe.pure h

theorem NoKeys.ite {c : Prop} [Decidable c] {x y : M Result} (hx : NoKeys x) (hy : NoKeys y) :
    NoKeys (if c then x else y) := fun m => Safe.ite (fun _ => hx m) fun _ => hy m

theorem NoKeys.plain {x : M Result} (h : NoKeys x) : Plain x :=
  fun m => (h m).mono fun _ _ _ _ => trivial

theorem Plain.noKeys {α : Type} {x : M α} {f : α → M Result} (h : Plain x)
    (hf : ∀ a, NoKeys (f a)) : NoKeys (x >>= f) := fun m => (h m).bind fun a t _ _ => hf a t

theorem Plain.noKeys_map {α : Type} {x : M α} {f : α → Result} (h : Plain x)
    (hf : ∀ a, (f a).keys = []) : NoKeys (f <$> x) := fun m => (h m).map fun a _ _ _ => hf a

theorem noKeys_freshBuffer (bytes : List UInt8) : NoKeys (freshBuffer bytes) :=
  Plain.alloc.noKeys fun _ => NoKeys.pure rfl

/-! ### Reading keys -/

theorem Key.WellFormed.plain_raw (h : key.WellFormed) (hraw : key.alg.raw = true) :
    Plain key.raw := by
  obtain ⟨raw, hu⟩ := (if_pos hraw).mp h.member
  rw [Key.raw, hu]
  exact Plain.pure

theorem Key.WellFormed.pkey (h : key.WellFormed) (hraw : key.alg.raw = false) :
    ∃ pkey privat curve, key.u = .a (some pkey) privat curve := by
  obtain ⟨pkey, privat, curve, hu, -⟩ := (if_neg (by simp [hraw])).mp h.member
  exact ⟨pkey, privat, curve, hu⟩

theorem Key.WellFormed.noBytes (h : key.WellFormed) (hraw : key.alg.raw = false) (raw : Slice) :
    key.u ≠ .s raw := by
  obtain ⟨pkey, privat, curve, hu⟩ := h.pkey hraw
  simp [hu]

theorem Key.WellFormed.plain_pkey (h : key.WellFormed) (hraw : key.alg.raw = false) :
    Plain key.pkey := by
  obtain ⟨pkey, privat, curve, hu⟩ := h.pkey hraw
  rw [Key.pkey, hu]
  exact Plain.pure

/-! ### Ciphers -/

theorem plain_checkAesKey (name : String) (raw : Slice) : Plain (checkAesKey name raw) :=
  Plain.failIf (by simp)

theorem plain_njsCipherPkey (h : key.WellFormed) (halg : key.alg = .rsaOaep) (data : List UInt8)
    (encrypt : Bool) : Plain (njsCipherPkey env data key encrypt) :=
  (h.plain_pkey (by rw [halg]; rfl)).bind fun _ => Plain.openSsl

theorem plain_njsCipherAesGcm (h : key.WellFormed) (hraw : key.alg.raw = true)
    (data : List UInt8) (options : Value) (encrypt : Bool) :
    Plain (njsCipherAesGcm env data key options encrypt) := by
  unfold njsCipherAesGcm
  refine (h.plain_raw hraw).bind fun raw => (plain_checkAesKey _ raw).bind fun _ => ?_
  refine (plain_requiredData env options _ _).bind fun iv => ?_
  refine (plain_optionalInteger env options _ _).bind fun taglen => ?_
  refine (Plain.failIf (by simp)).bind fun _ => (Plain.failIf (by simp)).bind fun _ => ?_
  refine (plain_optionalData env options _).bind fun aad => Plain.bytesOf.bind fun bytes => ?_
  exact Plain.openSsl

theorem plain_aesCtrRuns (data key iv : List UInt8) (length : ℕ) (encrypt : Bool) :
    Plain (aesCtrRuns env data key iv length encrypt) := by
  unfold aesCtrRuns
  refine (Plain.failIf (by simp)).bind fun _ => Plain.ite Plain.openSsl ?_
  exact Plain.openSsl.bind fun first => Plain.openSsl.bind fun second => Plain.pure

theorem plain_njsCipherAesCtr (h : key.WellFormed) (hraw : key.alg.raw = true)
    (data : List UInt8) (options : Value) (encrypt : Bool) :
    Plain (njsCipherAesCtr env data key options encrypt) := by
  unfold njsCipherAesCtr
  refine (h.plain_raw hraw).bind fun raw => (plain_checkAesKey _ raw).bind fun _ => ?_
  refine (plain_requiredData env options _ _).bind fun iv => ?_
  refine (Plain.failIf (by simp)).bind fun _ => ?_
  refine (plain_requiredInteger env options _ _).bind fun length => ?_
  refine (Plain.failIf (by simp)).bind fun _ => (Plain.failIf (by simp)).bind fun _ => ?_
  exact Plain.bytesOf.bind fun bytes => plain_aesCtrRuns data bytes iv length.toNat encrypt

theorem plain_njsCipherAesCbc (h : key.WellFormed) (hraw : key.alg.raw = true)
    (data : List UInt8) (options : Value) (encrypt : Bool) :
    Plain (njsCipherAesCbc env data key options encrypt) := by
  unfold njsCipherAesCbc
  refine (h.plain_raw hraw).bind fun raw => (plain_checkAesKey _ raw).bind fun _ => ?_
  refine (plain_requiredData env options _ _).bind fun iv => ?_
  refine (Plain.failIf (by simp)).bind fun _ => Plain.bytesOf.bind fun bytes => ?_
  exact Plain.openSsl

theorem plain_njsCipherAesKw (h : key.WellFormed) (hraw : key.alg.raw = true)
    (data : List UInt8) (encrypt : Bool) : Plain (njsCipherAesKw env data key encrypt) := by
  unfold njsCipherAesKw
  refine (Plain.failIf (by simp)).bind fun _ => (Plain.failIf (by simp)).bind fun _ => ?_
  refine (h.plain_raw hraw).bind fun raw => (plain_checkAesKey _ raw).bind fun _ => ?_
  exact Plain.bytesOf.bind fun bytes => Plain.openSsl

theorem plain_njsWebcryptoCipherCore (h : key.WellFormed) (data : List UInt8) (options : Value)
    (encrypt : Bool) : Plain (njsWebcryptoCipherCore env data key options key.alg encrypt) := by
  unfold njsWebcryptoCipherCore
  split
  · exact plain_njsCipherPkey h ‹_› data encrypt
  · exact plain_njsCipherAesGcm h (by rw [‹key.alg = _›]; rfl) data options encrypt
  · exact plain_njsCipherAesCtr h (by rw [‹key.alg = _›]; rfl) data options encrypt
  · exact plain_njsCipherAesCbc h (by rw [‹key.alg = _›]; rfl) data options encrypt
  · exact plain_njsCipherAesKw h (by rw [‹key.alg = _›]; rfl) data encrypt
  · exact Plain.throw (by simp)

/-! ### Exported keys -/

theorem plain_njsExportBase64urlBignum (v : List UInt8) :
    Plain (njsExportBase64urlBignum env v) := Plain.ite (Plain.throw (by simp)) Plain.pure

theorem plain_njsExportJwkRsa (h : key.WellFormed) (hraw : key.alg.raw = false)
    (pkey : EvpPkey) : Plain (njsExportJwkRsa env key pkey) := by
  have hprivate (numbers : List (List UInt8)) : Plain (exportRsaPrivate env key numbers) :=
    (plain_privat (h.noBytes hraw)).bind fun _ =>
      Plain.ite (Plain.mapM (fun _ => (plain_njsExportBase64urlBignum _).map) _) Plain.pure
  refine (plain_njsExportBase64urlBignum _).bind fun n => ?_
  refine (plain_njsExportBase64urlBignum _).bind fun e => ?_
  exact (hprivate _).bind fun privat => Plain.pure

theorem plain_exportPrivate (privat : Bool) {d : M Value} (hd : Plain d) :
    Plain (exportPrivate privat d) := Plain.ite hd.map Plain.pure

theorem plain_njsExportJwkEc (h : key.WellFormed) (hraw : key.alg.raw = false)
    (pkey : EvpPkey) : Plain (njsExportJwkEc env key pkey) := by
  unfold njsExportJwkEc
  refine Plain.openSsl.bind fun numbers => ?_
  refine (plain_njsExportBase64urlBignum _).bind fun x => ?_
  refine (plain_njsExportBase64urlBignum _).bind fun y => ?_
  refine (plain_privat (h.noBytes hraw)).bind fun privat => ?_
  split
  · exact Plain.throw (by simp)
  · exact (plain_exportPrivate _ (plain_njsExportBase64urlBignum _)).bind fun _ => Plain.pure

theorem plain_njsExportJwkAsymmetric (h : key.WellFormed) (hraw : key.alg.raw = false) :
    Plain (njsExportJwkAsymmetric env key) := by
  refine (h.plain_pkey hraw).bind fun pkey => Plain.bind ?_ fun _ => Plain.pure
  unfold exportNumbers
  split
  · exact plain_njsExportJwkRsa h hraw pkey
  · exact plain_njsExportJwkRsa h hraw pkey
  · exact plain_njsExportJwkEc h hraw pkey
  · exact Plain.throw (by simp)

theorem plain_njsExportJwkOct (h : key.WellFormed) (hraw : key.alg.raw = true) :
    Plain (njsExportJwkOct env key) :=
  (h.plain_raw hraw).bind fun _ => Plain.bytesOf.bind fun _ => Plain.pure

theorem plain_njsExportJwkOkp (h : key.WellFormed) (hraw : key.alg.raw = false) :
    Plain (njsExportJwkOkp env key) := by
  refine (h.plain_pkey hraw).bind fun pkey => Plain.openSsl.bind fun x => ?_
  refine (plain_privat (h.noBytes hraw)).bind fun privat => ?_
  exact (plain_exportPrivate privat Plain.openSsl.map).bind fun d => Plain.pure

theorem plain_exportJwk (h : key.WellFormed) : Plain (exportJwk env key) := by
  unfold exportJwk
  cases halg : key.alg with
  | rsassaPkcs1V15 | rsaPss | rsaOaep | ecdsa | ecdh =>
    exact plain_njsExportJwkAsymmetric h (by rw [halg]; rfl)
  | ed25519 | x25519 => exact plain_njsExportJwkOkp h (by rw [halg]; rfl)
  | aesGcm | aesCtr | aesCbc | aesKw | hmac => exact plain_njsExportJwkOct h (by rw [halg]; rfl)
  | pbkdf2 | hkdf => exact Plain.throw (by simp)

theorem noKeys_exportPkcs8 (h : key.WellFormed) (hraw : key.alg.raw = false) :
    NoKeys (exportPkcs8 env key) := by
  refine (plain_privat (h.noBytes hraw)).noKeys fun privat => ?_
  refine (Plain.failIf (by simp)).noKeys fun _ => (h.plain_pkey hraw).noKeys fun pkey => ?_
  exact Plain.openSsl.noKeys fun data => noKeys_freshBuffer data

theorem noKeys_exportSpki (h : key.WellFormed) (hraw : key.alg.raw = false) :
    NoKeys (exportSpki env key) := by
  refine (plain_privat (h.noBytes hraw)).noKeys fun privat => ?_
  refine (Plain.failIf (by simp)).noKeys fun _ => (h.plain_pkey hraw).noKeys fun pkey => ?_
  exact Plain.openSsl.noKeys fun data => noKeys_freshBuffer data

theorem noKeys_njsExportRawEc (h : key.WellFormed) (hraw : key.alg.raw = false) :
    NoKeys (njsExportRawEc env key) := by
  refine (h.plain_pkey hraw).noKeys fun pkey => (plain_privat (h.noBytes hraw)).noKeys fun _ => ?_
  refine (Plain.failIf (by simp)).noKeys fun _ => Plain.openSsl.noKeys fun data => ?_
  exact noKeys_freshBuffer data

theorem noKeys_exportRaw (h : key.WellFormed) (hfmt : .raw ∈ key.alg.fmt) :
    NoKeys (exportRaw env key) := by
  have hbytes (hraw : key.alg.raw = true) :
      NoKeys (do let raw ← key.raw; pure (njsVmValueArrayBufferSet raw) : M Result) :=
    (h.plain_raw hraw).noKeys fun _ => NoKeys.pure rfl
  unfold exportRaw
  cases halg : key.alg with
  | ecdsa | ecdh => exact noKeys_njsExportRawEc h (by rw [halg]; rfl)
  | ed25519 | x25519 =>
    refine (h.plain_pkey (by rw [halg]; rfl)).noKeys fun pkey => Plain.openSsl.noKeys fun data => ?_
    exact noKeys_freshBuffer data
  | hmac | aesGcm | aesCtr | aesCbc | aesKw | pbkdf2 | hkdf => exact hbytes (by rw [halg]; rfl)
  | rsassaPkcs1V15 | rsaPss | rsaOaep =>
    rw [halg] at hfmt
    exact absurd hfmt (by decide)

theorem noKeys_njsWebcryptoExportKeyRaw (h : key.WellFormed) {fmt : Format}
    (hfmt : fmt = .jwk ∨ fmt ∈ key.alg.fmt) : NoKeys (njsWebcryptoExportKeyRaw env key fmt) := by
  rcases hfmt with rfl | hfmt
  · exact (plain_exportJwk h).noKeys_map fun _ => rfl
  · cases fmt with
    | jwk => exact (plain_exportJwk h).noKeys_map fun _ => rfl
    | pkcs8 => exact noKeys_exportPkcs8 h (raw_of_fmt hfmt (Or.inl rfl))
    | spki => exact noKeys_exportSpki h (raw_of_fmt hfmt (Or.inr rfl))
    | raw => exact noKeys_exportRaw h hfmt

/-! ### Signatures -/

theorem raw_of_sign {alg : Alg} {verify : Bool}
    (h : (if verify then .verify else .sign) ∈ alg.usage) (halg : alg ≠ .hmac) :
    alg.raw = false := by
  revert h halg
  cases verify <;> cases alg <;> decide

theorem noKeys_signAlgorithm {verify : Bool} (h : key.WellFormed)
    (husage : (if verify then .verify else .sign) ∈ key.alg.usage) (options : Value)
    (sig data : List UInt8) :
    NoKeys (signAlgorithm env verify key.alg options key sig data) := by
  unfold signAlgorithm
  split
  · rename_i halg
    refine (h.plain_pkey (by rw [halg]; rfl)).noKeys fun pkey => NoKeys.ite ?_ ?_
    · exact Plain.openSsl.noKeys fun ok => NoKeys.pure rfl
    · exact Plain.openSsl.noKeys fun dst => noKeys_freshBuffer dst
  · rename_i halg
    refine (h.plain_raw (by rw [halg]; rfl)).noKeys fun raw => Plain.bytesOf.noKeys fun bytes => ?_
    exact Plain.openSsl.noKeys fun dst => NoKeys.ite (NoKeys.pure rfl) (noKeys_freshBuffer dst)
  rename_i hne
  have hhash : Plain (signHash env key.alg options key) :=
    Plain.ite (plain_njsAlgorithmHash env options) Plain.pure
  have hsalt : Plain (njsSetRsaPadding env key.alg options) :=
    Plain.ite (plain_requiredInteger env options _ _).map Plain.pure
  refine hhash.noKeys fun md => (h.plain_pkey (raw_of_sign husage hne)).noKeys fun pkey => ?_
  refine hsalt.noKeys fun saltLength => NoKeys.ite ?_ ?_
  · exact Plain.openSsl.noKeys fun ok => NoKeys.pure rfl
  · exact Plain.openSsl.noKeys fun dst => noKeys_freshBuffer _

/-! ### Conditions on calls -/

/-- A result of a function that reads arguments. -/
def Gives {α : Type} (x : M α) (a : α) : Prop := ∃ m t, x.run m = .ok (a, t)

theorem Plain.gives {α : Type} {x : M α} (h : Plain x) : Safe m x fun a _ => Gives x a := by
  have hm := h m
  unfold Safe Post at hm ⊢
  rcases hx : x.run m with f | ⟨a, t⟩
  · rw [hx] at hm
    exact hm
  · rw [hx] at hm
    exact ⟨hm.1, m, t, hx⟩

def IsKey (keys : List Key) (value : Value) (key : Key) : Prop :=
  ∃ id, value = .cryptoKey id ∧ keys[id]? = some key

variable (env) in
def Call.Clean (keys : List Key) : Call → Prop
  | .generateKey aobject _ _ _ =>
    ∀ alg, Gives (njsKeyAlgorithm env aobject) alg → alg.isAes = true → aobject.prop "length" ≠ none
  | .derive true _ baseKey dobject _ _ =>
    ∀ key, IsKey keys baseKey key → key.alg = .ecdh ∨ key.alg = .x25519 → ∀ dalg length,
      Gives (derivedLength env true dobject) (some dalg, length) →
        dalg.raw = true ∧ (dalg.isAes = true → length = 16 ∨ length = 24 ∨ length = 32)
  | .wrapKey fmt key _ _ =>
    ∀ format k, Gives (njsKeyFormat env fmt) format → IsKey keys key k →
      format = .jwk ∨ format ∈ k.alg.fmt
  | _ => True

/-! ### Derived keys -/

theorem plain_derivedLength (deriveKey : Bool) (dobject : Value) :
    Plain (derivedLength env deriveKey dobject) := by
  unfold derivedLength
  refine Plain.ite ?_ (Plain.converted.bind fun _ => Plain.pure)
  refine (plain_njsKeyAlgorithm env dobject).bind fun dalg => ?_
  exact (plain_requiredInteger env dobject _ _).bind fun length => Plain.pure

theorem safe_derivedLength (deriveKey : Bool) (dobject : Value) :
    Safe m (derivedLength env deriveKey dobject) fun r _ =>
      ∀ dalg, r.1 = some dalg → deriveKey = true := by
  unfold derivedLength
  refine Safe.ite (fun h => ?_) fun _ => ?_
  · refine (plain_njsKeyAlgorithm env dobject).safe.bind fun dalg _ _ _ => ?_
    refine (plain_requiredInteger env dobject _ _).safe.bind fun length _ _ _ => ?_
    exact Safe.pure fun _ _ => h
  · exact Plain.converted.safe.bind fun length _ _ _ => Safe.pure (by simp)

theorem safe_derivedUsage (dalg : Option Alg) (keyUsages : Value) (name : String) :
    Safe m (derivedUsage env dalg keyUsages name) fun usage _ =>
      ∀ alg, dalg = some alg → usage ⊆ alg.usage ∧ Gives (njsKeyUsage env keyUsages) usage := by
  rcases dalg with _ | dalg
  · exact Safe.pure (by simp)
  · refine (plain_njsKeyUsage env keyUsages).gives.bind fun usage _ _ husage => ?_
    refine (Safe.failIf (by simp [unsupportedUsage])).bind fun _ _ _ hsub => Safe.pure ?_
    rintro alg ⟨⟩
    exact ⟨not_not.1 hsub, husage⟩

def Result.All (P : Key → Prop) (r : Result) : Prop := ∀ key ∈ r.keys, P key

theorem safe_derived {dalg : Option Alg} {usage : Finset Usage} {k : Slice}
    (hraw : ∀ alg, dalg = some alg → alg.raw = true)
    (haes : ∀ alg, dalg = some alg → alg.isAes = true →
      k.length = 16 ∨ k.length = 24 ∨ k.length = 32)
    (hsub : ∀ alg, dalg = some alg → usage ⊆ alg.usage) (hwithin : k.Within m)
    (dobject extractable : Value) :
    Safe m (derived env dalg dobject usage extractable k) fun r t =>
      r.All fun key => key.Sound t ∧ dalg = some key.alg ∧ key.usage = usage := by
  rcases dalg with _ | dalg
  · exact Safe.pure fun key hkey => by cases hkey
  have hhash : Safe m (derivedHash env dalg dobject) fun hash _ =>
      dalg = .hmac → hash ≠ none :=
    Safe.ite (fun _ => (plain_njsAlgorithmHash env dobject).safe.map fun _ _ _ _ => by simp)
      fun h => Safe.pure fun h' => absurd h' h
  refine hhash.bind fun hash _ ht hset => Safe.pure fun key hkey => ?_
  obtain rfl := List.mem_singleton.1 hkey
  refine ⟨⟨?_, hsub dalg rfl, ?_⟩, rfl, rfl⟩
  · exact wellFormed_raw (hraw dalg rfl) rfl (haes dalg rfl) hset
  · rintro raw ⟨⟩
    exact hwithin.mono ht

theorem plain_ecdhPeer (hkeys : ∀ key ∈ keys, key.WellFormed) (h : key.WellFormed)
    (hraw : key.alg.raw = false) (aobject : Value) : Plain (ecdhPeer keys aobject key) := by
  unfold ecdhPeer
  refine (plain_required aobject _ _).bind fun value m => ?_
  refine (safe_njsVmExternal keys value _).bind fun pkey _ _ hpkey => ?_
  obtain ⟨id, -, hid⟩ := hpkey
  have hp := hkeys pkey (List.mem_of_getElem? hid)
  refine (Safe.failIf (by simp)).bind fun _ _ _ halg => ?_
  have hpraw : pkey.alg.raw = false := by rw [not_not.1 halg, hraw]
  refine (plain_curve (h.noBytes hraw)).safe.bind fun curve _ _ _ => ?_
  refine (plain_curve (hp.noBytes hpraw)).safe.bind fun pcurve _ _ _ => ?_
  refine (Safe.failIf (by simp)).bind fun _ _ _ _ => ?_
  refine (plain_privat (h.noBytes hraw)).safe.bind fun privat _ _ _ => ?_
  refine (Safe.failIf (by simp)).bind fun _ _ _ _ => ?_
  refine (plain_privat (hp.noBytes hpraw)).safe.bind fun pprivat _ _ _ => ?_
  refine (Safe.failIf (by simp)).bind fun _ _ _ _ => ?_
  exact (hp.plain_pkey hpraw).safe

theorem safe_njsExtDeriveEcdh (hkeys : ∀ key ∈ keys, key.WellFormed) (h : key.WellFormed)
    (hraw : key.alg.raw = false) {deriveKey : Bool} {dobject : Value}
    (hclean : deriveKey = true → ∀ dalg length,
      Gives (derivedLength env true dobject) (some dalg, length) →
        dalg.raw = true ∧ (dalg.isAes = true → length = 16 ∨ length = 24 ∨ length = 32))
    (aobject extractable keyUsages : Value) :
    Safe m (njsExtDeriveEcdh env keys deriveKey aobject dobject extractable keyUsages key)
      fun r t => r.All fun key => key.Sound t := by
  unfold njsExtDeriveEcdh
  have hlength : Safe m (derivedLength env deriveKey dobject) fun r _ => ∀ dalg,
      r.1 = some dalg → dalg.raw = true ∧ (dalg.isAes = true → r.2 = 16 ∨ r.2 = 24 ∨ r.2 = 32) := by
    cases deriveKey with
    | true =>
      refine (plain_derivedLength true dobject).gives.mono fun r _ _ hr dalg hdalg => ?_
      exact hclean rfl dalg r.2 (by rwa [← hdalg])
    | false =>
      refine (safe_derivedLength false dobject).mono fun r _ _ hr dalg hdalg => ?_
      cases hr dalg hdalg
  refine hlength.bind fun r _ _ hr => ?_
  obtain ⟨dalg, length⟩ := r
  refine (safe_derivedUsage dalg keyUsages _).bind fun usage _ _ husage => ?_
  refine (plain_ecdhPeer hkeys h hraw aobject).safe.bind fun pub _ _ _ => ?_
  refine (h.plain_pkey hraw).safe.bind fun priv _ _ _ => ?_
  refine Safe.openSsl.bind fun secret _ _ _ => ?_
  refine (Safe.failIf (by simp)).bind fun _ _ _ _ => Safe.alloc.bind fun k t _ hk => ?_
  refine (safe_derived (k := {k with length := length.toNat}) (fun alg halg => (hr alg halg).1)
    (fun alg halg haes => ?_) (fun alg halg => (husage alg halg).1) (Or.inl hk.2) dobject
    extractable).mono fun r t _ hr key hkey => (hr key hkey).1
  have hlength := (hr alg halg).2 haes
  change length.toNat = 16 ∨ length.toNat = 24 ∨ length.toNat = 32
  omega

theorem safe_checkDerivedAlgorithm (dalg : Option Alg) (length : ℤ) :
    Safe m (checkDerivedAlgorithm dalg length) fun _ _ => ∀ alg, dalg = some alg →
      alg.raw = true ∧ (alg.isAes = true → length = 16 ∨ length = 24 ∨ length = 32) := by
  unfold checkDerivedAlgorithm
  split
  · exact Safe.pure (by simp)
  · refine Safe.pure ?_
    rintro alg ⟨⟩
    exact ⟨rfl, by simp [Alg.isAes]⟩
  rename_i alg _
  refine Safe.ite (fun haes => ?_) fun _ => Safe.throw (by simp)
  refine (Safe.failIf (by simp)).mono fun _ _ _ hlength alg' halg => ?_
  obtain rfl := Option.some.inj halg
  refine ⟨?_, fun _ => by omega⟩
  revert haes
  cases alg <;> simp [Alg.isAes, Alg.raw]

theorem safe_deriveBytes (h : key.WellFormed) (aobject : Value) (n : ℕ) :
    Safe m (deriveBytes env key.alg aobject key n) fun k t =>
      k.length = n ∧ k.block < t.length := by
  have hvector {name : String} {x : Option (Vector UInt8 n)} (m : Memory) :
      Safe m (do let k ← openSsl x name; alloc k.toList) fun k t =>
        k.length = n ∧ k.block < t.length :=
    Safe.openSsl.bind fun k _ _ _ => Safe.alloc.mono fun _ _ _ hk => by
      rwa [Vector.length_toList] at hk
  unfold deriveBytes
  split
  · rename_i halg
    unfold derivePbkdf2
    refine (plain_njsAlgorithmHash env aobject).safe.bind fun hash _ _ _ => ?_
    refine (plain_requiredData env aobject _ _).safe.bind fun salt _ _ _ => ?_
    refine (Safe.failIf (by simp)).bind fun _ _ _ _ => ?_
    refine (plain_requiredInteger env aobject _ _).safe.bind fun iterations _ _ _ => ?_
    refine (h.plain_raw (by rw [halg]; rfl)).safe.bind fun raw _ _ _ => ?_
    exact Plain.bytesOf.safe.bind fun bytes t _ _ => hvector t
  · rename_i halg
    unfold deriveHkdf
    refine (plain_njsAlgorithmHash env aobject).safe.bind fun hash _ _ _ => ?_
    refine (plain_requiredData env aobject _ _).safe.bind fun salt _ _ _ => ?_
    refine (plain_requiredData env aobject _ _).safe.bind fun info _ _ _ => ?_
    refine (h.plain_raw (by rw [halg]; rfl)).safe.bind fun raw _ _ _ => ?_
    exact Plain.bytesOf.safe.bind fun bytes t _ _ => hvector t
  · exact Safe.throw (by simp)

theorem safe_deriveRaw (h : key.WellFormed) (deriveKey : Bool)
    (aobject dobject extractable keyUsages : Value) :
    Safe m (deriveRaw env deriveKey key.alg aobject dobject extractable keyUsages key)
      fun r t => r.All fun key => key.Sound t := by
  unfold deriveRaw
  refine (plain_derivedLength deriveKey dobject).safe.bind fun r _ _ _ => ?_
  obtain ⟨dalg, length⟩ := r
  refine (safe_checkDerivedAlgorithm dalg length).bind fun _ _ _ hr => ?_
  refine (safe_derivedUsage dalg keyUsages _).bind fun usage _ _ husage => ?_
  refine (Safe.failIf (by simp)).bind fun _ _ _ _ => ?_
  refine (safe_deriveBytes h aobject length.toNat).bind fun k _ _ hk => ?_
  refine (safe_derived (fun alg halg => (hr alg halg).1) (fun alg halg haes => ?_)
    (fun alg halg => (husage alg halg).1) (Or.inl hk.2) dobject extractable).mono
    fun r t _ hr key hkey => (hr key hkey).1
  have hlength := (hr alg halg).2 haes
  omega

/-! ### Calls -/

abbrev Result.Sound (r : Result) (t : Memory) : Prop := r.All fun key => key.Sound t

theorem NoKeys.sound {x : M Result} (h : NoKeys x) : Safe m x Result.Sound :=
  (h m).mono fun r _ _ hr key hkey => by simp [hr] at hkey

theorem safe_key (hkeys : ∀ key ∈ keys, key.Sound m) (value : Value) (message : String) :
    Safe m (njsVmExternal keys value message) fun key _ => key.Sound m ∧ IsKey keys value key :=
  (safe_njsVmExternal keys value message).mono fun key _ _ hkey =>
    ⟨hkeys key (by obtain ⟨id, -, hid⟩ := hkey; exact List.mem_of_getElem? hid), hkey⟩

theorem safe_njsExtCipher (hkeys : ∀ key ∈ keys, key.Sound m) (encrypt : Bool)
    (options value data : Value) :
    Safe m (njsExtCipher env keys encrypt options value data) Result.Sound := by
  unfold njsExtCipher
  refine (plain_njsKeyAlgorithm env options).safe.bind fun alg t ht _ => ?_
  refine (safe_key (fun k hk => (hkeys k hk).mono ht) value _).bind fun key _ _ hkey => ?_
  refine (safe_requireUsage key _ _).bind fun _ _ _ _ => ?_
  refine (safe_requireAlg key alg _).bind fun _ _ _ halg => ?_
  obtain rfl := halg
  refine (plain_dataOf env data).safe.bind fun bytes _ _ _ => ?_
  refine (plain_njsWebcryptoCipherCore hkey.1.wellFormed bytes options encrypt).safe.bind
    fun dst _ _ _ => ?_
  exact (noKeys_freshBuffer dst).sound

theorem safe_njsExtSign (hkeys : ∀ key ∈ keys, key.Sound m) (verify : Bool)
    (options value sig data : Value) :
    Safe m (njsExtSign env keys verify options value sig data) Result.Sound := by
  unfold njsExtSign
  refine (plain_njsKeyAlgorithm env options).safe.bind fun alg t ht _ => ?_
  refine (safe_key (fun k hk => (hkeys k hk).mono ht) value _).bind fun key _ _ hkey => ?_
  refine (safe_requireUsage key _ _).bind fun _ _ _ husage => ?_
  refine (safe_requireAlg key alg _).bind fun _ _ _ halg => ?_
  obtain rfl := halg
  have hsig : Plain (signatureOf env verify sig) := Plain.ite (plain_dataOf env sig) Plain.pure
  refine hsig.safe.bind fun sigBytes _ _ _ => ?_
  refine (plain_dataOf env data).safe.bind fun bytes _ _ _ => ?_
  exact (noKeys_signAlgorithm hkey.1.wellFormed (hkey.1.usage_subset husage) options sigBytes
    bytes).sound

theorem safe_njsExtDerive (hkeys : ∀ key ∈ keys, key.Sound m) {deriveKey : Bool}
    {aobject baseKey dobject extractable keyUsages : Value}
    (hclean : (Call.derive deriveKey aobject baseKey dobject extractable keyUsages).Clean env
      keys) :
    Safe m (njsExtDerive env keys deriveKey aobject baseKey dobject extractable keyUsages)
      Result.Sound := by
  unfold njsExtDerive
  refine (plain_njsKeyAlgorithm env aobject).safe.bind fun alg t ht _ => ?_
  refine (safe_key (fun k hk => (hkeys k hk).mono ht) baseKey _).bind fun key _ _ hkey => ?_
  refine (safe_requireUsage key _ _).bind fun _ _ _ _ => ?_
  refine (safe_requireAlg key alg _).bind fun _ _ _ halg => ?_
  obtain rfl := halg
  refine Safe.ite (fun hecdh => ?_) fun _ => safe_deriveRaw hkey.1.wellFormed _ _ _ _ _
  refine safe_njsExtDeriveEcdh (fun k hk => (hkeys k hk).wellFormed) hkey.1.wellFormed ?_
    (fun hderive => ?_) aobject extractable keyUsages
  · rcases hecdh with halg | halg <;> rw [halg] <;> rfl
  · subst hderive
    exact hclean key hkey.2 hecdh

theorem safe_njsExtGenerateKey (aobject extractable keyUsages : Value) (seed : ℕ) :
    Safe m (njsExtGenerateKey env aobject extractable keyUsages seed) fun r t =>
      ∃ alg usage, Gives (njsKeyAlgorithm env aobject) alg ∧ Gives (njsKeyUsage env keyUsages) usage
        ∧
        r.All fun key => GeneratedKey (alg.isAes = true → aobject.prop "length" ≠ none) alg usage
          (env.truth extractable) key t := by
  unfold njsExtGenerateKey
  refine (plain_njsKeyAlgorithm env aobject).gives.bind fun alg _ _ halg => ?_
  refine (plain_njsKeyUsage env keyUsages).gives.bind fun usage _ _ husage => ?_
  refine (Safe.failIf (by simp [unsupportedUsage])).bind fun _ _ _ hsub => ?_
  exact (safe_generateAlgorithm (not_not.1 hsub) (fun h => h) seed).mono fun r t _ hr =>
    ⟨alg, usage, halg, husage, hr⟩

theorem Made.sound {fmt : Format} {keyData : Value} {alg : Alg} {usage : Finset Usage}
    {extractable : Bool} (h : Made fmt keyData alg usage extractable key m) : key.Sound m :=
  ⟨h.wellFormed, by rw [h.usage_eq, h.alg_eq]; exact h.usage_subset, h.within⟩

theorem GeneratedKey.sound {sized : Prop} {alg : Alg} {usage : Finset Usage} {extractable : Bool}
    (h : GeneratedKey sized alg usage extractable key m) (hsized : sized) : key.Sound m :=
  ⟨h.wellFormed hsized, by rw [h.alg_eq]; exact h.usage_subset, h.within⟩

theorem safe_njsExtImportKey (fmt keyData options extractable keyUsages : Value) :
    Safe m (njsExtImportKey env fmt keyData options extractable keyUsages) fun r t =>
      ∃ format alg usage, Gives (njsKeyFormat env fmt) format ∧
        Gives (njsKeyAlgorithm env options) alg ∧ Gives (njsKeyUsage env keyUsages) usage ∧
        r.All fun key => Made format keyData alg usage (env.truth extractable) key t := by
  unfold njsExtImportKey
  refine (plain_njsKeyFormat env fmt).gives.bind fun format _ _ hformat => ?_
  refine (plain_njsKeyAlgorithm env options).gives.bind fun alg _ _ halg => ?_
  refine (plain_njsKeyUsage env keyUsages).gives.bind fun usage _ _ husage => ?_
  refine (safe_njsWebcryptoImportKeyInternal format keyData alg options _ usage).map
    fun key t _ hkey => ⟨format, alg, usage, hformat, halg, husage, fun k hk => ?_⟩
  obtain rfl := List.mem_singleton.1 hk
  exact hkey

theorem safe_njsExtExportKey (hkeys : ∀ key ∈ keys, key.Sound m) (fmt value : Value) :
    Safe m (njsExtExportKey env keys fmt value) Result.Sound := by
  unfold njsExtExportKey
  refine (plain_njsKeyFormat env fmt).safe.bind fun format t ht _ => ?_
  refine (safe_key (fun k hk => (hkeys k hk).mono ht) value _).bind fun key _ _ hkey => ?_
  refine (Safe.failIf (by simp [unsupportedFormat])).bind fun _ _ _ hfmt => ?_
  refine (Safe.failIf (by simp)).bind fun _ _ _ _ => ?_
  exact (noKeys_njsWebcryptoExportKeyRaw hkey.1.wellFormed (Or.inr (not_not.1 hfmt))).sound

theorem plain_exportedBytes (r : Result) : Plain (exportedBytes env r) := by
  cases r with
  | buffer s => exact Plain.bytesOf
  | value v => exact Plain.converted
  | _ => exact Plain.throw (by simp)

theorem safe_njsExtWrapKey (hkeys : ∀ key ∈ keys, key.Sound m)
    {fmt value wrappingValue options : Value}
    (hclean : (Call.wrapKey fmt value wrappingValue options).Clean env keys) :
    Safe m (njsExtWrapKey env keys fmt value wrappingValue options) Result.Sound := by
  unfold njsExtWrapKey
  refine (plain_njsKeyFormat env fmt).gives.bind fun format t ht hformat => ?_
  have hkeys' : ∀ key ∈ keys, key.Sound t := fun k hk => (hkeys k hk).mono ht
  refine (safe_key hkeys' value _).bind fun key u hu hkey => ?_
  refine (safe_key (fun k hk => (hkeys' k hk).mono hu) wrappingValue _).bind
    fun wrappingKey _ _ hwrapping => ?_
  refine (plain_njsKeyAlgorithm env options).safe.bind fun alg _ _ _ => ?_
  refine (Safe.failIf (by simp)).bind fun _ _ _ _ => ?_
  refine (safe_requireUsage wrappingKey _ _).bind fun _ _ _ _ => ?_
  refine (safe_requireAlg wrappingKey alg _).bind fun _ _ _ halg => ?_
  obtain rfl := halg
  refine (noKeys_njsWebcryptoExportKeyRaw hkey.1.wellFormed
    (hclean format key hformat hkey.2)).plain.safe.bind fun exported _ _ _ => ?_
  refine (plain_exportedBytes exported).safe.bind fun data _ _ _ => ?_
  refine (plain_njsWebcryptoCipherCore hwrapping.1.wellFormed data options true).safe.bind
    fun dst _ _ _ => ?_
  exact (noKeys_freshBuffer dst).sound

theorem plain_unwrappedData (fmt : Format) (decrypted : List UInt8) :
    Plain (unwrappedData env fmt decrypted) :=
  Plain.ite (Plain.orFail (by simp)) Plain.alloc.map

theorem safe_unwrapped (hkeys : ∀ key ∈ keys, key.Sound m)
    (fmt data unwrappingKey options keyAlg keyUsages : Value) :
    Safe m (unwrapped env keys fmt data unwrappingKey options keyAlg keyUsages)
      fun r _ => Gives (njsKeyUsage env keyUsages) r.2.2.1 := by
  unfold unwrapped
  refine (plain_njsKeyFormat env fmt).safe.bind fun format t ht _ => ?_
  refine (plain_dataOf env data).safe.bind fun bytes u hu _ => ?_
  refine (safe_key (fun k hk => (hkeys k hk).mono (ht.trans hu)) unwrappingKey _).bind
    fun wrappingKey _ _ hwrapping => ?_
  refine (plain_njsKeyAlgorithm env options).safe.bind fun alg _ _ _ => ?_
  refine (plain_njsKeyAlgorithm env keyAlg).safe.bind fun importAlg _ _ _ => ?_
  refine (plain_njsKeyUsage env keyUsages).gives.bind fun usage _ _ husage => ?_
  refine (safe_requireUsage wrappingKey _ _).bind fun _ _ _ _ => ?_
  refine (safe_requireAlg wrappingKey alg _).bind fun _ _ _ halg => ?_
  obtain rfl := halg
  refine (plain_njsWebcryptoCipherCore hwrapping.1.wellFormed bytes options false).safe.bind
    fun decrypted _ _ _ => ?_
  exact (plain_unwrappedData format decrypted).safe.bind fun keyData _ _ _ => Safe.pure husage

theorem safe_njsExtUnwrapKey (hkeys : ∀ key ∈ keys, key.Sound m)
    (fmt data unwrappingKey options keyAlg extractable keyUsages : Value) :
    Safe m (njsExtUnwrapKey env keys fmt data unwrappingKey options keyAlg extractable keyUsages)
      fun r t => ∃ format alg usage keyData, Gives (njsKeyUsage env keyUsages) usage ∧
        r.All fun key => Made format keyData alg usage (env.truth extractable) key t := by
  unfold njsExtUnwrapKey
  refine (safe_unwrapped hkeys fmt data unwrappingKey options keyAlg keyUsages).bind
    fun r _ _ husage => ?_
  refine (safe_njsWebcryptoImportKeyInternal r.1 r.2.2.2 r.2.1 keyAlg _ r.2.2.1).map
    fun key t _ hkey => ⟨r.1, r.2.1, r.2.2.1, r.2.2.2, husage, fun k hk => ?_⟩
  obtain rfl := List.mem_singleton.1 hk
  exact hkey

theorem Generated.All.result {P : Key → Prop} {r : Generated} (h : r.All P) : r.result.All P := by
  intro key hkey
  cases r with
  | secret k =>
    obtain rfl := List.mem_singleton.1 hkey
    exact h
  | pair privateKey publicKey =>
    rcases List.mem_pair.1 hkey with rfl | rfl
    · exact h.1
    · exact h.2

theorem safe_run (hkeys : ∀ key ∈ keys, key.Sound m) {c : Call} (hclean : c.Clean env keys) :
    Safe m (c.run env keys) Result.Sound := by
  cases c with
  | cipher encrypt options key data => exact safe_njsExtCipher hkeys encrypt options key data
  | sign verify options key sig data => exact safe_njsExtSign hkeys verify options key sig data
  | derive deriveKey aobject baseKey dobject extractable keyUsages =>
    exact safe_njsExtDerive hkeys hclean
  | generateKey aobject extractable keyUsages seed =>
    refine (safe_njsExtGenerateKey aobject extractable keyUsages seed).map fun r t _ hr => ?_
    obtain ⟨alg, usage, halg, -, hall⟩ := hr
    exact fun key hkey => (hall.result key hkey).sound (hclean alg halg)
  | importKey fmt keyData options extractable keyUsages =>
    refine (safe_njsExtImportKey fmt keyData options extractable keyUsages).mono fun r t _ hr => ?_
    obtain ⟨format, alg, usage, -, -, -, hall⟩ := hr
    exact fun key hkey => (hall key hkey).sound
  | exportKey fmt key => exact safe_njsExtExportKey hkeys fmt key
  | wrapKey fmt key wrappingKey options => exact safe_njsExtWrapKey hkeys hclean
  | unwrapKey fmt data unwrappingKey options keyAlg extractable keyUsages =>
    refine (safe_njsExtUnwrapKey hkeys fmt data unwrappingKey options keyAlg extractable
      keyUsages).mono fun r t _ hr => ?_
    obtain ⟨format, alg, usage, keyData', -, hall⟩ := hr
    exact fun key hkey => (hall key hkey).sound

end Njs.WebCrypto
