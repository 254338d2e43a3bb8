import Njs.WebCrypto.Safety

/-!
# Keys that are imported and generated
-/

namespace Njs.WebCrypto

open Text
open StateExcept

variable {m : Memory} {env : Env}

/-! ### Well-formed keys -/

/-- The type of the key objects of an algorithm. -/
def Alg.Holds : Alg → EvpPkeyId → Prop
  | .rsassaPkcs1V15, id | .rsaPss, id | .rsaOaep, id => id = .rsa
  | .ecdsa, id | .ecdh, id => ∃ group, id = .ec group
  | .ed25519, id => id = .ed25519
  | .x25519, id => id = .x25519
  | _, _ => False

/-- The representation of a key. -/
structure Key.WellFormed (key : Key) : Prop where
  member : if key.alg.raw then ∃ raw, key.u = .s raw
    else ∃ pkey privat curve, key.u = .a (some pkey) privat curve ∧ key.alg.Holds pkey.id
  aes : key.alg.isAes = true → ∀ raw, key.u = .s raw →
    raw.length = 16 ∨ raw.length = 24 ∨ raw.length = 32
  hash : key.alg = .hmac ∨ key.alg.isRsa = true → key.hash ≠ none

/-- `njs_key_ext_type`. -/
inductive Kind
  | secret
  | privateKey
  | publicKey
  deriving DecidableEq

def Key.kind (key : Key) : Kind :=
  if key.alg.raw then .secret
  else
    match key.u with
    | .a _ true _ => .privateKey
    | _ => .publicKey

/-- The usages that the kind of a key excludes when it is imported. -/
def kindMask (alg : Alg) (privat : Bool) : Finset Usage :=
  match alg with
  | .rsassaPkcs1V15 | .rsaPss | .rsaOaep => rsaMask alg privat
  | .ecdsa | .ed25519 => signMask privat
  | .ecdh | .x25519 => deriveMask privat
  | _ => ∅

def ImportsPrivate (fmt : Format) (keyData : Value) : Prop :=
  fmt = .pkcs8 ∨ fmt = .jwk ∧ ∃ text, keyData.prop "d" = some (.string text)

/-- A key that has been made for an algorithm with some usages, from data in a format. -/
structure Made (fmt : Format) (keyData : Value) (alg : Alg) (usage : Finset Usage)
    (extractable : Bool) (key : Key) (t : Memory) : Prop where
  alg_eq : key.alg = alg
  usage_eq : key.usage = usage
  extractable_eq : key.extractable = extractable
  usage_subset : usage ⊆ alg.usage
  wellFormed : key.WellFormed
  within : ∀ raw, key.u = .s raw → raw.Within t
  kind : ∀ pkey privat curve, key.u = .a pkey privat curve → Disjoint usage (kindMask alg privat)
  isPrivate : alg.raw = false → ImportsPrivate fmt keyData → key.kind = .privateKey

variable {curve : Option Curve}

theorem wellFormed_pkey {key : Key} {pkey : EvpPkey} {privat : Bool} (hraw : key.alg.raw = false)
    (hu : key.u = .a (some pkey) privat curve) (hid : key.alg.Holds pkey.id)
    (hhash : key.alg.isRsa = true → key.hash ≠ none) :
    key.WellFormed where
  member := by
    rw [if_neg (by simp [hraw])]
    exact ⟨pkey, privat, curve, hu, hid⟩
  aes _ raw h := by
    rw [hu] at h
    cases h
  hash h := by
    refine hhash (h.resolve_left fun halg => ?_)
    rw [halg] at hraw
    cases hraw

theorem wellFormed_raw {key : Key} {raw : Slice} (hraw : key.alg.raw = true) (hu : key.u = .s raw)
    (haes : key.alg.isAes = true → raw.length = 16 ∨ raw.length = 24 ∨ raw.length = 32)
    (hhash : key.alg = .hmac → key.hash ≠ none) : key.WellFormed where
  member := by
    rw [if_pos hraw]
    exact ⟨raw, hu⟩
  aes h raw' hu' := by
    rw [hu, Member.s.injEq] at hu'
    exact hu' ▸ haes h
  hash h := by
    refine hhash (h.resolve_right fun hrsa => ?_)
    revert hrsa hraw
    generalize key.alg = alg
    cases alg <;> simp [Alg.isRsa, Alg.raw]

/-! ### JSON Web Keys -/

theorem mem_of_entry {α : Type} {table : List (String × α)} {name : List UInt8} {a : α}
    (h : entry table name = some a) : a ∈ table.map Prod.snd := by
  obtain ⟨e, he, rfl⟩ := Option.map_eq_some_iff.1 h
  exact List.mem_map_of_mem (List.mem_of_find?_eq_some he)

theorem plain_njsImportBase64urlBignum (text : List UInt8) :
    Plain (njsImportBase64urlBignum env text) :=
  Plain.ite (Plain.throw (by simp)) Plain.pure

theorem plain_checkKeyOps (jwk : Value) (key : Key) : Plain (checkKeyOps env jwk key) := by
  unfold checkKeyOps
  split
  · exact Plain.pure
  · exact Plain.pure
  · exact (plain_njsKeyUsage env _).bind fun _ => Plain.failIf (by simp)

theorem plain_checkExt (jwk : Value) (key : Key) (kty : String) :
    Plain (checkExt env jwk key kty) := by
  unfold checkExt
  split
  · exact Plain.pure
  · exact Plain.pure
  · exact Plain.pure
  · exact Plain.failIf (by simp)

theorem plain_jwkHash (jwk : Value) : Plain (jwkHash env jwk) := by
  unfold jwkHash
  split
  · exact Plain.pure
  · exact Plain.pure
  · exact (plain_njsValueToString env _).bind fun _ => Plain.pure

theorem plain_njsImportJwkRsaPrivate (jwk : Value) (d : List UInt8) :
    Plain (njsImportJwkRsaPrivate env jwk d) :=
  (Plain.mapM (fun name => plain_requiredString jwk name _) rsaPrivate).bind fun _ =>
    Plain.mapM plain_njsImportBase64urlBignum _

/-- What an import has before its second `switch`: the algorithm and the usages are those of the
call. -/
structure Imported (alg : Alg) (usage : Finset Usage) (extractable : Bool) (key : Key) : Prop where
  alg_eq : key.alg = alg
  usage_eq : key.usage = usage
  extractable_eq : key.extractable = extractable

/-- A key object that comes with a key, from data in a format. -/
structure ImportedPkey (fmt : Format) (keyData : Value) (alg : Alg) (usage : Finset Usage)
    (extractable : Bool) (r : EvpPkey × Key) : Prop extends Imported alg usage extractable r.2 where
  member : ∀ raw, r.2.u ≠ .s raw
  isPrivate : ImportsPrivate fmt keyData → ∃ p c, r.2.u = .a p true c

variable {alg : Alg} {usage : Finset Usage} {extractable : Bool} {key : Key}

theorem safe_optionalString (jwk : Value) (name message : String) :
    Safe m (optionalString jwk name message) fun d _ =>
      ∀ text, jwk.prop name = some (.string text) → d = some text := by
  unfold optionalString
  split
  · rename_i h
    exact Safe.pure fun text h' => by simp [h] at h'
  · rename_i h
    exact Safe.pure fun text h' => by simp [h] at h'
  · rename_i text h
    exact Safe.pure fun text' h' => by simpa [h] using h'
  · exact Safe.throw (by simp)

/-- The data of a JSON Web Key are those of a private key just if `d` is a string. -/
theorem importsPrivate_jwk {jwk : Value} :
    ImportsPrivate .jwk jwk ↔ ∃ text, jwk.prop "d" = some (.string text) := by
  simp [ImportsPrivate]

theorem safe_njsImportJwkRsa (h : Imported alg usage extractable key) (jwk : Value) :
    Safe m (njsImportJwkRsa env jwk key) fun r _ =>
      ImportedPkey .jwk jwk alg usage extractable r := by
  unfold njsImportJwkRsa
  refine (plain_requiredString jwk _ _).safe.bind fun n _ _ _ => ?_
  refine (plain_requiredString jwk _ _).safe.bind fun e _ _ _ => ?_
  refine (safe_optionalString jwk "d" _).bind fun d _ _ hd => ?_
  refine (plain_checkKeyOps jwk key).safe.bind fun _ _ _ _ => ?_
  refine (plain_jwkHash jwk).safe.bind fun hash _ _ _ => ?_
  refine (plain_checkExt jwk key _).safe.bind fun _ _ _ _ => ?_
  refine (plain_njsImportBase64urlBignum n).safe.bind fun nBn _ _ _ => ?_
  refine (plain_njsImportBase64urlBignum e).safe.bind fun eBn _ _ _ => ?_
  have hprivat : Plain (d.elim (pure []) (njsImportJwkRsaPrivate env jwk)) := by
    rcases d with _ | d
    · exact Plain.pure
    · exact plain_njsImportJwkRsaPrivate jwk d
  refine hprivat.safe.bind fun privat _ _ _ => ?_
  refine Plain.openSsl.safe.bind fun pkey _ _ _ => Safe.pure ?_
  refine ⟨⟨h.alg_eq, h.usage_eq, h.extractable_eq⟩, by simp, fun hjwk => ⟨none, none, ?_⟩⟩
  obtain ⟨text, htext⟩ := importsPrivate_jwk.1 hjwk
  simp [hd text htext]

theorem safe_njsImportJwkEc (h : Imported alg usage extractable key) (jwk : Value)
    (curve : Option Curve) :
    Safe m (njsImportJwkEc env jwk key curve) fun r _ =>
      ImportedPkey .jwk jwk alg usage extractable r := by
  unfold njsImportJwkEc
  refine (plain_requiredString jwk _ _).safe.bind fun x _ _ _ => ?_
  refine (plain_requiredString jwk _ _).safe.bind fun y _ _ _ => ?_
  refine (safe_optionalString jwk "d" _).bind fun d _ _ hd => ?_
  refine (plain_checkKeyOps jwk key).safe.bind fun _ _ _ _ => ?_
  refine (plain_checkExt jwk key _).safe.bind fun _ _ _ _ => ?_
  refine (plain_optionalString jwk _ _).safe.bind fun crv _ _ _ => ?_
  refine (Safe.failIf (by simp)).bind fun _ _ _ _ => ?_
  refine (plain_njsImportBase64urlBignum x).safe.bind fun xBn _ _ _ => ?_
  refine (plain_njsImportBase64urlBignum y).safe.bind fun yBn _ _ _ => ?_
  have hdBn : Plain (d.elim (pure none) fun text => some <$> njsImportBase64urlBignum env text)
    := by
    rcases d with _ | d
    · exact Plain.pure
    · exact (plain_njsImportBase64urlBignum d).map
  refine hdBn.safe.bind fun dBn _ _ _ => ?_
  refine Plain.openSsl.safe.bind fun pkey _ _ _ => Safe.pure ?_
  refine ⟨⟨h.alg_eq, h.usage_eq, h.extractable_eq⟩, by simp, fun hjwk => ⟨none, curve, ?_⟩⟩
  obtain ⟨text, htext⟩ := importsPrivate_jwk.1 hjwk
  simp [hd text htext]

theorem plain_okpNumber (text : List UInt8) (message : String) :
    Plain (okpNumber env text message) := Plain.ite (Plain.throw (by simp)) Plain.pure

theorem safe_njsImportJwkOkp (h : Imported alg usage extractable key) (jwk : Value) :
    Safe m (njsImportJwkOkp env jwk key) fun r _ =>
      ImportedPkey .jwk jwk alg usage extractable r := by
  have hid (crv : List UInt8) : Plain (okpId crv) :=
    Plain.ite Plain.pure (Plain.ite Plain.pure (Plain.throw (by simp)))
  unfold njsImportJwkOkp
  refine (plain_requiredString jwk _ _).safe.bind fun crv _ _ _ => ?_
  refine (hid crv).safe.bind fun id _ _ _ => ?_
  refine (plain_requiredString jwk _ _).safe.bind fun x _ _ _ => ?_
  refine (plain_okpNumber x _).safe.bind fun xRaw _ _ _ => ?_
  split
  · refine (plain_okpNumber _ _).safe.bind fun dRaw _ _ _ => ?_
    refine Plain.openSsl.safe.bind fun pkey _ _ _ => Safe.pure ?_
    exact ⟨⟨h.alg_eq, h.usage_eq, h.extractable_eq⟩, by simp, fun _ => ⟨none, none, rfl⟩⟩
  · rename_i hd
    refine Plain.openSsl.safe.bind fun pkey _ _ _ => Safe.pure ?_
    refine ⟨⟨h.alg_eq, h.usage_eq, h.extractable_eq⟩, by simp, fun hjwk => ?_⟩
    obtain ⟨text, htext⟩ := importsPrivate_jwk.1 hjwk
    exact absurd htext (hd text)

theorem aesName_length {alg : Alg} {name : List UInt8} {length : ℕ}
    (h : entry (njsWebcryptoAlgAesName alg) name = some length) :
    length = 16 ∨ length = 24 ∨ length = 32 := by
  have hmem := mem_of_entry h
  revert hmem
  cases alg <;> simp [njsWebcryptoAlgAesName]

theorem safe_octAlg (key : Key) (name : List UInt8) (size : ℕ) :
    Safe m (octAlg key name size) fun hash _ =>
      (key.alg = .hmac → hash ≠ none) ∧
        (key.alg.isAes = true → size = 16 ∨ size = 24 ∨ size = 32) := by
  unfold octAlg
  refine Safe.ite (fun halg => ?_) fun halg => ?_
  · refine (Safe.orFail (by simp)).map fun hash _ _ _ => ⟨fun _ => by simp, fun haes => ?_⟩
    rw [halg] at haes
    cases haes
  · refine (Safe.orFail (by simp)).bind fun length _ _ hlength => ?_
    refine (Safe.failIf (by simp)).bind fun _ _ _ hsize => Safe.pure ⟨fun h => absurd h halg, ?_⟩
    intro _
    rw [not_not.1 hsize]
    exact aesName_length hlength

/-- The bytes of a JSON Web Key. -/
structure ImportedRaw (alg : Alg) (usage : Finset Usage) (extractable : Bool) (key : Key)
    (t : Memory) : Prop extends Imported alg usage extractable key where
  member : ∃ raw, key.u = .s raw ∧ raw.Within t ∧
    (alg.isAes = true → raw.length = 16 ∨ raw.length = 24 ∨ raw.length = 32)
  hash : alg = .hmac → key.hash ≠ none

theorem safe_njsImportJwkOct (h : Imported alg usage extractable key) (jwk : Value) :
    Safe m (njsImportJwkOct env jwk key) (ImportedRaw alg usage extractable) := by
  unfold njsImportJwkOct
  refine (plain_requiredString jwk _ _).safe.bind fun b64 _ _ _ => ?_
  refine Safe.alloc.bind fun raw _ _ hraw => ?_
  refine (plain_requiredString jwk _ _).safe.bind fun name _ ht₁ _ => ?_
  refine (safe_octAlg key name raw.length).bind fun hash _ ht₂ hhash => ?_
  refine (plain_checkKeyOps jwk key).safe.bind fun _ _ ht₃ _ => ?_
  refine (plain_checkExt jwk key _).safe.bind fun _ _ ht₄ _ => Safe.pure ?_
  rw [h.alg_eq] at hhash
  exact ⟨⟨h.alg_eq, h.usage_eq, h.extractable_eq⟩,
    ⟨raw, rfl, Slice.Within.mono (Or.inl hraw.2) (((ht₁.trans ht₂).trans ht₃).trans ht₄),
      hhash.2⟩, hhash.1⟩

/-- What the first `switch` of an import leaves. -/
structure ImportedData (fmt : Format) (keyData : Value) (alg : Alg) (usage : Finset Usage)
    (extractable : Bool) (r : Option EvpPkey × Key) (t : Memory) : Prop
    extends Imported alg usage extractable r.2 where
  raw : fmt = .raw → r = (none, njsWebcryptoKeyAlloc alg usage extractable)
  bytes : fmt ≠ .raw → alg.raw = true → ImportedRaw alg usage extractable r.2 t
  pkey : fmt ≠ .raw → alg.raw = false → ∀ raw, r.2.u ≠ .s raw
  isPrivate : alg.raw = false → ImportsPrivate fmt keyData → ∃ p c, r.2.u = .a p true c

variable {fmt : Format} {keyData : Value}

theorem imported_alloc : Imported alg usage extractable
    (njsWebcryptoKeyAlloc alg usage extractable) := ⟨rfl, rfl, rfl⟩

theorem ImportedPkey.data {r : EvpPkey × Key} {t : Memory}
    (h : ImportedPkey fmt keyData alg usage extractable r) (hfmt : fmt ≠ .raw)
    (hraw : alg.raw = false) :
    ImportedData fmt keyData alg usage extractable (some r.1, r.2) t where
  toImported := h.toImported
  raw h' := absurd h' hfmt
  bytes _ h' := absurd h' (by simp [hraw])
  pkey _ _ := h.member
  isPrivate _ := h.isPrivate

theorem safe_ktyMatch (kty : String) (ok : Bool) (alg : Alg) :
    Safe m (ktyMatch kty ok alg) fun _ _ => ok = true :=
  (Safe.failIf (by simp)).mono fun _ _ _ h => not_not.1 h

theorem safe_importJwk (jwk options : Value) :
    Safe m (importJwk env jwk alg options (njsWebcryptoKeyAlloc alg usage extractable))
      (ImportedData .jwk jwk alg usage extractable) := by
  unfold importJwk
  refine (Safe.failIf (by simp)).bind fun _ _ _ _ => ?_
  refine (plain_dataOf env _).safe.bind fun kty _ _ _ => ?_
  refine Safe.ite (fun _ => ?_) fun _ => Safe.ite (fun _ => ?_) fun _ =>
    Safe.ite (fun _ => ?_) fun _ => Safe.ite (fun _ => ?_) fun _ => Safe.throw (by simp)
  · refine (safe_ktyMatch _ _ alg).bind fun _ _ _ halg => ?_
    refine (safe_njsImportJwkRsa imported_alloc jwk).bind fun r _ _ hr => Safe.pure ?_
    refine hr.data (by simp) ?_
    revert halg
    cases alg <;> simp [Alg.isRsa, Alg.raw]
  · refine (safe_ktyMatch _ _ alg).bind fun _ _ _ halg => ?_
    refine (plain_njsAlgorithmCurve env options none).safe.bind fun curve _ _ _ => ?_
    refine (safe_njsImportJwkEc imported_alloc jwk curve).bind fun r _ _ hr => Safe.pure ?_
    refine hr.data (by simp) ?_
    rcases of_decide_eq_true halg with rfl | rfl <;> rfl
  · refine (safe_ktyMatch _ _ alg).bind fun _ _ _ halg => ?_
    refine (safe_njsImportJwkOct imported_alloc jwk).bind fun key _ _ hkey => Safe.pure ?_
    exact ⟨hkey.toImported, by simp, fun _ _ => hkey, fun _ h => absurd halg (by simp [h]),
      fun h => absurd halg (by simp [h])⟩
  · refine (safe_ktyMatch _ _ alg).bind fun _ _ _ halg => ?_
    refine (safe_njsImportJwkOkp imported_alloc jwk).bind fun r _ _ hr => Safe.pure ?_
    refine hr.data (by simp) ?_
    rcases of_decide_eq_true halg with rfl | rfl <;> rfl

/-! ### Imported keys -/

theorem raw_of_fmt {fmt : Format} (hfmt : fmt ∈ alg.fmt) (h : fmt = .pkcs8 ∨ fmt = .spki) :
    alg.raw = false := by
  revert hfmt
  rcases h with rfl | rfl <;> cases alg <;> decide

theorem safe_importData (hfmt : fmt ∈ alg.fmt) (rawData : Slice) (options : Value) :
    Safe m (importData env fmt rawData keyData alg options
      (njsWebcryptoKeyAlloc alg usage extractable)) (ImportedData fmt keyData alg usage extractable)
        := by
  cases fmt with
  | raw =>
    exact Safe.pure ⟨imported_alloc, fun _ => rfl, by simp, by simp, by simp [ImportsPrivate]⟩
  | pkcs8 =>
    refine Plain.bytesOf.safe.bind fun data _ _ _ => ?_
    refine Plain.openSsl.safe.bind fun pkey _ _ _ => Safe.pure ?_
    exact ImportedPkey.data (r := (pkey, _))
      ⟨⟨rfl, rfl, rfl⟩, by simp, fun _ => ⟨none, none, rfl⟩⟩ (by simp)
      (raw_of_fmt hfmt (Or.inl rfl))
  | spki =>
    refine Plain.bytesOf.safe.bind fun data _ _ _ => ?_
    refine Plain.openSsl.safe.bind fun pkey _ _ _ => Safe.pure ?_
    exact ImportedPkey.data (r := (pkey, _))
      ⟨imported_alloc, by simp, by simp [ImportsPrivate]⟩ (by simp)
      (raw_of_fmt hfmt (Or.inr rfl))
  | jwk => exact safe_importJwk keyData options

theorem safe_privat {key : Key} (h : ∀ raw, key.u ≠ .s raw) :
    Safe m key.privat fun privat _ => ∀ p b c, key.u = .a p b c → b = privat := by
  unfold Key.privat
  rcases hu : key.u with _ | ⟨p, b, c⟩ | raw
  · exact Safe.pure (by simp)
  · refine Safe.pure fun _ _ _ h => ?_
    rw [Member.a.injEq] at h
    exact h.2.1.symm
  · exact absurd hu (h raw)

theorem safe_privat_true {P : Prop} {key : Key} (h : ∀ raw, key.u ≠ .s raw)
    (hprivate : P → ∃ p c, key.u = .a p true c) :
    Safe m key.privat fun privat _ => P → privat = true :=
  (safe_privat h).mono fun privat _ _ hprivat hp => by
    obtain ⟨p, c, hu⟩ := hprivate hp
    exact (hprivat p true c hu).symm

theorem plain_privat {key : Key} (h : ∀ raw, key.u ≠ .s raw) : Plain key.privat :=
  fun _ => (safe_privat h).mono fun _ _ _ _ => trivial

theorem plain_curve {key : Key} (h : ∀ raw, key.u ≠ .s raw) : Plain key.curve := by
  unfold Key.curve
  rcases hu : key.u with _ | ⟨p, b, c⟩ | raw
  · exact Plain.pure
  · exact Plain.pure
  · exact absurd hu (h raw)

theorem safe_checkKind (alg : Alg) (key : Key) (mask : Finset Usage) :
    Safe m (checkKind alg key mask) fun _ _ => Disjoint key.usage mask :=
  (Safe.failIf (by simp)).mono fun _ _ _ h =>
    Finset.disjoint_iff_inter_eq_empty.2 (Finset.not_nonempty_iff_eq_empty.1 h)

variable {t : Memory} {rawData : Slice} {r : Option EvpPkey × Key}

theorem made_pkey {pkey : EvpPkey} {privat : Bool} {hash : Option Hash}
    (h : Imported alg usage extractable key) (hsub : usage ⊆ alg.usage) (hraw : alg.raw = false)
    (hid : alg.Holds pkey.id) (hhash : alg.isRsa = true → hash ≠ none)
    (hkind : Disjoint key.usage (kindMask alg privat))
    (hprivate : ImportsPrivate fmt keyData → privat = true) :
    Made fmt keyData alg usage extractable
      {key with u := .a (some pkey) privat curve, hash := hash} t where
  alg_eq := h.alg_eq
  usage_eq := h.usage_eq
  extractable_eq := h.extractable_eq
  usage_subset := hsub
  wellFormed := wellFormed_pkey (by rw [← hraw, ← h.alg_eq]) rfl (by rwa [h.alg_eq])
    (by rwa [h.alg_eq])
  within raw hu := by cases hu
  kind p b c hu := by
    rw [Member.a.injEq] at hu
    rwa [← h.usage_eq, ← hu.2.1]
  isPrivate _ hdata := by
    rw [Key.kind, h.alg_eq, hraw, hprivate hdata]
    rfl

theorem made_raw {raw : Slice} {hash : Option Hash} (h : Imported alg usage extractable key)
    (hsub : usage ⊆ alg.usage) (hraw : alg.raw = true) (hwithin : raw.Within t)
    (haes : alg.isAes = true → raw.length = 16 ∨ raw.length = 24 ∨ raw.length = 32)
    (hhash : alg = .hmac → hash ≠ none) :
    Made fmt keyData alg usage extractable {key with u := .s raw, hash := hash} t where
  alg_eq := h.alg_eq
  usage_eq := h.usage_eq
  extractable_eq := h.extractable_eq
  usage_subset := hsub
  wellFormed := wellFormed_raw (by rw [← hraw, ← h.alg_eq]) rfl (by rwa [h.alg_eq])
    (by rwa [h.alg_eq])
  within raw' hu := by
    rw [Member.s.injEq] at hu
    exact hu ▸ hwithin
  kind p b c hu := by cases hu
  isPrivate h := absurd hraw (by simp [h])

theorem ImportedRaw.made {u : Memory} (h : ImportedRaw alg usage extractable key t) (ht : t <+: u)
    (hsub : usage ⊆ alg.usage) (hraw : alg.raw = true) :
    Made fmt keyData alg usage extractable key u := by
  obtain ⟨raw, hu, hwithin, haes⟩ := h.member
  have hkey : Made fmt keyData alg usage extractable { key with u := .s raw, hash := key.hash } u :=
    made_raw h.toImported hsub hraw (hwithin.mono ht) haes h.hash
  rwa [← hu] at hkey

theorem safe_importRsa (h : Imported alg usage extractable key) (hsub : usage ⊆ alg.usage)
    (halg : alg.isRsa = true) (hu : ∀ raw, key.u ≠ .s raw)
    (hprivate : ImportsPrivate fmt keyData → ∃ p c, key.u = .a p true c) (options : Value)
    (pkey : Option EvpPkey) :
    Safe m (importRsa env alg options pkey key) (Made fmt keyData alg usage extractable) := by
  have hkinds : alg.raw = false ∧ (∀ id, id = .rsa → alg.Holds id) ∧
      kindMask alg = rsaMask alg := by
    revert halg
    cases alg <;> simp [Alg.isRsa, Alg.raw, Alg.Holds] <;> rfl
  unfold importRsa
  refine (Safe.failIf (by simp)).bind fun _ _ _ hid => ?_
  obtain ⟨p, rfl, hp⟩ := Option.map_eq_some_iff.1 (not_not.1 hid)
  refine (plain_njsAlgorithmHash env options).safe.bind fun hash _ _ _ => ?_
  refine (Safe.failIf (by simp)).bind fun _ _ _ _ => ?_
  refine (safe_privat_true hu hprivate).bind fun privat _ _ htrue => ?_
  refine (safe_checkKind alg key _).bind fun _ _ _ hkind => Safe.pure ?_
  exact made_pkey h hsub hkinds.1 (hkinds.2.1 _ hp) (by simp) (by rwa [hkinds.2.2])
    htrue

theorem plain_importedPkey (fmt : Format) (made : Option EvpPkey) (name : String)
    (pkey : Option EvpPkey) : Plain (importedPkey fmt made name pkey) :=
  Plain.ite Plain.openSsl.map Plain.pure

theorem safe_ecGroup (pkey : Option EvpPkey) :
    Safe m (ecGroup pkey) fun group _ => ∃ p, pkey = some p ∧ p.id = .ec group := by
  unfold ecGroup
  split
  · rename_i group hid
    exact Safe.pure (Option.map_eq_some_iff.1 hid)
  · exact Safe.throw (by simp)

theorem safe_importEc (h : Imported alg usage extractable key) (hsub : usage ⊆ alg.usage)
    (halg : alg = .ecdsa ∨ alg = .ecdh) (hu : ∀ raw, key.u ≠ .s raw)
    (hprivate : ImportsPrivate fmt keyData → ∃ p c, key.u = .a p true c) (rawData :
      Slice) (options : Value) (pkey : Option EvpPkey) :
    Safe m (importEc env fmt rawData alg options pkey key) (Made fmt keyData alg usage extractable)
      := by
  have hkinds : alg.raw = false ∧ (∀ id, (∃ group, id = .ec group) → alg.Holds id) ∧
      alg.isRsa = false ∧
      ∀ privat, kindMask alg privat = if alg = .ecdsa then signMask privat else deriveMask privat
        := by
    rcases halg with rfl | rfl <;> exact ⟨rfl, fun _ h => h, rfl, fun _ => rfl⟩
  unfold importEc
  refine (plain_curve hu).safe.bind fun keyCurve _ _ _ => ?_
  refine (plain_njsAlgorithmCurve env options keyCurve).safe.bind fun curve _ _ _ => ?_
  refine Plain.bytesOf.safe.bind fun data _ _ _ => ?_
  refine (plain_importedPkey fmt _ _ pkey).safe.bind fun pkey' _ _ _ => ?_
  refine (safe_ecGroup pkey').bind fun group _ _ hgroup => ?_
  obtain ⟨p, rfl, hp⟩ := hgroup
  refine (Safe.failIf (by simp)).bind fun _ _ _ _ => ?_
  refine (safe_privat_true hu hprivate).bind fun privat _ _ htrue => ?_
  refine (safe_checkKind alg key _).bind fun _ _ _ hkind => Safe.pure ?_
  exact made_pkey h hsub hkinds.1 (hkinds.2.1 _ ⟨group, hp⟩) (by simp [hkinds.2.2.1])
    (by rwa [hkinds.2.2.2]) htrue

theorem safe_import25519 {id : EvpPkeyId} (h : Imported alg usage extractable key)
    (hsub : usage ⊆ alg.usage) (halg : alg = .ed25519 ∧ id = .ed25519 ∨ alg = .x25519 ∧
      id = .x25519)
    (hu : ∀ raw, key.u ≠ .s raw)
    (hprivate : ImportsPrivate fmt keyData → ∃ p c, key.u = .a p true c) (rawData : Slice)
    (pkey : Option EvpPkey) :
    Safe m (import25519 env fmt rawData alg id pkey key) (Made fmt keyData alg usage extractable)
      := by
  have hkinds : alg.raw = false ∧ (∀ id', id' = id → alg.Holds id') ∧ alg.isRsa = false ∧
      ∀ privat, kindMask alg privat =
        if alg = .ed25519 then signMask privat else deriveMask privat := by
    rcases halg with ⟨rfl, rfl⟩ | ⟨rfl, rfl⟩ <;> exact ⟨rfl, fun _ h => h, rfl, fun _ => rfl⟩
  unfold import25519
  refine Plain.bytesOf.safe.bind fun data _ _ _ => ?_
  refine (plain_importedPkey fmt _ _ pkey).safe.bind fun pkey' _ _ _ => ?_
  refine (Safe.failIf (by simp)).bind fun _ _ _ hid => ?_
  obtain ⟨p, rfl, hp⟩ := Option.map_eq_some_iff.1 (not_not.1 hid)
  refine (safe_privat_true hu hprivate).bind fun privat _ _ htrue => ?_
  refine (safe_checkKind alg key _).bind fun _ _ _ hkind => Safe.pure ?_
  exact made_pkey h hsub hkinds.1 (hkinds.2.1 _ hp) (by simp [hkinds.2.2.1])
    (by rwa [hkinds.2.2.2]) htrue

theorem safe_importHmac (h : ImportedData fmt keyData .hmac usage extractable r m)
    (hsub : usage ⊆ Alg.hmac.usage) (hwithin : rawData.Within m) (options : Value) :
    Safe m (importHmac env fmt rawData options r.2) (Made fmt keyData .hmac usage extractable) := by
  unfold importHmac
  refine (plain_njsAlgorithmHash env options).safe.bind fun hash _ ht _ => ?_
  refine Safe.ite (fun _ => Safe.pure ?_) fun hfmt => ?_
  · exact made_raw h.toImported hsub rfl (hwithin.mono ht) (by simp [Alg.isAes]) (by simp)
  · refine (Safe.failIf (by simp)).bind fun _ _ ht' _ => Safe.pure ?_
    exact (h.bytes hfmt rfl).made (ht.trans ht') hsub rfl

theorem safe_importAes (h : ImportedData fmt keyData alg usage extractable r m)
    (hsub : usage ⊆ alg.usage) (halg : alg.isAes = true) (hwithin : rawData.Within m) :
    Safe m (importAes fmt rawData r.2) (Made fmt keyData alg usage extractable) := by
  have hkinds : alg.raw = true ∧ alg ≠ .hmac := by
    revert halg
    cases alg <;> simp [Alg.isAes, Alg.raw]
  unfold importAes
  refine Safe.ite (fun _ => ?_) fun hfmt => Safe.pure ?_
  · refine (Safe.failIf (by simp)).bind fun _ _ ht hlength => Safe.pure ?_
    exact made_raw h.toImported hsub hkinds.1 (hwithin.mono ht) (by omega)
      fun h => absurd h hkinds.2
  · exact (h.bytes hfmt hkinds.1).made List.prefix_rfl hsub hkinds.1

/-- A key that the first `switch` leaves for a key object holds no bytes. -/
theorem ImportedData.noBytes (h : ImportedData fmt keyData alg usage extractable r t)
    (hraw : alg.raw = false) (raw : Slice) : r.2.u ≠ .s raw := by
  by_cases hfmt : fmt = .raw
  · rw [h.raw hfmt]
    simp [njsWebcryptoKeyAlloc]
  · exact h.pkey hfmt hraw raw

theorem safe_importAlgorithm (h : ImportedData fmt keyData alg usage extractable r m)
    (hsub : usage ⊆ alg.usage) (hwithin : rawData.Within m) (options : Value) :
    Safe m (importAlgorithm env fmt rawData alg options r.1 r.2) (Made fmt keyData alg usage
      extractable) := by
  unfold importAlgorithm
  cases alg with
  | rsaOaep | rsaPss | rsassaPkcs1V15 =>
    exact safe_importRsa h.toImported hsub rfl (h.noBytes rfl) (h.isPrivate rfl) options r.1
  | ecdsa =>
    exact safe_importEc h.toImported hsub (Or.inl rfl) (h.noBytes rfl) (h.isPrivate rfl) _ _ _
  | ecdh =>
    exact safe_importEc h.toImported hsub (Or.inr rfl) (h.noBytes rfl) (h.isPrivate rfl) _ _ _
  | ed25519 =>
    exact safe_import25519 h.toImported hsub (Or.inl ⟨rfl, rfl⟩) (h.noBytes rfl)
      (h.isPrivate rfl) _ _
  | x25519 =>
    exact safe_import25519 h.toImported hsub (Or.inr ⟨rfl, rfl⟩) (h.noBytes rfl)
      (h.isPrivate rfl) _ _
  | hmac => exact safe_importHmac h hsub hwithin options
  | aesGcm | aesCtr | aesCbc | aesKw => exact safe_importAes h hsub rfl hwithin
  | pbkdf2 | hkdf =>
    refine Safe.pure ?_
    exact made_raw h.toImported hsub rfl hwithin (by simp [Alg.isAes]) (by simp)

theorem safe_importedData (fmt : Format) (keyData : Value) :
    Safe m (importedData env fmt keyData) fun s t => s.Within t :=
  Safe.ite (fun _ => Safe.pure (Or.inr rfl)) fun _ => safe_njsVmValueToBytes env keyData

theorem safe_njsWebcryptoImportKeyInternal (fmt : Format) (keyData : Value) (alg : Alg)
    (options : Value) (extractable : Bool) (usage : Finset Usage) :
    Safe m (njsWebcryptoImportKeyInternal env fmt keyData alg options extractable usage)
      (Made fmt keyData alg usage extractable) := by
  unfold njsWebcryptoImportKeyInternal
  refine (Safe.failIf (by simp [unsupportedFormat])).bind fun _ _ _ hfmt => ?_
  refine (Safe.failIf (by simp [unsupportedUsage])).bind fun _ _ _ hsub => ?_
  refine (safe_importedData fmt keyData).bind fun rawData _ _ hwithin => ?_
  refine (safe_importData (not_not.1 hfmt) rawData options).bind fun r _ ht hr => ?_
  exact safe_importAlgorithm hr (not_not.1 hsub) (hwithin.mono ht) options

/-! ### Generated keys -/

/-- The condition on what `generateKey` makes: the secret key, or both keys of a pair. -/
def Generated.All (P : Key → Prop) : Generated → Prop
  | .secret key => P key
  | .pair privateKey publicKey => P privateKey ∧ P publicKey

/-- The usages that a generated key has when some were asked for. -/
def generatedUsage (alg : Alg) (usage : Finset Usage) (kind : Kind) : Finset Usage :=
  match alg, kind with
  | .rsaOaep, .privateKey => {.decrypt}
  | .rsaOaep, _ => {.encrypt}
  | .rsassaPkcs1V15, .privateKey | .rsaPss, .privateKey | .ecdsa, .privateKey => {.sign}
  | .rsassaPkcs1V15, _ | .rsaPss, _ | .ecdsa, _ => {.verify}
  | .ecdh, _ => {.deriveKey, .deriveBits}
  | .ed25519, .privateKey => {.sign} ∩ usage
  | .ed25519, _ => {.verify} ∩ usage
  | .x25519, .privateKey => {.deriveKey, .deriveBits} ∩ usage
  | .x25519, _ => ∅ ∩ usage
  | _, _ => usage

/-- A key that has been generated for an algorithm, with some usages asked for; it is well-formed
if it has been `sized`. -/
structure GeneratedKey (sized : Prop) (alg : Alg) (usage : Finset Usage) (extractable : Bool)
    (key : Key) (t : Memory) : Prop where
  alg_eq : key.alg = alg
  extractable_eq : key.extractable = extractable
  usage_eq : key.usage = generatedUsage alg usage key.kind
  usage_subset : key.usage ⊆ alg.usage
  wellFormed : sized → key.WellFormed
  within : ∀ raw, key.u = .s raw → raw.Within t

variable {sized : Prop}

theorem kind_pair {own : Finset Usage} {pkey : Option EvpPkey} {hash : Option Hash}
    (hraw : alg.raw = false) :
    Key.kind {alg, usage := own, extractable, hash, u := .a pkey true curve} = .privateKey ∧
      Key.kind {alg, usage := own, extractable, hash, u := .a pkey false curve} = .publicKey := by
  simp [Key.kind, hraw]

theorem generated_pkey {own : Finset Usage} {pkey : EvpPkey} {privat : Bool} {hash : Option Hash}
    (hraw : alg.raw = false)
    (hown : own = generatedUsage alg usage (if privat then .privateKey else .publicKey))
    (hsub : own ⊆ alg.usage) (hid : alg.Holds pkey.id) (hhash : alg.isRsa = true → hash ≠ none) :
    GeneratedKey sized alg usage extractable
      {alg, usage := own, extractable, hash, u := .a (some pkey) privat curve} t where
  alg_eq := rfl
  extractable_eq := rfl
  usage_eq := by
    cases privat with
    | true => rw [(kind_pair hraw).1]; exact hown
    | false => rw [(kind_pair hraw).2]; exact hown
  usage_subset := hsub
  wellFormed _ := wellFormed_pkey hraw rfl hid hhash
  within raw hu := by cases hu

theorem safe_generateRsa (halg : alg.isRsa = true) (aobject : Value) (seed : ℕ) :
    Safe m (generateRsa env alg aobject usage extractable seed) fun r t =>
      r.All fun key => GeneratedKey sized alg usage extractable key t := by
  unfold generateRsa
  refine (plain_njsAlgorithmHash env aobject).safe.bind fun hash _ _ _ => ?_
  refine Plain.converted.safe.bind fun val _ _ _ => ?_
  split
  · refine Safe.openSsl.bind fun pkey _ _ _ => Safe.pure ?_
    have hid := pkey.2
    cases alg with
    | rsassaPkcs1V15 | rsaPss | rsaOaep =>
      exact ⟨generated_pkey rfl rfl (by decide) hid (by simp),
        generated_pkey rfl rfl (by decide) hid (by simp)⟩
    | _ => cases halg
  · exact Safe.throw (by simp)

theorem safe_generateEc (halg : alg = .ecdsa ∨ alg = .ecdh) (aobject : Value) (seed : ℕ) :
    Safe m (generateEc env alg aobject usage extractable seed) fun r t =>
      r.All fun key => GeneratedKey sized alg usage extractable key t := by
  unfold generateEc
  refine (plain_njsAlgorithmCurve env aobject none).safe.bind fun curve _ _ _ => ?_
  refine Safe.openSsl.bind fun pkey _ _ hpkey => ?_
  obtain ⟨c, -, hc⟩ := Option.bind_eq_some_iff.1 hpkey
  obtain ⟨p, -, rfl⟩ := Option.map_eq_some_iff.1 hc
  rcases halg with rfl | rfl
  · exact Safe.pure ⟨generated_pkey rfl rfl (by decide) ⟨_, p.2⟩ (by simp [Alg.isRsa]),
      generated_pkey rfl rfl (by decide) ⟨_, p.2⟩ (by simp [Alg.isRsa])⟩
  · exact Safe.pure ⟨generated_pkey rfl rfl (by decide) ⟨_, p.2⟩ (by simp [Alg.isRsa]),
      generated_pkey rfl rfl (by decide) ⟨_, p.2⟩ (by simp [Alg.isRsa])⟩

theorem safe_generate25519 {id : EvpPkeyId} {pkey? : Option (PkeyOf id)}
    {privUsage pubUsage : Finset Usage} (hraw : alg.raw = false) (hid : alg.Holds id)
    (hrsa : alg.isRsa = false) (hpriv : privUsage ⊆ alg.usage) (hpub : pubUsage ⊆ alg.usage)
    (hprivOwn : privUsage ∩ usage = generatedUsage alg usage .privateKey)
    (hpubOwn : pubUsage ∩ usage = generatedUsage alg usage .publicKey) :
    Safe m (njsWebcryptoGenerate25519Keypair (pkey?.map Subtype.val) alg usage extractable
      privUsage pubUsage) fun r t => r.All fun key => GeneratedKey sized alg usage extractable key t
        := by
  unfold njsWebcryptoGenerate25519Keypair
  refine Safe.openSsl.bind fun pkey _ _ hpkey => ?_
  obtain ⟨p, -, rfl⟩ := Option.map_eq_some_iff.1 hpkey
  have hholds : alg.Holds p.1.id := by
    rw [p.2]
    exact hid
  exact Safe.pure
    ⟨generated_pkey hraw hprivOwn (Finset.inter_subset_left.trans hpriv) hholds (by simp [hrsa]),
      generated_pkey hraw hpubOwn (Finset.inter_subset_left.trans hpub) hholds (by simp [hrsa])⟩

theorem safe_generateRaw {hash : Option Hash} {length : ℕ} (hsub : usage ⊆ alg.usage)
    (hraw : alg.raw = true)
    (haes : sized → alg.isAes = true → length = 16 ∨ length = 24 ∨ length = 32)
    (hhash : alg = .hmac → hash ≠ none) (hown : ∀ kind, generatedUsage alg usage kind = usage)
    (seed : ℕ) :
    Safe m (generateRaw env {alg, usage, extractable, hash} length seed) fun r t =>
      r.All fun key => GeneratedKey sized alg usage extractable key t := by
  unfold generateRaw
  refine Safe.openSsl.bind fun bytes _ _ _ => ?_
  refine Safe.alloc.bind fun raw _ _ hslice => Safe.pure ?_
  rw [Vector.length_toList] at hslice
  refine ⟨rfl, rfl, (hown _).symm, hsub, fun hsized =>
    wellFormed_raw hraw rfl (fun h => ?_) hhash, ?_⟩
  · rw [hslice.1]
    exact haes hsized h
  · intro raw' hu
    rw [Member.s.injEq] at hu
    exact hu ▸ Or.inl hslice.2

/-- With a property `length`, the length of an AES key is one of the three. -/
theorem safe_aesLength (aobject : Value) (alg : Alg) :
    Safe m (aesLength env alg aobject) fun length _ => aobject.prop "length" ≠ none →
      length = 16 ∨ length = 24 ∨ length = 32 := by
  unfold aesLength
  split
  · exact Safe.pure fun h => absurd ‹_› h
  · refine Safe.ite (fun _ => Safe.throw (by simp)) fun hlength => Safe.pure fun _ => ?_
    omega

theorem safe_generateAlgorithm {aobject : Value} (hsub : usage ⊆ alg.usage)
    (hsized : sized → alg.isAes = true → aobject.prop "length" ≠ none) (seed : ℕ) :
    Safe m (generateAlgorithm env alg aobject usage extractable seed) fun r t =>
      r.All fun key => GeneratedKey sized alg usage extractable key t := by
  unfold generateAlgorithm
  cases alg with
  | rsassaPkcs1V15 | rsaPss | rsaOaep => exact safe_generateRsa rfl aobject seed
  | ecdsa => exact safe_generateEc (Or.inl rfl) aobject seed
  | ecdh => exact safe_generateEc (Or.inr rfl) aobject seed
  | ed25519 => exact safe_generate25519 rfl rfl rfl (by decide) (by decide) rfl rfl
  | x25519 => exact safe_generate25519 rfl rfl rfl (by decide) (by decide) rfl rfl
  | hmac =>
    refine (plain_njsAlgorithmHash env aobject).safe.bind fun hash _ _ _ => ?_
    exact safe_generateRaw hsub rfl (by simp [Alg.isAes]) (by simp) (fun _ => rfl) seed
  | aesGcm | aesCtr | aesCbc | aesKw =>
    refine (safe_aesLength aobject _).bind fun length _ _ hlength => ?_
    exact safe_generateRaw hsub rfl (fun h _ => hlength (hsized h rfl)) (by simp) (fun _ => rfl)
      seed
  | pbkdf2 | hkdf => exact Safe.throw (by simp)

end Njs.WebCrypto
