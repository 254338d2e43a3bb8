import Njs.WebCrypto.Values

/-!
# CryptoKey objects

How `njs_webcrypto_module.c` makes keys: `njs_webcrypto_import_key_internal` and
`njs_ext_generate_key`. A key holds a union; `Member` says which member has been stored, and a read
of the other one ends the program with `Fault.misread`.
-/

namespace Njs.WebCrypto

open Text
open StateExcept

/-! ### Keys -/

/-- The union `u` of `njs_webcrypto_key_t`: what has been stored in it. -/
inductive Member
  /-- As `njs_mp_zalloc` leaves it. -/
  | zero
  | a (pkey : Option EvpPkey) (privat : Bool) (curve : Option Curve)
  | s (raw : Slice)
  deriving DecidableEq

/-- `njs_webcrypto_key_t`. -/
structure Key where
  alg : Alg
  usage : Finset Usage
  extractable : Bool
  hash : Option Hash := none
  u : Member := .zero
  deriving DecidableEq

def njsWebcryptoKeyAlloc (alg : Alg) (usage : Finset Usage) (extractable : Bool) : Key :=
  {alg, usage, extractable}

/-- `key->u.a.pkey`. -/
def Key.pkey (key : Key) : M EvpPkey :=
  match key.u with
  | .a (some pkey) _ _ => pure pkey
  | _ => throw .misread

/-- `key->u.a.privat`. -/
def Key.privat (key : Key) : M Bool :=
  match key.u with
  | .zero => pure false
  | .a _ privat _ => pure privat
  | .s _ => throw .misread

/-- `key->u.a.curve`. -/
def Key.curve (key : Key) : M (Option Curve) :=
  match key.u with
  | .zero => pure none
  | .a _ _ curve => pure curve
  | .s _ => throw .misread

/-- `key->u.s.raw`. -/
def Key.raw (key : Key) : M Slice :=
  match key.u with
  | .s raw => pure raw
  | _ => throw .misread

/-! ### JSON Web Keys -/

variable (env : Env)

/-- A property that must be there. -/
def required (options : Value) (name : String) (message : String) : M Value :=
  orFail (options.prop name) (.typeError message)

def requiredString (jwk : Value) (name : String) (message : String) : M Bytes :=
  match jwk.prop name with
  | some (.string text) => pure text
  | _ => throw (.typeError message)

/-- A property that may be missing, or must be a string. -/
def optionalString (jwk : Value) (name : String) (message : String) : M (Option Bytes) :=
  match jwk.prop name with
  | none | some .undefined => pure none
  | some (.string text) => pure (some text)
  | _ => throw (.typeError message)

def njsImportBase64urlBignum (text : Bytes) : M Bytes :=
  let decoded := env.decodeBase64url text
  if 512 < decoded.length then
    throw (.rangeError ("JWK key too long: " ++ toString decoded.length ++ " > 512"))
  else pure decoded

/-- The check of `key_ops`. -/
def checkKeyOps (jwk : Value) (key : Key) : M Unit :=
  match jwk.prop "key_ops" with
  | none | some .undefined => pure ()
  | some val => do
    let usage ← njsKeyUsage env val
    failIf (¬key.usage ⊆ usage) (.typeError "Key operations and usage mismatch")

/-- The check of `ext`. -/
def checkExt (jwk : Value) (key : Key) (kty : String) : M Unit :=
  match key.extractable, jwk.prop "ext" with
  | false, _ | _, none | _, some .undefined => pure ()
  | true, some val =>
    failIf (env.truth val = false) (.typeError ("JWK " ++ kty ++ " is not extractable"))

/-- The hash that the `alg` of an RSA key names. -/
def jwkHash (jwk : Value) : M (Option Hash) :=
  match jwk.prop "alg" with
  | none | some .undefined => pure none
  | some val => do
    let alg ← njsValueToString env val
    pure (entry njsWebcryptoAlgHash alg)

/-- The names of the private numbers of an RSA key. -/
def rsaPrivate : List String := ["p", "q", "dp", "dq", "qi"]

def njsImportJwkRsaPrivate (jwk : Value) (d : Bytes) : M (List Bytes) := do
  let texts ← rsaPrivate.mapM fun name => requiredString jwk name "Invalid JWK RSA key"
  (d :: texts).mapM (njsImportBase64urlBignum env)

def njsImportJwkRsa (jwk : Value) (key : Key) : M (EvpPkey × Key) := do
  let n ← requiredString jwk "n" "Invalid JWK RSA key"
  let e ← requiredString jwk "e" "Invalid JWK RSA key"
  let d ← optionalString jwk "d" "Invalid JWK RSA key"
  checkKeyOps env jwk key
  let hash ← jwkHash env jwk
  checkExt env jwk key "RSA"
  let nBn ← njsImportBase64urlBignum env n
  let eBn ← njsImportBase64urlBignum env e
  let privat ← d.elim (pure []) (njsImportJwkRsaPrivate env jwk)
  let pkey ← openSsl (env.rsaPkey ⟨nBn, eBn, privat⟩) "EVP_PKEY_set1_RSA()"
  pure (pkey.1, {key with u := .a none d.isSome none, hash := hash})

def njsImportJwkEc (jwk : Value) (key : Key) (curve : Option Curve) : M (EvpPkey × Key) := do
  let x ← requiredString jwk "x" "Invalid JWK EC key"
  let y ← requiredString jwk "y" "Invalid JWK EC key"
  let d ← optionalString jwk "d" "Invalid JWK EC key"
  checkKeyOps env jwk key
  checkExt env jwk key "EC"
  let crv ← optionalString jwk "crv" "JWK EC curve mismatch"
  failIf (crv.bind (entry njsWebcryptoCurve) ≠ curve) (.typeError "JWK EC curve mismatch")
  let xBn ← njsImportBase64urlBignum env x
  let yBn ← njsImportBase64urlBignum env y
  let dBn ← d.elim (pure none) fun text => some <$> njsImportBase64urlBignum env text
  let pkey ← openSsl (env.ecPkey curve xBn yBn dBn) "EC_KEY_set_public_key_affine_coordinates()"
  pure (pkey.1, {key with u := .a none d.isSome curve})

/-- The type that a curve of an OKP key names. -/
def okpId (crv : Bytes) : M EvpPkeyId :=
  if crv = lit "Ed25519" then pure .ed25519
  else if crv = lit "X25519" then pure .x25519
  else throw (.typeError ("unsupported JWK OKP curve: \"" ++ shown crv ++ "\""))

def okpNumber (text : Bytes) (message : String) : M Bytes :=
  let raw := env.decodeBase64url text
  if raw.length ≠ 32 then throw (.typeError message) else pure raw

def njsImportJwkOkp (jwk : Value) (key : Key) : M (EvpPkey × Key) := do
  let crv ← requiredString jwk "crv" "Invalid JWK OKP crv"
  let id ← okpId crv
  let x ← requiredString jwk "x" "Invalid JWK OKP x"
  let xRaw ← okpNumber env x "Invalid JWK OKP x length"
  match jwk.prop "d" with
  | some (.string d) =>
    let dRaw ← okpNumber env d "Invalid JWK OKP d length"
    let pkey ← openSsl (env.rawPrivateKey id dRaw) "EVP_PKEY_new_raw_*_key()"
    pure (pkey.1, {key with u := .a none true none})
  | _ =>
    let pkey ← openSsl (env.rawPublicKey id xRaw) "EVP_PKEY_new_raw_*_key()"
    pure (pkey.1, {key with u := .a none false none})

/-- `hashes` of `njs_import_jwk_oct`. -/
def octHashes : List (String × Hash) :=
  [("HS1", .sha1), ("HS256", .sha256), ("HS384", .sha384), ("HS512", .sha512)]

/-- `njs_webcrypto_alg_aes_name`, with the size that stands for a name. -/
def njsWebcryptoAlgAesName : Alg → List (String × ℕ)
  | .aesGcm => [("A128GCM", 16), ("A192GCM", 24), ("A256GCM", 32)]
  | .aesCtr => [("A128CTR", 16), ("A192CTR", 24), ("A256CTR", 32)]
  | .aesCbc => [("A128CBC", 16), ("A192CBC", 24), ("A256CBC", 32)]
  | .aesKw => [("A128KW", 16), ("A192KW", 24), ("A256KW", 32)]
  | _ => []

/-- What the `alg` of a key of bytes must be, which gives the hash of an HMAC key. -/
def octAlg (key : Key) (alg : Bytes) (size : ℕ) : M (Option Hash) :=
  let unexpected := .typeError ("unexpected \"alg\" value \"" ++ shown alg ++ "\" for JWK key")
  if key.alg = .hmac then some <$> orFail (entry octHashes alg) unexpected
  else do
    let length ← orFail (entry (njsWebcryptoAlgAesName key.alg) alg) unexpected
    failIf (size ≠ length)
      (.typeError ("key size and \"alg\" value \"" ++ shown alg ++ "\" mismatch"))
    pure none

def njsImportJwkOct (jwk : Value) (key : Key) : M Key := do
  let b64 ← requiredString jwk "k" "Invalid JWK oct key"
  let raw ← alloc (env.decodeBase64url b64)
  let alg ← requiredString jwk "alg" "Invalid JWK oct alg"
  let hash ← octAlg key alg raw.length
  checkKeyOps env jwk key
  checkExt env jwk key "oct"
  pure {key with u := .s raw, hash := hash}

/-- The algorithm must be one that the type of a JSON Web Key stands for. -/
def ktyMatch (kty : String) (ok : Bool) (alg : Alg) : M Unit :=
  failIf (¬ok) (.typeError
    ("JWK kty \"" ++ kty ++ "\" doesn't match algorithm \"" ++ alg.name ++ "\""))

/-- The case `NJS_KEY_FORMAT_JWK` of the import. -/
def importJwk (jwk : Value) (alg : Alg) (options : Value) (key : Key) :
    M (Option EvpPkey × Key) := do
  failIf (¬jwk.isObject) (.typeError "invalid JWK key data: object value expected")
  let kty ← dataOf env ((jwk.prop "kty").getD .undefined)
  if kty = lit "RSA" then
    ktyMatch "RSA" alg.isRsa alg
    let (pkey, key) ← njsImportJwkRsa env jwk key
    pure (some pkey, key)
  else if kty = lit "EC" then
    ktyMatch "EC" (alg = .ecdsa ∨ alg = .ecdh) alg
    let curve ← njsAlgorithmCurve env options none
    let (pkey, key) ← njsImportJwkEc env jwk key curve
    pure (some pkey, key)
  else if kty = lit "oct" then
    ktyMatch "oct" alg.raw alg
    let key ← njsImportJwkOct env jwk key
    pure (none, key)
  else if kty = lit "OKP" then
    ktyMatch "OKP" (alg = .ed25519 ∨ alg = .x25519) alg
    let (pkey, key) ← njsImportJwkOkp env jwk key
    pure (some pkey, key)
  else throw (.typeError ("invalid JWK key type: " ++ shown kty))

/-! ### Imported keys -/

/-- The first `switch` of the import: the key object that the data hold. -/
def importData (fmt : Format) (rawData : Slice) (keyData : Value) (alg : Alg) (options : Value)
    (key : Key) : M (Option EvpPkey × Key) := do
  match fmt with
  | .pkcs8 =>
    let data ← bytesOf rawData
    let pkey ← openSsl (env.pkcs8ToPkey data) "EVP_PKCS82PKEY()"
    pure (some pkey, {key with u := .a none true none})
  | .spki =>
    let data ← bytesOf rawData
    let pkey ← openSsl (env.d2iPubkey data) "d2i_PUBKEY()"
    pure (some pkey, key)
  | .jwk => importJwk env keyData alg options key
  | .raw => pure (none, key)

/-- The usages must be among those that the kind of key allows. -/
def checkKind (alg : Alg) (key : Key) (mask : Finset Usage) : M Unit :=
  failIf (key.usage ∩ mask).Nonempty
    (.typeError ("key usage mismatch for \"" ++ alg.name ++ "\" key"))

def allBut (usages : Finset Usage) : Finset Usage :=
  {.decrypt, .deriveBits, .deriveKey, .encrypt, .generateKey, .sign, .verify, .wrapKey,
   .unwrapKey} \ usages

/-- The `mask` of an RSA key. -/
def rsaMask (alg : Alg) (privat : Bool) : Finset Usage :=
  if privat then
    if alg = .rsaOaep then allBut {.decrypt, .unwrapKey} else allBut {.sign}
  else
    if alg = .rsaOaep then allBut {.encrypt, .wrapKey} else allBut {.verify}

/-- The `mask` of a key of ECDH or X25519. -/
def deriveMask (privat : Bool) : Finset Usage :=
  if privat then allBut {.deriveKey, .deriveBits} else ∅

/-- The `mask` of a key of ECDSA or Ed25519. -/
def signMask (privat : Bool) : Finset Usage :=
  if privat then allBut {.sign} else allBut {.verify}

/-- The cases of the RSA algorithms. -/
def importRsa (alg : Alg) (options : Value) (pkey : Option EvpPkey) (key : Key) : M Key := do
  failIf (pkey.map EvpPkey.id ≠ some .rsa) (.error "RSA key is not found")
  let hash ← njsAlgorithmHash env options
  failIf (key.hash ≠ none ∧ key.hash ≠ some hash) (.typeError "RSA JWK hash mismatch")
  let privat ← key.privat
  checkKind alg key (rsaMask alg privat)
  pure {key with u := .a pkey privat none, hash := some hash}

/-- The curve of a key object, which must be one of EC. -/
def ecGroup (pkey : Option EvpPkey) : M (Option Curve) :=
  match pkey.map EvpPkey.id with
  | some (.ec group) => pure group
  | _ => throw (.error "EC key is not found")

/-- The key object of a raw key is made of its bytes. -/
def importedPkey (fmt : Format) (made : Option EvpPkey) (name : String) (pkey : Option EvpPkey) :
    M (Option EvpPkey) :=
  if fmt = .raw then some <$> openSsl made name else pure pkey

/-- The cases of ECDSA and ECDH. -/
def importEc (fmt : Format) (rawData : Slice) (alg : Alg) (options : Value)
    (pkey : Option EvpPkey) (key : Key) : M Key := do
  let keyCurve ← key.curve
  let curve ← njsAlgorithmCurve env options keyCurve
  let data ← bytesOf rawData
  let pkey ← importedPkey fmt ((env.ecPoint curve data).map Subtype.val) "EC_POINT_oct2point()" pkey
  let group ← ecGroup pkey
  failIf (curve ≠ group) (.error "name curve mismatch")
  let privat ← key.privat
  checkKind alg key (if alg = .ecdsa then signMask privat else deriveMask privat)
  pure {key with u := .a pkey privat curve}

/-- The cases of Ed25519 and X25519. -/
def import25519 (fmt : Format) (rawData : Slice) (alg : Alg) (id : EvpPkeyId)
    (pkey : Option EvpPkey) (key : Key) : M Key := do
  let data ← bytesOf rawData
  let pkey ← importedPkey fmt ((env.rawPublicKey id data).map Subtype.val)
    "EVP_PKEY_new_raw_public_key()" pkey
  failIf (pkey.map EvpPkey.id ≠ some id) (.typeError (alg.name ++ " key is not found"))
  let privat ← key.privat
  checkKind alg key (if alg = .ed25519 then signMask privat else deriveMask privat)
  pure {key with u := .a pkey privat none}

/-- The case of HMAC. -/
def importHmac (fmt : Format) (rawData : Slice) (options : Value) (key : Key) : M Key := do
  let hash ← njsAlgorithmHash env options
  if fmt = .raw then pure {key with hash := some hash, u := .s rawData}
  else
    failIf (key.hash ≠ none ∧ key.hash ≠ some hash) (.typeError "HMAC JWK hash mismatch")
    pure key

/-- The cases of the AES algorithms. -/
def importAes (fmt : Format) (rawData : Slice) (key : Key) : M Key :=
  if fmt = .raw then
    do
      failIf (rawData.length ≠ 16 ∧ rawData.length ≠ 24 ∧ rawData.length ≠ 32)
        (.typeError "AES Invalid key length")
      pure {key with u := .s rawData}
  else pure key

/-- The second `switch` of the import. -/
def importAlgorithm (fmt : Format) (rawData : Slice) (alg : Alg) (options : Value)
    (pkey : Option EvpPkey) (key : Key) : M Key :=
  match alg with
  | .rsaOaep | .rsaPss | .rsassaPkcs1V15 => importRsa env alg options pkey key
  | .ecdsa | .ecdh => importEc env fmt rawData alg options pkey key
  | .ed25519 => import25519 env fmt rawData alg .ed25519 pkey key
  | .x25519 => import25519 env fmt rawData alg .x25519 pkey key
  | .hmac => importHmac env fmt rawData options key
  | .aesGcm | .aesCtr | .aesCbc | .aesKw => importAes fmt rawData key
  | .pbkdf2 | .hkdf => pure {key with u := .s rawData}

/-- `unsupported key fmt`. -/
def unsupportedFormat (fmt : Format) (alg : Alg) : Fault :=
  .typeError ("unsupported key fmt \"" ++ fmt.name ++ "\" for \"" ++ alg.name ++ "\" key")

/-- `unsupported key usage`. -/
def unsupportedUsage (name : String) : Fault :=
  .typeError ("unsupported key usage for \"" ++ name ++ "\" key")

/-- `raw_data` of the import. -/
def importedData (fmt : Format) (keyData : Value) : M Slice :=
  if fmt = .jwk then pure ⟨0, 0, 0⟩ else njsVmValueToBytes env keyData

def njsWebcryptoImportKeyInternal (fmt : Format) (keyData : Value) (alg : Alg) (options : Value)
    (extractable : Bool) (usage : Finset Usage) : M Key := do
  failIf (fmt ∉ alg.fmt) (unsupportedFormat fmt alg)
  failIf (¬usage ⊆ alg.usage) (unsupportedUsage alg.name)
  let rawData ← importedData env fmt keyData
  let (pkey, key) ← importData env fmt rawData keyData alg options
    (njsWebcryptoKeyAlloc alg usage extractable)
  importAlgorithm env fmt rawData alg options pkey key

/-! ### Generated keys -/

/-- What `generateKey` makes. -/
inductive Generated
  | secret (key : Key)
  | pair (privateKey publicKey : Key)

/-- The case of the RSA algorithms: `modulusLength` must be a number. -/
def generateRsa (alg : Alg) (aobject : Value) (usage : Finset Usage) (extractable : Bool)
    (seed : ℕ) : M Generated := do
  let hash ← njsAlgorithmHash env aobject
  let val ← converted (aobject.prop "modulusLength")
  match val with
  | .number bits =>
    let pkey ← openSsl (env.rsaKeygen seed bits) "EVP_PKEY_keygen()"
    let key := {njsWebcryptoKeyAlloc alg usage extractable with
      hash := some hash, u := .a (some pkey.1) true none
      usage := if alg = .rsaOaep then {.decrypt} else {.sign}}
    let keypub := {njsWebcryptoKeyAlloc alg usage extractable with
      hash := some hash, u := .a (some pkey.1) false none
      usage := if alg = .rsaOaep then {.encrypt} else {.verify}}
    pure (.pair key keypub)
  | _ => throw (.typeError "\"modulusLength\" is not a number")

/-- The case of ECDSA and ECDH. -/
def generateEc (alg : Alg) (aobject : Value) (usage : Finset Usage) (extractable : Bool)
    (seed : ℕ) : M Generated := do
  let curve ← njsAlgorithmCurve env aobject none
  let pkey ← openSsl (curve.bind fun c => (env.ecKeygen seed c).map Subtype.val)
    "EVP_PKEY_keygen()"
  let key := {njsWebcryptoKeyAlloc alg usage extractable with
    u := .a (some pkey) true curve
    usage := if alg = .ecdsa then {.sign} else {.deriveKey, .deriveBits}}
  let keypub := {njsWebcryptoKeyAlloc alg usage extractable with
    u := .a (some pkey) false curve
    usage := if alg = .ecdsa then {.verify} else {.deriveKey, .deriveBits}}
  pure (.pair key keypub)

/-- `njs_webcrypto_generate_25519_keypair`, of a key object that has been made. -/
def njsWebcryptoGenerate25519Keypair (pkey : Option EvpPkey) (alg : Alg) (usage : Finset Usage)
    (extractable : Bool) (privUsage pubUsage : Finset Usage) : M Generated := do
  let pkey ← openSsl pkey "EVP_PKEY_keygen()"
  let key := {njsWebcryptoKeyAlloc alg usage extractable with
    u := .a (some pkey) true none, usage := privUsage ∩ usage}
  let keypub := {njsWebcryptoKeyAlloc alg usage extractable with
    u := .a (some pkey) false none, usage := pubUsage ∩ usage}
  pure (.pair key keypub)

/-- The length of an AES key that is generated; without `length` it is as it was allocated. -/
def aesLength (alg : Alg) (aobject : Value) : M ℕ :=
  match aobject.prop "length" with
  | none => pure 0
  | some val =>
    let length := env.octets val
    if length ≠ 16 ∧ length ≠ 24 ∧ length ≠ 32 then
      throw (.typeError ("length for \"" ++ alg.name ++ "\" key should be one of 128, 192, 256"))
    else pure length

/-- The end of the case of the secret keys: random bytes. -/
def generateRaw (key : Key) (length seed : ℕ) : M Generated := do
  let bytes ← openSsl (env.randBytes seed length) "RAND_bytes()"
  let raw ← alloc bytes.toList
  pure (.secret {key with u := .s raw})

/-- The `switch` of `njs_ext_generate_key`. -/
def generateAlgorithm (alg : Alg) (aobject : Value) (usage : Finset Usage) (extractable : Bool)
    (seed : ℕ) : M Generated := do
  match alg with
  | .rsassaPkcs1V15 | .rsaPss | .rsaOaep => generateRsa env alg aobject usage extractable seed
  | .ecdsa | .ecdh => generateEc env alg aobject usage extractable seed
  | .ed25519 =>
    njsWebcryptoGenerate25519Keypair ((env.ed25519Keygen seed).map Subtype.val) alg usage
      extractable {.sign} {.verify}
  | .x25519 =>
    njsWebcryptoGenerate25519Keypair ((env.x25519Keygen seed).map Subtype.val) alg usage
      extractable {.deriveKey, .deriveBits} ∅
  | .hmac =>
    let hash ← njsAlgorithmHash env aobject
    generateRaw env {njsWebcryptoKeyAlloc alg usage extractable with hash := some hash}
      hash.size seed
  | .aesGcm | .aesCtr | .aesCbc | .aesKw =>
    let length ← aesLength env alg aobject
    generateRaw env (njsWebcryptoKeyAlloc alg usage extractable) length seed
  | .pbkdf2 | .hkdf =>
    throw (.internalError ("not implemented generateKeyalgorithm: \"" ++ alg.name ++ "\""))

def njsExtGenerateKey (aobject extractable keyUsages : Value) (seed : ℕ) : M Generated := do
  let alg ← njsKeyAlgorithm env aobject
  let usage ← njsKeyUsage env keyUsages
  failIf (¬usage ⊆ alg.usage) (unsupportedUsage alg.name)
  generateAlgorithm env alg aobject usage (env.truth extractable) seed

end Njs.WebCrypto
