import Njs.WebCrypto.Keys

/-!
# Calls of crypto.subtle

The functions of `njs_webcrypto_module.c` that a script calls with keys, and what a script does
with them: a `World` is the memory, the array buffers and the CryptoKey objects of a script.
-/

namespace Njs.WebCrypto

open Text
open StateExcept

variable (env : Env)

/-! ### Ciphers -/

def checkAesKey (name : String) (raw : Slice) : M Unit :=
  failIf (raw.length ≠ 16 ∧ raw.length ≠ 24 ∧ raw.length ≠ 32)
    (.typeError (name ++ " Invalid key length"))

def optionalInteger (options : Value) (name : String) (default : ℤ) : M ℤ :=
  match options.prop name with
  | none | some .undefined => pure default
  | some value => converted (env.toInteger value)

def optionalData (options : Value) (name : String) : M Bytes :=
  match options.prop name with
  | none | some .undefined => pure []
  | some value => dataOf env value

def requiredData (options : Value) (name message : String) : M Bytes := do
  let value ← required options name message
  dataOf env value

def requiredInteger (options : Value) (name message : String) : M ℤ := do
  let value ← required options name message
  converted (env.toInteger value)

def njsCipherPkey (data : Bytes) (key : Key) (encrypt : Bool) : M Bytes := do
  let pkey ← key.pkey
  openSsl (env.pkeyCipher encrypt pkey (key.hash.getD .sha1) data)
    (if encrypt then "EVP_PKEY_encrypt()" else "EVP_PKEY_decrypt()")

def njsCipherAesGcm (data : Bytes) (key : Key) (options : Value) (encrypt : Bool) : M Bytes := do
  let raw ← key.raw
  checkAesKey "AES-GCM" raw
  let iv ← requiredData env options "iv" "AES-GCM algorithm.iv is not provided"
  let taglen ← optionalInteger env options "tagLength" 128
  failIf (taglen ∉ [(32 : ℤ), 64, 96, 104, 112, 120, 128]) (.typeError "AES-GCM Invalid tagLength")
  let taglen := taglen.toNat / 8
  failIf (encrypt = false ∧ data.length < taglen) (.typeError "AES-GCM data is too short")
  let aad ← optionalData env options "additionalData"
  let bytes ← bytesOf raw
  openSsl (env.aesGcm encrypt bytes iv aad taglen data)
    (if encrypt then "EVP_EncryptFinal_ex()" else "EVP_DecryptFinal_ex()")

def bigEndian (bytes : Bytes) : ℕ := bytes.foldl (fun n b => n * 256 + b.toNat) 0

/-- `njs_ceil_div`, of numbers of 64 bits. -/
def njsCeilDiv (dend dsor : ℕ) : ℕ := 1 + (dend + 2 ^ 64 - 1) % 2 ^ 64 / dsor

def njsCounter128Reset (src : Bytes) (bits : ℕ) : Bytes :=
  let index := 16 - bits / 8
  let kept := (src.take index).modify (index - 1) fun b =>
    if bits % 8 = 0 then b else b &&& (0xff : UInt8) <<< UInt8.ofNat (bits % 8)
  kept ++ List.replicate (bits / 8) 0

/-- The end of `njs_cipher_aes_ctr`: one run, or one until the counter wraps and one after that. -/
def aesCtrRuns (data key iv : Bytes) (length : ℕ) (encrypt : Bool) : M Bytes := do
  let total := 2 ^ length
  let ctr := bigEndian iv % total
  let blocks := njsCeilDiv data.length 16
  failIf (total < blocks) (.typeError "AES-CTR repeated counter")
  let left := total - ctr
  if blocks ≤ left then openSsl (env.aesCtr128 encrypt key iv data) "EVP_CipherUpdate()"
  else
    let size1 := left * 16
    let first ← openSsl (env.aesCtr128 encrypt key iv (data.take size1)) "EVP_CipherUpdate()"
    let second ← openSsl
      (env.aesCtr128 encrypt key (njsCounter128Reset iv length) (data.drop size1))
      "EVP_CipherUpdate()"
    pure (first ++ second)

def njsCipherAesCtr (data : Bytes) (key : Key) (options : Value) (encrypt : Bool) : M Bytes := do
  let raw ← key.raw
  checkAesKey "AES-CTR" raw
  let iv ← requiredData env options "counter" "AES-CTR algorithm.counter is not provided"
  failIf (iv.length ≠ 16) (.typeError "AES-CTR algorithm.counter must be 16 bytes long")
  let length ← requiredInteger env options "length" "AES-CTR algorithm.length is not provided"
  failIf (length = 0 ∨ 128 < length)
    (.typeError "AES-CTR algorithm.length must be between 1 and 128")
  failIf (length < 0) (.error "BN_lshift() failed")
  let bytes ← bytesOf raw
  aesCtrRuns env data bytes iv length.toNat encrypt

def njsCipherAesCbc (data : Bytes) (key : Key) (options : Value) (encrypt : Bool) : M Bytes := do
  let raw ← key.raw
  checkAesKey "AES-CBC" raw
  let iv ← requiredData env options "iv" "AES-CBC algorithm.iv is not provided"
  failIf (iv.length ≠ 16) (.typeError "AES-CBC algorithm.iv must be 16 bytes long")
  let bytes ← bytesOf raw
  openSsl (env.aesCbc encrypt bytes iv data)
    (if encrypt then "EVP_EncryptFinal_ex()" else "EVP_DecryptFinal_ex()")

def njsCipherAesKw (data : Bytes) (key : Key) (encrypt : Bool) : M Bytes := do
  let least := if encrypt then 16 else 24
  failIf (data.length < least)
    (.typeError ("AES-KW data must be at least " ++ toString least ++ " bytes"))
  failIf (data.length % 8 ≠ 0) (.typeError "AES-KW data must be a multiple of 8 bytes")
  let raw ← key.raw
  checkAesKey "AES-KW" raw
  let bytes ← bytesOf raw
  openSsl (env.aesWrap encrypt bytes data)
    (if encrypt then "EVP_EncryptUpdate()" else "EVP_DecryptUpdate()")

def njsWebcryptoCipherCore (data : Bytes) (key : Key) (options : Value) (alg : Alg)
    (encrypt : Bool) : M Bytes :=
  match alg with
  | .rsaOaep => njsCipherPkey env data key encrypt
  | .aesGcm => njsCipherAesGcm env data key options encrypt
  | .aesCtr => njsCipherAesCtr env data key options encrypt
  | .aesCbc => njsCipherAesCbc env data key options encrypt
  | .aesKw => njsCipherAesKw env data key encrypt
  | _ => throw (.typeError "not implemented")

/-! ### Exported keys -/

def njsKeyOps (mask : Finset Usage) : Value :=
  .array ((njsWebcryptoUsage.filter fun e => e.2 ∈ mask).map fun e => .string (lit e.1))

def njsWebcryptoAlgName (alg : Alg) : Option Hash → String
  | none => ""
  | some hash =>
    match alg, hash with
    | .rsassaPkcs1V15, .sha1 => "RS1"
    | .rsassaPkcs1V15, .sha256 => "RS256"
    | .rsassaPkcs1V15, .sha384 => "RS384"
    | .rsassaPkcs1V15, .sha512 => "RS512"
    | .rsaPss, .sha1 => "PS1"
    | .rsaPss, .sha256 => "PS256"
    | .rsaPss, .sha384 => "PS384"
    | .rsaPss, .sha512 => "PS512"
    | .rsaOaep, .sha1 => "RSA-OAEP"
    | .rsaOaep, .sha256 => "RSA-OAEP-256"
    | .rsaOaep, .sha384 => "RSA-OAEP-384"
    | .rsaOaep, .sha512 => "RSA-OAEP-512"
    | _, .sha1 => "HS1"
    | _, .sha256 => "HS256"
    | _, .sha384 => "HS384"
    | _, .sha512 => "HS512"

def njsExportBase64urlBignum (v : Bytes) : M Value :=
  if 512 < v.length then
    throw (.rangeError ("JWK key too long: " ++ toString v.length ++ " > 512"))
  else pure (.string (env.encodeBase64url v))

def exportRsaPrivate (key : Key) (numbers : List Bytes) : M (List (String × Value)) := do
  let privat ← key.privat
  if privat then
    (List.zip ("d" :: rsaPrivate) numbers).mapM fun (name, v) =>
      (fun value => (name, value)) <$> njsExportBase64urlBignum env v
  else pure []

def njsExportJwkRsa (key : Key) (pkey : EvpPkey) : M (List (String × Value)) := do
  let numbers := env.rsaNumbers pkey
  let n ← njsExportBase64urlBignum env numbers.n
  let e ← njsExportBase64urlBignum env numbers.e
  let privat ← exportRsaPrivate env key numbers.privat
  pure ([("kty", .string (lit "RSA")), ("n", n), ("e", e)] ++ privat ++
    [("alg", .string (lit (njsWebcryptoAlgName key.alg key.hash)))])

/-- The number `d` of a private key in a JSON Web Key. -/
def exportPrivate (privat : Bool) (d : M Value) : M (List (String × Value)) :=
  if privat then (fun value => [("d", value)]) <$> d else pure []

def njsExportJwkEc (key : Key) (pkey : EvpPkey) : M (List (String × Value)) := do
  let numbers ← openSsl (env.ecNumbers pkey) "EC_POINT_get_affine_coordinates()"
  let x ← njsExportBase64urlBignum env numbers.x
  let y ← njsExportBase64urlBignum env numbers.y
  let privat ← key.privat
  match numbers.curve with
  | none => throw (.typeError "Unsupported JWK EC curve")
  | some curve =>
    let d ← exportPrivate privat (njsExportBase64urlBignum env numbers.d)
    pure ([("kty", .string (lit "EC")), ("x", x), ("y", y), ("crv", .string (lit curve))] ++ d)

/-- The `switch` of `njs_export_jwk_asymmetric`. -/
def exportNumbers (key : Key) (pkey : EvpPkey) : M (List (String × Value)) :=
  match pkey.id with
  | .rsa | .rsaPss => njsExportJwkRsa env key pkey
  | .ec _ => njsExportJwkEc env key pkey
  | _ => throw (.typeError "provided key cannot be exported as JWK")

def njsExportJwkAsymmetric (key : Key) : M Value := do
  let pkey ← key.pkey
  let props ← exportNumbers env key pkey
  pure (.object (props ++ [("key_ops", njsKeyOps key.usage), ("ext", .boolean key.extractable)]))

/-- The `alg` of an exported key of bytes. -/
def octAlgName (key : Key) (length : ℕ) : List (String × Value) :=
  if key.alg = .hmac then [("alg", .string (lit (njsWebcryptoAlgName key.alg key.hash)))]
  else
    match (njsWebcryptoAlgAesName key.alg).find? fun e => e.2 = length with
    | some e => [("alg", .string (lit e.1))]
    | none => []

def njsExportJwkOct (key : Key) : M Value := do
  let raw ← key.raw
  let k ← bytesOf raw
  pure (.object ([("kty", .string (lit "oct")), ("k", .string (env.encodeBase64url k)),
    ("key_ops", njsKeyOps key.usage), ("ext", .boolean key.extractable)] ++
    octAlgName key raw.length))

def njsExportJwkOkp (key : Key) : M Value := do
  let pkey ← key.pkey
  let x ← openSsl (env.getRawPublicKey pkey) "EVP_PKEY_get_raw_public_key()"
  let privat ← key.privat
  let d ← exportPrivate privat ((fun d => .string (env.encodeBase64url d)) <$>
    openSsl (env.getRawPrivateKey pkey) "EVP_PKEY_get_raw_private_key()")
  pure (.object ([("kty", .string (lit "OKP")),
    ("crv", .string (lit (if key.alg = .x25519 then "X25519" else "Ed25519"))),
    ("x", .string (env.encodeBase64url x))] ++ d ++
    [("key_ops", njsKeyOps key.usage), ("ext", .boolean key.extractable)]))

/-- What a call gives. -/
inductive Result
  | buffer (s : Slice)
  | value (v : Value)
  | key (key : Key)
  | pair (privateKey publicKey : Key)

/-- `njs_vm_value_array_buffer_set`, whose size has 32 bits. -/
def njsVmValueArrayBufferSet (s : Slice) : Result := .buffer {s with length := s.length % 2 ^ 32}

def freshBuffer (bytes : Bytes) : M Result := do
  let s ← alloc bytes
  pure (njsVmValueArrayBufferSet s)

/-- The case `NJS_KEY_FORMAT_JWK` of an export. -/
def exportJwk (key : Key) : M Value :=
  match key.alg with
  | .rsassaPkcs1V15 | .rsaPss | .rsaOaep | .ecdsa | .ecdh => njsExportJwkAsymmetric env key
  | .ed25519 | .x25519 => njsExportJwkOkp env key
  | .aesGcm | .aesCtr | .aesCbc | .aesKw | .hmac => njsExportJwkOct env key
  | .pbkdf2 | .hkdf => throw .exception

/-- The case `NJS_KEY_FORMAT_PKCS8` of an export. -/
def exportPkcs8 (key : Key) : M Result := do
  let privat ← key.privat
  failIf (¬privat)
    (.typeError ("public key of \"" ++ key.alg.name ++ "\" cannot be exported as PKCS8"))
  let pkey ← key.pkey
  let data ← openSsl (env.pkeyToPkcs8 pkey) "EVP_PKEY2PKCS8()"
  freshBuffer data

/-- The case `NJS_KEY_FORMAT_SPKI` of an export. -/
def exportSpki (key : Key) : M Result := do
  let privat ← key.privat
  failIf privat
    (.typeError ("private key of \"" ++ key.alg.name ++ "\" cannot be exported as SPKI"))
  let pkey ← key.pkey
  let data ← openSsl (env.i2dPubkey pkey) "i2d_PUBKEY_bio()"
  freshBuffer data

def njsExportRawEc (key : Key) : M Result := do
  let pkey ← key.pkey
  let privat ← key.privat
  failIf privat (.typeError
      ("private key of \"" ++ key.alg.name ++ "\" cannot be exported in \"raw\" format"))
  let data ← openSsl (env.ecPoint2oct pkey) "EC_POINT_point2oct()"
  freshBuffer data

/-- The case `NJS_KEY_FORMAT_RAW` of an export: the array buffer of a key of bytes is the key. -/
def exportRaw (key : Key) : M Result :=
  match key.alg with
  | .ecdsa | .ecdh => njsExportRawEc env key
  | .ed25519 | .x25519 => do
    let pkey ← key.pkey
    let data ← openSsl (env.getRawPublicKey pkey) "EVP_PKEY_get_raw_public_key()"
    freshBuffer data
  | _ => do
    let raw ← key.raw
    pure (njsVmValueArrayBufferSet raw)

def njsWebcryptoExportKeyRaw (key : Key) (fmt : Format) : M Result :=
  match fmt with
  | .jwk => Result.value <$> exportJwk env key
  | .pkcs8 => exportPkcs8 env key
  | .spki => exportSpki env key
  | .raw => exportRaw env key

/-! ### Derived keys -/

/-- `size_t` of an `int64_t`. -/
def sizeOfInt64 (length : ℤ) : ℕ := (length % 2 ^ 64).toNat

def derivedLength (deriveKey : Bool) (dobject : Value) : M (Option Alg × ℤ) :=
  if deriveKey then do
    let dalg ← njsKeyAlgorithm env dobject
    let length ← requiredInteger env dobject "length" "derivedKeyAlgorithm.length is not provided"
    pure (some dalg, length.tdiv 8)
  else do
    let length ← converted (env.toInteger dobject)
    pure (none, length.tdiv 8)

def derivedHash (dalg : Alg) (dobject : Value) : M (Option Hash) :=
  if dalg = .hmac then some <$> njsAlgorithmHash env dobject else pure none

/-- The end of a derivation: a key of bytes, or the bytes. -/
def derived (dalg : Option Alg) (dobject : Value) (usage : Finset Usage) (extractable : Value)
    (k : Slice) : M Result :=
  match dalg with
  | some dalg => do
    let hash ← derivedHash env dalg dobject
    pure (.key {njsWebcryptoKeyAlloc dalg usage (env.truth extractable) with hash, u := .s k})
  | none => pure (njsVmValueArrayBufferSet k)

def derivedUsage (dalg : Option Alg) (keyUsages : Value) (name : String) : M (Finset Usage) :=
  match dalg with
  | some dalg => do
    let usage ← njsKeyUsage env keyUsages
    failIf (¬usage ⊆ dalg.usage) (unsupportedUsage name)
    pure usage
  | none => pure ∅

/-- `njs_vm_external` with the prototype of CryptoKey. -/
def njsVmExternal (keys : List Key) (value : Value) (message : String) : M Key :=
  match value with
  | .cryptoKey id => orFail keys[id]? (.typeError message)
  | _ => throw (.typeError message)

/-- The other key of `njs_ext_derive_ecdh`, with the checks of both keys. -/
def ecdhPeer (keys : List Key) (aobject : Value) (key : Key) : M EvpPkey := do
  let value ← required aobject "public" "ECDH algorithm.public is not provided"
  let pkey ← njsVmExternal keys value "algorithm.public is not a CryptoKey object"
  failIf (pkey.alg ≠ key.alg) (.typeError "algorithm.public key type mismatch")
  let curve ← key.curve
  let pcurve ← pkey.curve
  failIf (key.alg = .ecdh ∧ curve ≠ pcurve) (.typeError "ECDH keys must use the same curve")
  let privat ← key.privat
  failIf (¬privat) (.typeError "baseKey must be a private key for ECDH")
  let pprivat ← pkey.privat
  failIf pprivat (.typeError "algorithm.public must be a public key")
  pkey.pkey

def njsExtDeriveEcdh (keys : List Key) (deriveKey : Bool) (aobject dobject extractable : Value)
    (keyUsages : Value) (key : Key) : M Result := do
  let (dalg, length) ← derivedLength env deriveKey dobject
  let usage ← derivedUsage env dalg keyUsages "ECDH"
  let pub ← ecdhPeer keys aobject key
  let priv ← key.pkey
  let secret ← openSsl (env.pkeyDerive priv pub) "EVP_PKEY_derive()"
  failIf (secret.length < sizeOfInt64 length) (.typeError "derived bit length is too small")
  let k ← alloc secret
  derived env dalg dobject usage extractable {k with length := length.toNat}

def checkDerivedAlgorithm (dalg : Option Alg) (length : ℤ) : M Unit :=
  match dalg with
  | none | some .hmac => pure ()
  | some dalg =>
    if dalg.isAes then
      failIf (length ≠ 16 ∧ length ≠ 24 ∧ length ≠ 32)
        (.typeError ("deriveKey \"" ++ dalg.name ++ "\" length must be 128, 192, or 256"))
    else throw (.internalError ("not implemented deriveKey: \"" ++ dalg.name ++ "\""))

/-- The case of PBKDF2. -/
def derivePbkdf2 (aobject : Value) (key : Key) (n : ℕ) : M Slice := do
  let hash ← njsAlgorithmHash env aobject
  let salt ← requiredData env aobject "salt" "PBKDF2 algorithm.salt is not provided"
  failIf (salt.length < 16) (.typeError "PBKDF2 algorithm.salt must be at least 16 bytes long")
  let iterations ← requiredInteger env aobject "iterations"
    "PBKDF2 algorithm.iterations is not provided"
  let raw ← key.raw
  let bytes ← bytesOf raw
  let k ← openSsl (env.pbkdf2Hmac bytes salt iterations hash n) "PKCS5_PBKDF2_HMAC()"
  alloc k.toList

/-- The case of HKDF. -/
def deriveHkdf (aobject : Value) (key : Key) (n : ℕ) : M Slice := do
  let hash ← njsAlgorithmHash env aobject
  let salt ← requiredData env aobject "salt" "HKDF algorithm.salt is not provided"
  let info ← requiredData env aobject "info" "HKDF algorithm.info is not provided"
  let raw ← key.raw
  let bytes ← bytesOf raw
  let k ← openSsl (env.hkdf bytes salt info hash n) "EVP_PKEY_derive()"
  alloc k.toList

def deriveBytes (alg : Alg) (aobject : Value) (key : Key) (n : ℕ) : M Slice :=
  match alg with
  | .pbkdf2 => derivePbkdf2 env aobject key n
  | .hkdf => deriveHkdf env aobject key n
  | _ => throw (.internalError ("not implemented deriveKey algorithm: \"" ++ alg.name ++ "\""))

/-- What `njs_ext_derive` does for the algorithms that are not left to `njs_ext_derive_ecdh`. -/
def deriveRaw (deriveKey : Bool) (alg : Alg) (aobject dobject extractable keyUsages : Value)
    (key : Key) : M Result := do
  let (dalg, length) ← derivedLength env deriveKey dobject
  checkDerivedAlgorithm dalg length
  let usage ← derivedUsage env dalg keyUsages alg.name
  failIf (length < 0) .memoryError
  let k ← deriveBytes env alg aobject key length.toNat
  derived env dalg dobject usage extractable k

def requireUsage (key : Key) (usage : Usage) (message : String) : M Unit :=
  failIf (usage ∉ key.usage) (.typeError message)

/-- A key must be one of the algorithm that a call names. -/
def requireAlg (key : Key) (alg : Alg) (operation : String) : M Unit :=
  failIf (key.alg ≠ alg) (.typeError
    ("cannot " ++ operation ++ " using \"" ++ key.alg.name ++ "\" with \"" ++ alg.name ++ "\" key"))

def njsExtDerive (keys : List Key) (deriveKey : Bool)
    (aobject baseKey dobject extractable keyUsages : Value) : M Result := do
  let alg ← njsKeyAlgorithm env aobject
  let key ← njsVmExternal keys baseKey "\"baseKey\" is not a CryptoKey object"
  requireUsage key (if deriveKey then .deriveKey else .deriveBits)
    ("provide key does not support \"" ++ (if deriveKey then "deriveKey" else "deriveBits") ++
      "\" operation")
  requireAlg key alg (if deriveKey then "derive key" else "derive bits")
  if alg = .ecdh ∨ alg = .x25519 then
    njsExtDeriveEcdh env keys deriveKey aobject dobject extractable keyUsages key
  else deriveRaw env deriveKey alg aobject dobject extractable keyUsages key

/-! ### Signatures -/

/-- The length of the salt that `njs_set_rsa_padding` reads. -/
def njsSetRsaPadding (alg : Alg) (options : Value) : M (Option ℤ) :=
  if alg = .rsaPss then
    some <$> requiredInteger env options "saltLength" "RSA-PSS algorithm.saltLength is not provided"
  else pure none

/-- The digest of a signature. -/
def signHash (alg : Alg) (options : Value) (key : Key) : M Hash :=
  if alg = .ecdsa then njsAlgorithmHash env options else pure (key.hash.getD .sha1)

def signEd25519 (verify : Bool) (key : Key) (sig data : Bytes) : M Result := do
  let pkey ← key.pkey
  if verify then
    let ok ← openSsl (env.digestVerify pkey sig data) "EVP_DigestVerify()"
    pure (.value (.boolean ok))
  else
    let dst ← openSsl (env.digestSign pkey data) "EVP_DigestSign()"
    freshBuffer dst

/-- The case of HMAC. -/
def signHmac (verify : Bool) (md : Hash) (key : Key) (sig data : Bytes) : M Result := do
  let raw ← key.raw
  let bytes ← bytesOf raw
  let dst ← openSsl (env.hmac md bytes data) "HMAC()"
  if verify then pure (.value (.boolean (sig = dst))) else freshBuffer dst

/-- The other cases. -/
def signPkey (verify : Bool) (alg : Alg) (options : Value) (md : Hash) (key : Key)
    (sig data : Bytes) : M Result := do
  let pkey ← key.pkey
  let saltLength ← njsSetRsaPadding env alg options
  if verify then
    let sig := if alg = .ecdsa then env.p1363ToDer pkey sig else sig
    let ok ← openSsl (env.pkeyVerify alg saltLength pkey md sig data) "EVP_PKEY_verify()"
    pure (.value (.boolean ok))
  else
    let dst ← openSsl (env.pkeySign alg saltLength pkey md data) "EVP_PKEY_sign()"
    freshBuffer (if alg = .ecdsa then env.derToP1363 pkey dst else dst)

/-- The `switch` of `njs_ext_sign`. -/
def signAlgorithm (verify : Bool) (alg : Alg) (options : Value) (key : Key) (sig data : Bytes) :
    M Result :=
  match alg with
  | .ed25519 => signEd25519 env verify key sig data
  | .hmac => signHmac env verify (key.hash.getD .sha1) key sig data
  | _ => do
    let md ← signHash env alg options key
    signPkey env verify alg options md key sig data

def signatureOf (verify : Bool) (sig : Value) : M Bytes :=
  if verify then dataOf env sig else pure []

/-- `njs_ext_sign`; `sig` is not an argument of `sign`. -/
def njsExtSign (keys : List Key) (verify : Bool) (options key sig data : Value) : M Result := do
  let alg ← njsKeyAlgorithm env options
  let key ← njsVmExternal keys key "\"key\" is not a CryptoKey object"
  requireUsage key (if verify then .verify else .sign)
    "provide key does not support \"sign\" operation"
  requireAlg key alg (if verify then "verify" else "sign")
  let sig ← signatureOf env verify sig
  let data ← dataOf env data
  signAlgorithm env verify alg options key sig data

/-! ### The other calls -/

/-- The usage that `njs_ext_cipher` asks for. -/
def cipherUsage (alg : Alg) (encrypt : Bool) : Usage :=
  if alg = .aesKw then if encrypt then .wrapKey else .unwrapKey
  else if encrypt then .encrypt else .decrypt

def njsExtCipher (keys : List Key) (encrypt : Bool) (options key data : Value) : M Result := do
  let alg ← njsKeyAlgorithm env options
  let key ← njsVmExternal keys key "\"key\" is not a CryptoKey object"
  requireUsage key (cipherUsage alg encrypt)
    ("provide key does not support " ++ (if encrypt then "encrypt" else "decrypt") ++ " operation")
  requireAlg key alg (if encrypt then "encrypt" else "decrypt")
  let data ← dataOf env data
  let dst ← njsWebcryptoCipherCore env data key options alg encrypt
  freshBuffer dst

def njsExtImportKey (fmt keyData options extractable keyUsages : Value) : M Result := do
  let fmt ← njsKeyFormat env fmt
  let alg ← njsKeyAlgorithm env options
  let usage ← njsKeyUsage env keyUsages
  Result.key <$>
    njsWebcryptoImportKeyInternal env fmt keyData alg options (env.truth extractable) usage

def njsExtExportKey (keys : List Key) (fmt key : Value) : M Result := do
  let fmt ← njsKeyFormat env fmt
  let key ← njsVmExternal keys key "\"key\" is not a CryptoKey object"
  failIf (fmt ∉ key.alg.fmt) (unsupportedFormat fmt key.alg)
  failIf (¬key.extractable) (.typeError "provided key cannot be extracted")
  njsWebcryptoExportKeyRaw env key fmt

/-- The bytes of an exported key, which `wrapKey` encrypts. -/
def exportedBytes : Result → M Bytes
  | .buffer s => bytesOf s
  | .value v => converted (env.stringify v)
  | _ => throw .exception

def njsExtWrapKey (keys : List Key) (fmt key wrappingKey options : Value) : M Result := do
  let fmt ← njsKeyFormat env fmt
  let key ← njsVmExternal keys key "\"key\" is not a CryptoKey object"
  let wrappingKey ← njsVmExternal keys wrappingKey "\"wrappingKey\" is not a CryptoKey object"
  let alg ← njsKeyAlgorithm env options
  failIf (¬key.extractable) (.typeError "provided key cannot be extracted")
  requireUsage wrappingKey .wrapKey "wrapping key does not support wrapKey"
  requireAlg wrappingKey alg "wrap"
  let exported ← njsWebcryptoExportKeyRaw env key fmt
  let data ← exportedBytes env exported
  let dst ← njsWebcryptoCipherCore env data wrappingKey options alg true
  freshBuffer dst

def unwrappedData (fmt : Format) (decrypted : Bytes) : M Value :=
  if fmt = .jwk then
    orFail (env.parse decrypted) (.typeError "wrapped key is not valid JWK JSON")
  else Value.buffer <$> alloc decrypted

/-- What `njs_ext_unwrap_key` imports: the format, the algorithm, the usages and the data. -/
def unwrapped (keys : List Key) (fmt data unwrappingKey options keyAlg keyUsages : Value) :
    M (Format × Alg × Finset Usage × Value) := do
  let fmt ← njsKeyFormat env fmt
  let data ← dataOf env data
  let wrappingKey ← njsVmExternal keys unwrappingKey "\"unwrappingKey\" is not a CryptoKey object"
  let alg ← njsKeyAlgorithm env options
  let importAlg ← njsKeyAlgorithm env keyAlg
  let usage ← njsKeyUsage env keyUsages
  requireUsage wrappingKey .unwrapKey "unwrapping key does not support unwrapKey"
  requireAlg wrappingKey alg "unwrap"
  let decrypted ← njsWebcryptoCipherCore env data wrappingKey options alg false
  let keyData ← unwrappedData env fmt decrypted
  pure (fmt, importAlg, usage, keyData)

def njsExtUnwrapKey (keys : List Key)
    (fmt data unwrappingKey options keyAlg extractable keyUsages : Value) : M Result := do
  let (fmt, importAlg, usage, keyData) ←
    unwrapped env keys fmt data unwrappingKey options keyAlg keyUsages
  Result.key <$>
    njsWebcryptoImportKeyInternal env fmt keyData importAlg keyAlg (env.truth extractable) usage

/-! ### Scripts -/

/-- The calls of a script; `encrypt` and `decrypt` are one function, as are `sign` and `verify`, and
`deriveKey` and `deriveBits`. -/
inductive Call
  | cipher (encrypt : Bool) (options key data : Value)
  | sign (verify : Bool) (options key sig data : Value)
  | derive (deriveKey : Bool) (aobject baseKey dobject extractable keyUsages : Value)
  | generateKey (aobject extractable keyUsages : Value) (seed : ℕ)
  | importKey (fmt keyData options extractable keyUsages : Value)
  | exportKey (fmt key : Value)
  | wrapKey (fmt key wrappingKey options : Value)
  | unwrapKey (fmt data unwrappingKey options keyAlg extractable keyUsages : Value)

/-- The pair or the key that `generateKey` gives. -/
def Generated.result : Generated → Result
  | .secret key => .key key
  | .pair privateKey publicKey => .pair privateKey publicKey

def Call.run (keys : List Key) : Call → M Result
  | .cipher encrypt options key data => njsExtCipher env keys encrypt options key data
  | .sign verify options key sig data => njsExtSign env keys verify options key sig data
  | .derive deriveKey aobject baseKey dobject extractable keyUsages =>
    njsExtDerive env keys deriveKey aobject baseKey dobject extractable keyUsages
  | .generateKey aobject extractable keyUsages seed =>
    Generated.result <$> njsExtGenerateKey env aobject extractable keyUsages seed
  | .importKey fmt keyData options extractable keyUsages =>
    njsExtImportKey env fmt keyData options extractable keyUsages
  | .exportKey fmt key => njsExtExportKey env keys fmt key
  | .wrapKey fmt key wrappingKey options => njsExtWrapKey env keys fmt key wrappingKey options
  | .unwrapKey fmt data unwrappingKey options keyAlg extractable keyUsages =>
    njsExtUnwrapKey env keys fmt data unwrappingKey options keyAlg extractable keyUsages

def Result.keys : Result → List Key
  | .key k => [k]
  | .pair privateKey publicKey => [privateKey, publicKey]
  | _ => []

def Result.buffers : Result → List Slice
  | .buffer s => [s]
  | _ => []

/-- What a script has. -/
structure World where
  memory : Memory
  buffers : List Slice
  keys : List Key

/-- What a script does: a call, a byte written to an array buffer, or a new array buffer. -/
inductive Action
  | call (c : Call)
  | write (buffer offset : ℕ) (byte : UInt8)
  | newBuffer (bytes : Bytes)

/-- The byte of an array buffer that a write is to. -/
def World.target (w : World) (buffer offset : ℕ) : Option (ℕ × ℕ) :=
  match w.buffers[buffer]? with
  | some s => if offset < s.length then some (s.block, s.start + offset) else none
  | none => none

def Memory.write (m : Memory) (block at' : ℕ) (byte : UInt8) : Memory :=
  m.modify block fun bytes => bytes.set at' byte

/-- An action. A call that fails leaves no object. -/
def World.step (w : World) : Action → World
  | .call c =>
    match (c.run env w.keys).run w.memory with
    | .ok (r, memory) =>
      {memory, buffers := w.buffers ++ r.buffers, keys := w.keys ++ r.keys}
    | .error _ => w
  | .write buffer offset byte =>
    match w.target buffer offset with
    | some (block, at') => {w with memory := w.memory.write block at' byte}
    | none => w
  | .newBuffer bytes =>
    {w with
      memory := w.memory ++ [bytes]
      buffers := w.buffers ++ [⟨w.memory.length, 0, bytes.length⟩]}

def World.run (w : World) (actions : List Action) : World := actions.foldl (World.step env) w

end Njs.WebCrypto
