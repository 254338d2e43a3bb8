import Njs.Lib.HttpFields
import Njs.Lib.StateExcept

/-!
# Arguments of WebCrypto

The tables of `njs_webcrypto_module.c`, and the functions that read arguments: formats, usages,
algorithms, hashes and curves. `Engine` stands for the conversions of the interpreter, which may
throw, and `OpenSsl` for the functions of OpenSSL, which may fail; both are arbitrary.

A property of an argument is read at most once in a call, so that an object is given by the values
of its properties.
-/

namespace Njs.WebCrypto

open Text
open StateExcept
open Http (fold)

/-! ### Tables -/

/-- `njs_webcrypto_key_usage_t`. -/
inductive Usage
  | decrypt
  | deriveBits
  | deriveKey
  | encrypt
  | generateKey
  | sign
  | verify
  | wrapKey
  | unwrapKey
  deriving DecidableEq

/-- `njs_webcrypto_usage`, in the order of the table. -/
def njsWebcryptoUsage : List (String × Usage) :=
  [("decrypt", .decrypt), ("deriveBits", .deriveBits), ("deriveKey", .deriveKey),
   ("encrypt", .encrypt), ("sign", .sign), ("unwrapKey", .unwrapKey), ("verify", .verify),
   ("wrapKey", .wrapKey)]

/-- `njs_webcrypto_key_format_t`; `none` stands for `NJS_KEY_FORMAT_UNKNOWN`. -/
inductive Format
  | raw
  | pkcs8
  | spki
  | jwk
  deriving DecidableEq

def njsWebcryptoFormat : List (String × Format) :=
  [("raw", .raw), ("pkcs8", .pkcs8), ("spki", .spki), ("jwk", .jwk)]

/-- `njs_format_string`. -/
def Format.name : Format → String
  | .raw => "raw"
  | .pkcs8 => "pkcs8"
  | .spki => "spki"
  | .jwk => "jwk"

/-- `njs_webcrypto_alg_t`, which also stands for the entry of `njs_webcrypto_alg`. -/
inductive Alg
  | rsassaPkcs1V15
  | rsaPss
  | rsaOaep
  | hmac
  | aesGcm
  | aesCtr
  | aesCbc
  | aesKw
  | ecdsa
  | ecdh
  | ed25519
  | x25519
  | pbkdf2
  | hkdf
  deriving DecidableEq

/-- `njs_algorithm_string`. -/
def Alg.name : Alg → String
  | .rsassaPkcs1V15 => "RSASSA-PKCS1-v1_5"
  | .rsaPss => "RSA-PSS"
  | .rsaOaep => "RSA-OAEP"
  | .hmac => "HMAC"
  | .aesGcm => "AES-GCM"
  | .aesCtr => "AES-CTR"
  | .aesCbc => "AES-CBC"
  | .aesKw => "AES-KW"
  | .ecdsa => "ECDSA"
  | .ecdh => "ECDH"
  | .ed25519 => "Ed25519"
  | .x25519 => "X25519"
  | .pbkdf2 => "PBKDF2"
  | .hkdf => "HKDF"

/-- The order of `njs_webcrypto_alg`. -/
def njsWebcryptoAlg : List Alg :=
  [.rsassaPkcs1V15, .rsaPss, .rsaOaep, .hmac, .aesGcm, .aesCtr, .aesCbc, .aesKw, .ecdsa, .ecdh,
   .ed25519, .x25519, .pbkdf2, .hkdf]

/-- The field `usage` of an algorithm. -/
def Alg.usage : Alg → Finset Usage
  | .rsassaPkcs1V15 | .rsaPss | .hmac | .ecdsa | .ed25519 => {.sign, .verify, .generateKey}
  | .rsaOaep | .aesGcm | .aesCtr | .aesCbc =>
    {.encrypt, .decrypt, .wrapKey, .unwrapKey, .generateKey}
  | .aesKw => {.wrapKey, .unwrapKey, .generateKey}
  | .ecdh | .x25519 => {.deriveKey, .deriveBits, .generateKey}
  | .pbkdf2 | .hkdf => {.deriveKey, .deriveBits}

/-- The field `fmt` of an algorithm. -/
def Alg.fmt : Alg → List Format
  | .rsassaPkcs1V15 | .rsaPss | .rsaOaep => [.pkcs8, .spki, .jwk]
  | .hmac | .aesGcm | .aesCtr | .aesCbc | .aesKw => [.raw, .jwk]
  | .ecdsa | .ecdh | .ed25519 | .x25519 => [.pkcs8, .spki, .raw, .jwk]
  | .pbkdf2 | .hkdf => [.raw]

/-- The field `raw` of an algorithm. -/
def Alg.raw : Alg → Bool
  | .hmac | .aesGcm | .aesCtr | .aesCbc | .aesKw | .pbkdf2 | .hkdf => true
  | _ => false

/-- The cases of the RSA algorithms. -/
def Alg.isRsa : Alg → Bool
  | .rsassaPkcs1V15 | .rsaPss | .rsaOaep => true
  | _ => false

/-- The cases of the AES algorithms. -/
def Alg.isAes : Alg → Bool
  | .aesGcm | .aesCtr | .aesCbc | .aesKw => true
  | _ => false

/-- `njs_webcrypto_hash_t`; `none` stands for `NJS_HASH_UNSET`. -/
inductive Hash
  | sha1
  | sha256
  | sha384
  | sha512
  deriving DecidableEq

def njsWebcryptoHash : List (String × Hash) :=
  [("SHA-256", .sha256), ("SHA-384", .sha384), ("SHA-512", .sha512), ("SHA-1", .sha1)]

/-- `EVP_MD_size` of `njs_algorithm_hash_digest`. -/
def Hash.size : Hash → ℕ
  | .sha1 => 20
  | .sha256 => 32
  | .sha384 => 48
  | .sha512 => 64

/-- The numbers of `njs_webcrypto_curve`; `none` stands for 0. -/
inductive Curve
  | p256
  | p384
  | p521
  deriving DecidableEq

def njsWebcryptoCurve : List (String × Curve) :=
  [("P-256", .p256), ("P-384", .p384), ("P-521", .p521)]

def njsWebcryptoAlgHash : List (String × Hash) :=
  [("RS1", .sha1), ("RS256", .sha256), ("RS384", .sha384), ("RS512", .sha512),
   ("PS1", .sha1), ("PS256", .sha256), ("PS384", .sha384), ("PS512", .sha512),
   ("RSA-OAEP", .sha1), ("RSA-OAEP-256", .sha256), ("RSA-OAEP-384", .sha384),
   ("RSA-OAEP-512", .sha512)]

/-! ### Values -/

/-- A part of a block of memory. -/
structure Slice where
  block : ℕ
  start : ℕ
  length : ℕ
  deriving DecidableEq

/-- The blocks that have been allocated. -/
abbrev Memory : Type := List Bytes

def Memory.bytes (m : Memory) (s : Slice) : Bytes :=
  ((m[s.block]?.getD []).drop s.start).take s.length

/-- The values of a script. -/
inductive Value
  | undefined
  | boolean (b : Bool)
  | number (bits : UInt64)
  | string (text : Bytes)
  /-- An array buffer, or the part of it that a typed array or a DataView shows. -/
  | buffer (s : Slice)
  | cryptoKey (id : ℕ)
  | array (elements : List Value)
  | object (props : List (String × Value))

/-- `njs_value_is_object`. -/
def Value.isObject : Value → Bool
  | .buffer _ | .cryptoKey _ | .array _ | .object _ => true
  | _ => false

/-- `njs_vm_object_prop`; `none` stands for `NULL`. -/
def Value.prop : Value → String → Option Value
  | .object props, name => props.lookup name
  | _, _ => none

/-! ### What is used and not modelled -/

/-- `EVP_PKEY_id`, with the curve of a group if it is one of `njs_webcrypto_curve`. -/
inductive EvpPkeyId
  | rsa
  | rsaPss
  | ec (group : Option Curve)
  | ed25519
  | x25519
  | other
  deriving DecidableEq

/-- A key object of OpenSSL. -/
structure EvpPkey where
  id : EvpPkeyId
  der : Bytes
  deriving DecidableEq

abbrev PkeyOf (id : EvpPkeyId) : Type := {pkey : EvpPkey // pkey.id = id}

/-- The numbers of an RSA key, each of the length of `BN_num_bytes`. -/
structure RsaNumbers where
  n : Bytes
  e : Bytes
  /-- `d`, `p`, `q`, `dp`, `dq`, `qi`. -/
  privat : List Bytes

/-- The coordinates of an EC key, padded to the bytes of the group. -/
structure EcNumbers where
  x : Bytes
  y : Bytes
  d : Bytes
  /-- The name of the curve, if it is one of `njs_webcrypto_curve`. -/
  curve : Option String

/-- The interpreter: conversions may throw, which is `none`. -/
structure Engine where
  /-- `njs_value_to_string`, of values that are no strings. -/
  toString : Value → Option Bytes
  /-- `njs_value_to_integer`. -/
  toInteger : Value → Option ℤ
  /-- `njs_value_number(value) / 8`, as a `size_t`. -/
  octets : Value → ℕ
  /-- `njs_value_bool`. -/
  truth : Value → Bool
  /-- `njs_vm_json_stringify`. -/
  stringify : Value → Option Bytes
  /-- `njs_vm_json_parse`. -/
  parse : Bytes → Option Value
  /-- `njs_string_base64url`. -/
  encodeBase64url : Bytes → Bytes
  /-- `njs_decode_base64url`, of the length that `njs_decode_base64url_length` gives. -/
  decodeBase64url : Bytes → Bytes

/-- OpenSSL: `none` is a failure, and `seed` is what the random numbers of a call come from. -/
structure OpenSsl where
  randBytes : (seed n : ℕ) → Option (Vector UInt8 n)
  rsaKeygen : (seed : ℕ) → (bits : UInt64) → Option (PkeyOf .rsa)
  ecKeygen : (seed : ℕ) → (curve : Curve) → Option (PkeyOf (.ec (some curve)))
  ed25519Keygen : (seed : ℕ) → Option (PkeyOf .ed25519)
  x25519Keygen : (seed : ℕ) → Option (PkeyOf .x25519)
  /-- `EVP_PKCS82PKEY` of `d2i_PKCS8_PRIV_KEY_INFO_bio`. -/
  pkcs8ToPkey : Bytes → Option EvpPkey
  /-- `d2i_PUBKEY`. -/
  d2iPubkey : Bytes → Option EvpPkey
  /-- `RSA_set0_key`, `RSA_set0_factors`, `RSA_set0_crt_params`, `EVP_PKEY_set1_RSA`. -/
  rsaPkey : RsaNumbers → Option (PkeyOf .rsa)
  /-- `EC_POINT_oct2point`, `EC_KEY_set_public_key`, `EVP_PKEY_set1_EC_KEY`. -/
  ecPoint : (curve : Option Curve) → Bytes → Option (PkeyOf (.ec curve))
  /-- `EC_KEY_set_public_key_affine_coordinates`, `EC_KEY_set_private_key`. -/
  ecPkey : (curve : Option Curve) → (x y : Bytes) → (d : Option Bytes) → Option (PkeyOf (.ec curve))
  /-- `EVP_PKEY_new_raw_private_key`. -/
  rawPrivateKey : (id : EvpPkeyId) → Bytes → Option (PkeyOf id)
  /-- `EVP_PKEY_new_raw_public_key`. -/
  rawPublicKey : (id : EvpPkeyId) → Bytes → Option (PkeyOf id)
  /-- `EVP_PKEY_get_raw_public_key`. -/
  getRawPublicKey : EvpPkey → Option Bytes
  /-- `EVP_PKEY_get_raw_private_key`. -/
  getRawPrivateKey : EvpPkey → Option Bytes
  pkeyToPkcs8 : EvpPkey → Option Bytes
  i2dPubkey : EvpPkey → Option Bytes
  ecPoint2oct : EvpPkey → Option Bytes
  rsaNumbers : EvpPkey → RsaNumbers
  ecNumbers : EvpPkey → Option EcNumbers
  /-- `EVP_PKEY_encrypt` and `EVP_PKEY_decrypt` with `RSA_PKCS1_OAEP_PADDING`. -/
  pkeyCipher : (encrypt : Bool) → EvpPkey → (md : Hash) → (data : Bytes) → Option Bytes
  aesGcm : (encrypt : Bool) → (key iv aad : Bytes) → (taglen : ℕ) → (data : Bytes) → Option Bytes
  aesCtr128 : (encrypt : Bool) → (key counter data : Bytes) → Option Bytes
  aesCbc : (encrypt : Bool) → (key iv data : Bytes) → Option Bytes
  aesWrap : (encrypt : Bool) → (key data : Bytes) → Option Bytes
  /-- `EVP_PKEY_derive` with a peer. -/
  pkeyDerive : (priv pub : EvpPkey) → Option Bytes
  pbkdf2Hmac : (key salt : Bytes) → (iterations : ℤ) → (md : Hash) → (n : ℕ) →
    Option (Vector UInt8 n)
  hkdf : (key salt info : Bytes) → (md : Hash) → (n : ℕ) → Option (Vector UInt8 n)
  hmac : (md : Hash) → (key data : Bytes) → Option Bytes
  /-- `EVP_DigestSign`. -/
  digestSign : EvpPkey → (data : Bytes) → Option Bytes
  /-- `EVP_DigestVerify`. -/
  digestVerify : EvpPkey → (sig data : Bytes) → Option Bool
  /-- `EVP_PKEY_sign`, of a digest; the length of the salt is that of RSA-PSS. -/
  pkeySign : Alg → (saltLength : Option ℤ) → EvpPkey → (md : Hash) → (data : Bytes) → Option Bytes
  /-- `EVP_PKEY_verify`, of a digest. -/
  pkeyVerify : Alg → (saltLength : Option ℤ) → EvpPkey → (md : Hash) → (sig data : Bytes) →
    Option Bool
  /-- `njs_convert_der_to_p1363`. -/
  derToP1363 : EvpPkey → Bytes → Bytes
  /-- `njs_convert_p1363_to_der`. -/
  p1363ToDer : EvpPkey → Bytes → Bytes

/-- What the module is built on. -/
structure Env extends Engine, OpenSsl

/-! ### Programs -/

/-- Why a call fails. -/
inductive Fault
  | typeError (message : String)
  | rangeError (message : String)
  | internalError (message : String)
  | memoryError
  /-- `njs_webcrypto_error`. -/
  | error (message : String)
  /-- What a conversion has thrown. -/
  | exception
  /-- The union of a key has been read as the member that is not stored. -/
  | misread
  deriving DecidableEq

/-- The functions of the module. -/
abbrev M (α : Type) : Type := Prog Memory Fault α

def failIf (c : Prop) [Decidable c] (fault : Fault) : M Unit := if c then throw fault else pure ()

/-- What must be there. -/
def orFail {α : Type} (x : Option α) (fault : Fault) : M α :=
  match x with
  | some a => pure a
  | none => throw fault

def openSsl {α : Type} (x : Option α) (name : String) : M α :=
  orFail x (.error (name ++ " failed"))

/-- A conversion. -/
def converted {α : Type} (x : Option α) : M α := orFail x .exception

/-- `njs_mp_alloc`, and what is then written. -/
def alloc (bytes : Bytes) : M Slice := do
  let m ← get
  set (m ++ [bytes])
  pure ⟨m.length, 0, bytes.length⟩

def bytesOf (s : Slice) : M Bytes := do
  let m ← get
  pure (m.bytes s)

/-- `%V`. -/
def shown (text : Bytes) : String := String.ofList (text.map fun c => .ofNat c.toNat)

def entry {α : Type} (table : List (String × α)) (name : Bytes) : Option α :=
  (table.find? fun w => lit w.1 = name).map Prod.snd

variable (env : Env)

def njsValueToString (value : Value) : M Bytes :=
  match value with
  | .string text => pure text
  | _ => converted (env.toString value)

/-- `njs_vm_value_to_bytes`; the bytes of a string are a block of its own. -/
def njsVmValueToBytes (value : Value) : M Slice := do
  match value with
  | .buffer s =>
    let m ← get
    if s.block < m.length ∨ s.length = 0 then pure s
    else throw (.typeError "detached buffer")
  | _ =>
    let text ← njsValueToString env value
    alloc text

def dataOf (value : Value) : M Bytes := do
  let s ← njsVmValueToBytes env value
  bytesOf s

/-! ### Reading arguments -/

def njsKeyFormat (value : Value) : M Format := do
  let format ← njsValueToString env value
  orFail (entry njsWebcryptoFormat format)
    (.typeError ("unknown key format: \"" ++ shown format ++ "\""))

def njsKeyUsageArrayHandler (mask : Finset Usage) (value : Value) : M (Finset Usage) := do
  let u ← njsValueToString env value
  let usage ← orFail (entry njsWebcryptoUsage u)
    (.typeError ("unknown key usage: \"" ++ shown u ++ "\""))
  pure (insert usage mask)

def njsKeyUsage (value : Value) : M (Finset Usage) :=
  match value with
  | .array elements => elements.foldlM (njsKeyUsageArrayHandler env) ∅
  | _ => throw (.typeError "\"keyUsages\" argument must be an Array")

/-- The name that `options` give. -/
def algorithmName (options : Value) : M Value :=
  if options.isObject then
    orFail (options.prop "name") (.typeError "algorithm name is not provided")
  else pure options

def njsKeyAlgorithm (options : Value) : M Alg := do
  let name ← algorithmName options
  let a ← njsValueToString env name
  orFail (njsWebcryptoAlg.find? fun alg => fold (lit alg.name) = fold a)
    (.typeError ("unknown algorithm name: \"" ++ shown a ++ "\""))

def njsAlgorithmHash (options : Value) : M Hash :=
  if options.isObject && (options.prop "hash").isNone then pure .sha256
  else do
    let name ← njsValueToString env ((options.prop "hash").getD options)
    orFail (entry njsWebcryptoHash name)
      (.typeError ("unknown hash name: \"" ++ shown name ++ "\""))

def njsAlgorithmCurve (options : Value) (curve : Option Curve) : M (Option Curve) :=
  match curve with
  | some c => pure (some c)
  | none => do
    let name ← njsValueToString env ((options.prop "namedCurve").getD .undefined)
    some <$> orFail (entry njsWebcryptoCurve name)
      (.typeError ("unknown namedCurve: \"" ++ shown name ++ "\""))

end Njs.WebCrypto
