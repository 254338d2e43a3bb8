import Mathlib.Algebra.Group.Int.Defs
import Mathlib.Algebra.Group.Nat.Defs
import Mathlib.Data.List.Perm.Basic
import Mathlib.Data.List.Sort
import Mathlib.Data.Rat.Defs

/-!
# The shared memory of a `js_shared_dict_zone`

A zone is a slab of shared memory with two red-black trees over the same nodes: `rbtree`,
ordered by the CRC-32 of the key, and, when the zone has a timeout, `rbtree_expire`, ordered
by the expiry time (`nginx/ngx_js_shared_dict.c`). The trees and the slab allocator are
nginx's. Here a tree is the list of its nodes in order, insertion places a node by the
comparison that nginx's insertion callback makes, and the allocator answers every request
with an address that is not in use, or refuses it.

The contents of a chunk stay readable after it is freed, as they do in shared memory; which
addresses are allocated is recorded in `Zone.chunks`.
-/

namespace Njs.SharedDict

/-- Byte strings. -/
abbrev Bytes : Type := List UInt8

/-- `ngx_msec_t`: 64-bit milliseconds with wrapping arithmetic. -/
abbrev Msec : Type := UInt64

/-- Addresses of slab chunks. -/
abbrev Addr : Type := ℕ

/-- `NGX_JS_DICT_TYPE_STRING` and `NGX_JS_DICT_TYPE_NUMBER`. -/
inductive DictType
  | string
  | number
  deriving DecidableEq

/-- The settings of a zone (`ngx_js_dict_t`); `ngx_js_shared_dict_zone` refuses `evict`
without `timeout=`. -/
structure Conf where
  timeout : Msec
  evict : Bool
  type : DictType
  /-- `state_file.data != NULL`. -/
  stateFile : Bool
  evict_timeout : evict = true → timeout ≠ 0

/-- `ngx_js_dict_value_t`, read by the type of the zone. -/
inductive Value (ν : Type)
  | str (s : Bytes)
  | number (x : ν)
  deriving DecidableEq

/-- The JavaScript values that the methods of a shared dictionary take and return; `this` is
the dictionary itself, `keys` and `items` are the arrays built by the methods of that name. -/
inductive JsValue (ν : Type)
  | undefined
  | boolean (b : Bool)
  | number (x : ν)
  | string (s : Bytes)
  | this
  | keys (l : List Bytes)
  | items (l : List (Bytes × Value ν))
  deriving DecidableEq

/-- The exceptions that the methods throw. -/
inductive JsError
  | typeError (message : String)
  | rangeError (message : String)
  | error (message : String)
  | sharedMemoryError
  /-- An exception raised by an engine's own conversion. -/
  | exception
  deriving DecidableEq

/-- What the dictionary takes from outside the repository: nginx's key hash, the numbers of
the two engines, and the conversions that C and QuickJS apply to them. Arithmetic and
rounding are left open; the laws concern 32-bit integers only. -/
class Env (ν : Type) where
  /-- `ngx_crc32_long`. -/
  crc32 : Bytes → UInt32
  zero : ν
  add : ν → ν → ν
  /-- The number nearest to an integer. -/
  ofInt : ℤ → ν
  /-- `(ngx_msec_t) x`. -/
  toMsec : ν → Msec
  /-- `njs_value_is_valid_number`: neither a NaN nor an infinity. -/
  isValid : ν → Bool
  /-- `(ngx_int_t) x`, for numbers in the range of `ngx_int_t`. -/
  toInt : ν → Option ℤ
  /-- `JS_ToUint32`. -/
  jsToUint32 : JsValue ν → Option UInt32
  /-- `JS_ToFloat64`. -/
  jsToFloat64 : JsValue ν → Option ν
  toMsec_ofInt : ∀ n : UInt32, toMsec (ofInt n.toNat) = n.toUInt64
  isValid_ofInt : ∀ n : UInt32, isValid (ofInt n.toNat) = true
  toInt_ofInt : ∀ n : UInt32, toInt (ofInt n.toNat) = some (n.toNat : ℤ)
  jsToUint32_ofInt : ∀ n : UInt32, jsToUint32 (.number (ofInt n.toNat)) = some n
  jsToFloat64_number : ∀ x, jsToFloat64 (.number x) = some x
  ofInt_ne : ∀ m n : ℤ, m < 2 ^ 31 → 2 ^ 31 ≤ n → ofInt m ≠ ofInt n

variable {ν : Type}

def Value.bytes : Value ν → Bytes
  | .str s => s
  | .number _ => []

/-- The number of a value of a number zone. -/
def Value.num [Env ν] : Value ν → ν
  | .str _ => Env.zero
  | .number x => x

/-- `ngx_js_dict_node_t`. The key lies in the node's own chunk, the string value in a chunk
of its own; `str` and `number` are the two members of the union `value`. The hash `sn.node.key`
is always the CRC-32 of `key` and is not stored. -/
structure Node (ν : Type) where
  key : Bytes
  /-- `expire.key`. -/
  expire : Msec
  /-- `value.str.data`. -/
  str : Addr
  /-- `value.number`. -/
  number : ν

/-- The state that one operation of a worker acts on: the shared memory of the zone
(`ngx_js_dict_sh_t` and the slab), and the worker's own save timer. -/
structure Zone (ν : Type) where
  node : Addr → Node ν
  buf : Addr → Bytes
  chunks : List Addr
  rbtree : List Addr
  rbtreeExpire : List Addr
  dirty : Bool
  writing : Bool
  /-- `save_event.timer_set` of the worker. -/
  timerSet : Bool
  /-- The answers of the slab allocator to the coming requests. -/
  slab : List (ℕ → Option Addr)

/-- The comparison of `ngx_str_rbtree_insert_value`: by hash, then by length, then bytewise. -/
def ngxStrLess (ν : Type) [Env ν] (a b : Bytes) : Bool :=
  if Env.crc32 ν a ≠ Env.crc32 ν b then Env.crc32 ν a < Env.crc32 ν b
  else if a.length ≠ b.length then a.length < b.length
  else a < b

/-- The comparison of `ngx_rbtree_insert_timer_value`: the sign of the wrapped difference. -/
def ngxTimerLess (a b : Msec) : Bool :=
  (a - b).toInt64 < 0

namespace Zone

/-- `ngx_slab_alloc_locked`: the next answer of the allocator. An address that is in use is
never handed out. -/
def slabAlloc (z : Zone ν) (n : ℕ) : Zone ν × Option Addr :=
  match z.slab with
  | [] => (z, none)
  | answer :: slab =>
    match answer n with
    | none => ({ z with slab }, none)
    | some p =>
      if p ∈ z.chunks then ({ z with slab }, none)
      else ({ z with slab, chunks := p :: z.chunks }, some p)

/-- `ngx_slab_free_locked`. -/
@[simps] def slabFree (z : Zone ν) (p : Addr) : Zone ν :=
  { z with chunks := z.chunks.erase p }

@[simps] def setNode (z : Zone ν) (a : Addr) (n : Node ν) : Zone ν :=
  { z with node := Function.update z.node a n }

/-- Write a value buffer. -/
@[simps] def setBuf (z : Zone ν) (p : Addr) (s : Bytes) : Zone ν :=
  { z with buf := Function.update z.buf p s }

/-- `ngx_rbtree_insert(&dict->sh->rbtree, &node->sn.node)`. -/
@[simps] def insertTree [Env ν] (z : Zone ν) (a : Addr) : Zone ν :=
  { z with
    rbtree := z.rbtree.orderedInsert
      (fun a b => ngxStrLess ν (z.node a).key (z.node b).key = true) a }

/-- `ngx_rbtree_delete(&dict->sh->rbtree, &node->sn.node)`. -/
@[simps] def deleteTree (z : Zone ν) (a : Addr) : Zone ν :=
  { z with rbtree := z.rbtree.erase a }

/-- `ngx_rbtree_insert(&dict->sh->rbtree_expire, &node->expire)`. -/
@[simps] def insertExpire (z : Zone ν) (a : Addr) : Zone ν :=
  { z with
    rbtreeExpire := z.rbtreeExpire.orderedInsert
      (fun a b => ngxTimerLess (z.node a).expire (z.node b).expire = true) a }

/-- `ngx_rbtree_delete(&dict->sh->rbtree_expire, &node->expire)`. -/
@[simps] def deleteExpire (z : Zone ν) (a : Addr) : Zone ν :=
  { z with rbtreeExpire := z.rbtreeExpire.erase a }

end Zone

/-- An empty zone, as `ngx_js_dict_init_zone` leaves it when there is no state file; `n` is
whatever the unused memory holds. -/
def Zone.init (n : Node ν) : Zone ν where
  node _ := n
  buf _ := []
  chunks := []
  rbtree := []
  rbtreeExpire := []
  dirty := false
  writing := false
  timerSet := false
  slab := []

end Njs.SharedDict

/-!
## Numbers with exact arithmetic

A number of JavaScript as an exact rational or one of the three special values, with the
conversions that C and QuickJS apply to it, and nginx's CRC-32: an instance of `Env` on which
the operations can be run. `minuteConf` and `blankNode` are the settings and the initial memory
of such runs.
-/

namespace Njs.SharedDict

/-- A JavaScript number, without rounding and without the sign of zero. -/
inductive JsNumber
  | finite (q : ℚ)
  | nan
  | infinity
  | negInfinity
  deriving DecidableEq

/-- One byte of `ngx_crc32_update`: eight rounds with the reflected polynomial. -/
def crc32Byte (crc : UInt32) (b : UInt8) : UInt32 :=
  (List.range 8).foldl
    (fun crc _ => if crc &&& 1 = 1 then (crc >>> 1) ^^^ 0xedb88320 else crc >>> 1)
    (crc ^^^ b.toUInt32)

def ngxCrc32Long (s : Bytes) : UInt32 :=
  s.foldl crc32Byte 0xffffffff ^^^ 0xffffffff

namespace JsNumber

/-- Rounding toward zero. -/
def truncate (q : ℚ) : ℤ :=
  q.num.tdiv q.den

/-- Addition of JavaScript numbers. -/
def add : JsNumber → JsNumber → JsNumber
  | finite p, finite q => finite (p + q)
  | nan, _ | _, nan => nan
  | infinity, negInfinity | negInfinity, infinity => nan
  | infinity, _ | _, infinity => infinity
  | negInfinity, _ | _, negInfinity => negInfinity

/-- `njs_value_is_valid_number`. -/
def isValid : JsNumber → Bool
  | finite _ => true
  | _ => false

/-- `(ngx_int_t) x`. -/
def toInt : JsNumber → Option ℤ
  | finite q =>
    if -2 ^ 63 ≤ truncate q ∧ truncate q < 2 ^ 63 then some (truncate q) else none
  | _ => none

/-- `(ngx_msec_t) x`, for numbers in the range of `ngx_msec_t`. -/
def toMsec : JsNumber → Msec
  | finite q => UInt64.ofNat (truncate q).toNat
  | _ => 0

/-- `JS_ToUint32` of a number. -/
def toUint32 : JsNumber → UInt32
  | finite q => UInt32.ofNat (truncate q % 2 ^ 32).toNat
  | _ => 0

/-- `JS_ToFloat64`; the values that are no numbers and no Booleans give `NaN`. -/
def jsToFloat64 : JsValue JsNumber → Option JsNumber
  | .number x => some x
  | .boolean b => some (finite (if b then 1 else 0))
  | _ => some nan

@[simp] theorem truncate_intCast (n : ℤ) : truncate n = n := by
  simp [truncate]

theorem truncate_toNat (n : UInt32) : truncate ((n.toNat : ℤ) : ℚ) = n.toNat :=
  truncate_intCast _

instance : Env JsNumber where
  crc32 := ngxCrc32Long
  zero := finite 0
  add := add
  ofInt n := finite n
  toMsec := toMsec
  isValid := isValid
  toInt := toInt
  jsToUint32 v := (jsToFloat64 v).map toUint32
  jsToFloat64 := jsToFloat64
  toMsec_ofInt n := by
    rw [toMsec, truncate_toNat, Int.toNat_natCast]
    exact UInt64.toNat_inj.mp (by simp)
  isValid_ofInt _ := rfl
  toInt_ofInt n := by
    have hn := n.toNat_lt
    rw [toInt, truncate_toNat, if_pos (by omega)]
  jsToUint32_ofInt n := by
    have hlt := n.toNat_lt
    have hn : (n.toNat : ℤ) % 2 ^ 32 = n.toNat := by omega
    rw [jsToFloat64, Option.map_some, toUint32, truncate_toNat, hn, Int.toNat_natCast,
      UInt32.ofNat_toNat]
  jsToFloat64_number _ := rfl
  ofInt_ne m n hm hn h := by
    have hmn : (m : ℚ) = n := by simpa using h
    have : m = n := by exact_mod_cast hmn
    omega

end JsNumber

set_option maxRecDepth 8000 in
/-- The check value of the CRC-32, that of the digits from 1 to 9. -/
example : ngxCrc32Long [49, 50, 51, 52, 53, 54, 55, 56, 57] = 0xcbf43926 := by
  decide

/-- A string zone with a timeout of a minute. -/
def minuteConf : Conf where
  timeout := 60000
  evict := false
  type := .string
  stateFile := false
  evict_timeout := nofun

/-- A chunk that holds nothing. -/
def blankNode : Node JsNumber where
  key := []
  expire := 0
  str := 0
  number := .finite 0

end Njs.SharedDict
