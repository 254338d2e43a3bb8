import Njs.SharedDict.Zone

/-!
# The operations of a shared dictionary

The functions of `nginx/ngx_js_shared_dict.c` that both engines share or that the njs binding
uses: allocation with eviction, the expiry sweep, insertion, update, deletion and increment,
and over them the methods of the njs binding. Every operation runs inside one section locked
by `dict->sh->rwlock`, so a definition here is one atomic step; `now` is the clock that
`ngx_timeofday` shows to the worker. The engines' own memory is assumed to suffice: creating
the JavaScript values that a method returns does not fail.
-/

namespace Njs.SharedDict

variable {ν : Type}

/-- `NGX_OK`, `NGX_DECLINED` and `NGX_ERROR`. -/
inductive Rc
  | ok
  | declined
  | error
  deriving DecidableEq

/-- The `flags` of `set()`, `replace()` (`NGX_JS_DICT_FLAG_MUST_EXIST`) and `add()`
(`NGX_JS_DICT_FLAG_MUST_NOT_EXIST`). -/
inductive SetFlags
  | none
  | mustExist
  | mustNotExist
  deriving DecidableEq

/-! ### Lookup, freeing and the two sweeps -/

def ngxJsDictLookup (z : Zone ν) (key : Bytes) : Option Addr :=
  z.rbtree.find? fun a => (z.node a).key = key

def ngxJsDictNodeFree (c : Conf) (z : Zone ν) (a : Addr) : Zone ν :=
  match c.type with
  | .string => (z.slabFree (z.node a).str).slabFree a
  | .number => z.slabFree a

/-- The body shared by the loops of `ngx_js_dict_expire` and `ngx_js_dict_evict`. -/
def dropNode (c : Conf) (z : Zone ν) (a : Addr) : Zone ν :=
  ngxJsDictNodeFree c ((z.deleteExpire a).deleteTree a) a

/-- The loop of `ngx_js_dict_expire`. The successor of a node is read before the node is
deleted, so the loop visits the nodes of the tree it started with, in order. -/
def ngxJsDictExpireLoop (c : Conf) (now : Msec) : List Addr → Zone ν → Zone ν
  | [], z => z
  | rn :: next, z =>
    if (z.node rn).expire > now then z
    else ngxJsDictExpireLoop c now next (dropNode c z rn)

def ngxJsDictExpire (c : Conf) (now : Msec) (z : Zone ν) : Zone ν :=
  ngxJsDictExpireLoop c now z.rbtreeExpire z

/-- The loop of `ngx_js_dict_evict`, with the number of evicted nodes. -/
def ngxJsDictEvictLoop (c : Conf) : List Addr → ℕ → Zone ν → Zone ν × ℕ
  | [], _, z => (z, 0)
  | _ :: _, 0, z => (z, 0)
  | rn :: next, count + 1, z =>
    let (z, evicted) := ngxJsDictEvictLoop c next count (dropNode c z rn)
    (z, evicted + 1)

def ngxJsDictEvict (c : Conf) (count : ℕ) (z : Zone ν) : Zone ν × ℕ :=
  ngxJsDictEvictLoop c z.rbtreeExpire count z

/-! ### Allocation -/

/-- The `while` loop of `ngx_js_dict_alloc`, entered with `p == NULL`. Every round but the last
evicts a node, so as many rounds as there are nodes in the expire tree are enough
(`ngxJsDictAllocLoop_eq`). -/
def ngxJsDictAllocLoop (c : Conf) (n : ℕ) : ℕ → Zone ν → Zone ν × Option Addr
  | 0, z => (z, none)
  | rounds + 1, z =>
    match ngxJsDictEvict c 16 z with
    | (z, 0) => (z, none)
    | (z, _ + 1) =>
      match z.slabAlloc n with
      | (z, some p) => (z, some p)
      | (z, none) => ngxJsDictAllocLoop c n rounds z

/-- `ngx_js_dict_alloc`; the switching of `log_nomem` around the loop is left out. -/
def ngxJsDictAlloc (c : Conf) (n : ℕ) (z : Zone ν) : Zone ν × Option Addr :=
  if c.evict then
    match z.slabAlloc n with
    | (z, some p) => (z, some p)
    | (z, none) =>
      match ngxJsDictAllocLoop c n z.rbtreeExpire.length z with
      | (z, some p) => (z, some p)
      | (z, none) => z.slabAlloc n
  else z.slabAlloc n

/-! ### Insertion and update -/

/-- `sizeof(ngx_js_dict_node_t)`. -/
def nodeSize : ℕ := 112

/-- `node->expire.key = now + timeout` and the insertion into the expire tree, made in zones
with a timeout. -/
def setExpire (c : Conf) (a : Addr) (timeout now : Msec) (z : Zone ν) : Zone ν :=
  if c.timeout ≠ 0 then
    (z.setNode a { z.node a with expire := now + timeout }).insertExpire a
  else z

/-- The end of `ngx_js_dict_add_value`: the key is copied into the node, whose value is set
already, and the node is linked into the trees. -/
def linkNode [Env ν] (c : Conf) (a : Addr) (key : Bytes) (timeout now : Msec) (z : Zone ν) :
    Zone ν :=
  setExpire c a timeout now ((z.setNode a { z.node a with key }).insertTree a)

/-- The sweep that `ngx_js_dict_add_value` starts with. -/
def sweepFirst (c : Conf) (now : Msec) (z : Zone ν) : Zone ν :=
  if c.timeout ≠ 0 then ngxJsDictExpire c now z else z

def ngxJsDictAddValue [Env ν] (c : Conf) (key : Bytes) (value : Value ν) (timeout now : Msec)
    (z : Zone ν) : Zone ν × Rc :=
  match ngxJsDictAlloc c (nodeSize + key.length) (sweepFirst c now z) with
  | (z, none) => (z, .error)
  | (z, some a) =>
    match c.type with
    | .string =>
      match ngxJsDictAlloc c value.bytes.length z with
      | (z, none) => (z.slabFree a, .error)
      | (z, some p) =>
        let z := (z.setNode a { z.node a with str := p }).setBuf p value.bytes
        (linkNode c a key timeout now z, .ok)
    | .number =>
      let z := z.setNode a { z.node a with number := value.num }
      (linkNode c a key timeout now z, .ok)

/-- `ngx_rbtree_delete(&dict->sh->rbtree_expire, &node->expire)`, made in zones with a
timeout. -/
def outOfExpire (c : Conf) (a : Addr) (z : Zone ν) : Zone ν :=
  if c.timeout ≠ 0 then z.deleteExpire a else z

/-- `ngx_js_dict_update`. Out of the expire tree, the node cannot be evicted by the
allocation. -/
def ngxJsDictUpdate [Env ν] (c : Conf) (a : Addr) (value : Value ν) (timeout now : Msec)
    (z : Zone ν) : Zone ν × Rc :=
  match c.type with
  | .string =>
    match ngxJsDictAlloc c value.bytes.length (outOfExpire c a z) with
    | (z, none) => (if c.timeout ≠ 0 then z.insertExpire a else z, .error)
    | (z, some p) =>
      let z := (z.slabFree (z.node a).str).setBuf p value.bytes
      let z := z.setNode a { z.node a with str := p }
      (setExpire c a timeout now z, .ok)
  | .number =>
    let z := outOfExpire c a z
    let z := z.setNode a { z.node a with number := value.num }
    (setExpire c a timeout now z, .ok)

/-- `dict->sh->dirty = 1`, and after the unlock the arming of the save timer. -/
@[simps] def markDirty (c : Conf) (z : Zone ν) : Zone ν :=
  { z with dirty := true, timerSet := z.timerSet || c.stateFile }

/-- The value that `ngx_js_dict_add` and `ngx_js_dict_update` take from a JavaScript value whose
type the binding has checked. -/
def JsValue.toValue [Env ν] (c : Conf) (v : JsValue ν) : Value ν :=
  match c.type, v with
  | .string, .string s => .str s
  | .string, _ => .str []
  | .number, .number x => .number x
  | .number, _ => .number Env.zero

def ngxJsDictSet [Env ν] (c : Conf) (key : Bytes) (value : JsValue ν) (timeout : Msec)
    (flags : SetFlags) (now : Msec) (z : Zone ν) : Zone ν × Rc :=
  match ngxJsDictLookup z key with
  | none =>
    if flags = .mustExist then (z, .declined)
    else
      match ngxJsDictAddValue c key (value.toValue c) timeout now z with
      | (z, .ok) => (markDirty c z, .ok)
      | (z, _) => (z, .error)
  | some a =>
    if flags = .mustNotExist ∧ (c.timeout = 0 ∨ now < (z.node a).expire) then (z, .declined)
    else
      match ngxJsDictUpdate c a (value.toValue c) timeout now z with
      | (z, .ok) => (markDirty c z, .ok)
      | (z, _) => (z, .error)

/-! ### Reading, deletion and increment -/

def nodeValue (c : Conf) (z : Zone ν) (a : Addr) : Value ν :=
  match c.type with
  | .string => .str (z.buf (z.node a).str)
  | .number => .number (z.node a).number

def Value.toJs : Value ν → JsValue ν
  | .str s => .string s
  | .number x => .number x

def ngxJsDictCopyValueLocked (c : Conf) (z : Zone ν) (a : Addr) : JsValue ν :=
  (nodeValue c z a).toJs

/-- The test `dict->timeout && now >= node->expire.key` of the reading methods. -/
def isExpired (c : Conf) (now : Msec) (z : Zone ν) (a : Addr) : Bool :=
  c.timeout ≠ 0 && now ≥ (z.node a).expire

/-- `ngx_js_dict_delete`; `retval` tells whether the caller wants the value. -/
def ngxJsDictDelete (c : Conf) (key : Bytes) (retval : Bool) (now : Msec) (z : Zone ν) :
    Zone ν × Rc × JsValue ν :=
  match ngxJsDictLookup z key with
  | none => (z, .declined, .undefined)
  | some a =>
    let z := (outOfExpire c a z).deleteTree a
    let res : Rc × JsValue ν :=
      if retval then
        if c.timeout = 0 ∨ now < (z.node a).expire then (.ok, ngxJsDictCopyValueLocked c z a)
        else (.declined, .undefined)
      else (.ok, .undefined)
    (markDirty c (ngxJsDictNodeFree c z a), res)

/-- `ngx_js_dict_incr`; a `timeout` of zero means that the call gives none. -/
def ngxJsDictIncr [Env ν] (c : Conf) (key : Bytes) (delta init : ν) (timeout now : Msec)
    (z : Zone ν) : Zone ν × Rc × ν :=
  match ngxJsDictLookup z key with
  | none =>
    let init := Env.add init delta
    let timeout := if timeout ≠ 0 then timeout else c.timeout
    match ngxJsDictAddValue c key (.number init) timeout now z with
    | (z, .ok) => (markDirty c z, .ok, init)
    | (z, _) => (z, .error, init)
  | some a =>
    let value := Env.add (z.node a).number delta
    let z := z.setNode a { z.node a with number := value }
    let z :=
      if c.timeout ≠ 0 ∧ timeout ≠ 0 then setExpire c a timeout now (z.deleteExpire a) else z
    (markDirty c z, .ok, value)

def ngxJsDictGet (c : Conf) (key : Bytes) (now : Msec) (z : Zone ν) : JsValue ν :=
  match ngxJsDictLookup z key with
  | none => .undefined
  | some a => if isExpired c now z a then .undefined else ngxJsDictCopyValueLocked c z a

/-- The loop of `keys()` and `items()`: what `f` gives for the nodes that have not expired, `count`
of them at most. A negative `count` never reaches zero. -/
def collect {β : Type} (c : Conf) (now : Msec) (z : Zone ν) (f : Addr → β) : List Addr → ℤ → List β
  | [], _ => []
  | a :: next, count =>
    if isExpired c now z a then collect c now z f next count
    else if count = 0 then []
    else f a :: collect c now z f next (count - 1)

/-- The loop of `clear()` in a zone without timeout. -/
def clearLoop (c : Conf) : List Addr → Zone ν → Zone ν
  | [], z => z
  | rn :: next, z => clearLoop c next (ngxJsDictNodeFree c (z.deleteTree rn) rn)

/-- The method `clear()`, the same in both engines. -/
def njsJsExtSharedDictClear (c : Conf) (z : Zone ν) : Zone ν :=
  markDirty c (if c.timeout ≠ 0 then (ngxJsDictEvict c 0x7fffffff z).1 else clearLoop c z.rbtree z)

end Njs.SharedDict
