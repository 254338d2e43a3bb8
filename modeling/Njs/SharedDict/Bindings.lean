import Njs.SharedDict.Ops

/-!
# The bindings of the shared dictionary

The methods that `ngx_js_ext_shared_dict[]` lists, as calls with the arguments that the script
passes (`nginx/ngx_js_shared_dict.c`, lines 700-1330). An omitted argument is `none`; a key is
already the byte string that `ngx_js_ngx_string` makes of it, and `this` is a shared
dictionary. The properties `capacity`, `name`, `type` and the method `freeSpace()`, which touch
neither tree, are left out.
-/

namespace Njs.SharedDict

variable {ν : Type}

/-- A method call; `set` stands for `set()`, `add()` and `replace()`, by its flags. -/
inductive Call (ν : Type)
  | get (key : Bytes)
  | has (key : Bytes)
  | ttl (key : Bytes)
  | keys (maxCount : Option (JsValue ν))
  | items (maxCount : Option (JsValue ν))
  | size
  | set (flags : SetFlags) (key : Bytes) (value : JsValue ν) (timeo : Option (JsValue ν))
  | incr (key : Bytes) (delta : JsValue ν) (init timeo : Option (JsValue ν))
  | delete (key : Bytes)
  | pop (key : Bytes)
  | clear

/-- What a method call returns or throws. -/
abbrev Outcome (ν : Type) : Type := Except JsError (JsValue ν)

/-- The `typeError` exception. -/
def throwTypeError {α : Type} (message : String) : Except JsError α :=
  .error (.typeError message)

def ngxJsInteger [Env ν] : JsValue ν → Except JsError ℤ
  | .number x =>
    if Env.isValid x then
      match Env.toInt x with
      | some n => .ok n
      | none => .error (.rangeError "number is out of range")
    else throwTypeError "invalid number"
  | _ => throwTypeError "invalid number"

/-- The `max_count` of `keys()` and `items()`. -/
def njsMaxCount [Env ν] : Option (JsValue ν) → Except JsError ℤ
  | none => .ok 1024
  | some v => ngxJsInteger v

/-- The timeout argument of `set()` and `incr()`; `default` is what an omitted one means. -/
def njsTimeout [Env ν] (c : Conf) (default : Msec) (timeo : Option (JsValue ν)) :
    Except JsError Msec :=
  match timeo.getD .undefined with
  | .undefined => .ok default
  | .number x =>
    if c.timeout = 0 then throwTypeError "shared dict must be declared with timeout"
    else if Env.toMsec x < 1 then
      throwTypeError "timeout must be greater than or equal to 1"
    else .ok (Env.toMsec x)
  | _ => throwTypeError "timeout is not a number"

/-- The check of the value argument of `set()`. -/
def njsCheckValue (c : Conf) : JsValue ν → Except JsError Unit
  | .string _ =>
    if c.type = .string then .ok () else throwTypeError "number value is expected"
  | .number _ =>
    if c.type = .string then throwTypeError "string value is expected" else .ok ()
  | _ =>
    if c.type = .string then throwTypeError "string value is expected"
    else throwTypeError "number value is expected"

def njsJsExtSharedDictGet (c : Conf) (now : Msec) (key : Bytes) (z : Zone ν) : Outcome ν :=
  .ok (ngxJsDictGet c key now z)

def njsJsExtSharedDictHas (c : Conf) (now : Msec) (key : Bytes) (z : Zone ν) : Outcome ν :=
  match ngxJsDictLookup z key with
  | none => .ok (.boolean false)
  | some a => .ok (.boolean (!isExpired c now z a))

def njsJsExtSharedDictTtl [Env ν] (c : Conf) (now : Msec) (key : Bytes) (z : Zone ν) : Outcome ν :=
  if c.timeout = 0 then throwTypeError "shared dict must be declared with timeout"
  else
    match ngxJsDictLookup z key with
    | none => .ok .undefined
    | some a =>
      if now < (z.node a).expire then
        .ok (.number (Env.ofInt ((z.node a).expire - now).toNat))
      else .ok .undefined

def njsJsExtSharedDictKeys [Env ν] (c : Conf) (now : Msec) (maxCount : Option (JsValue ν))
    (z : Zone ν) : Outcome ν :=
  (njsMaxCount maxCount).map fun count =>
    .keys (collect c now z (fun a => (z.node a).key) z.rbtree count)

def njsJsExtSharedDictItems [Env ν] (c : Conf) (now : Msec) (maxCount : Option (JsValue ν))
    (z : Zone ν) : Outcome ν :=
  (njsMaxCount maxCount).map fun count =>
    .items (collect c now z (fun a => ((z.node a).key, nodeValue c z a)) z.rbtree count)

/-- The number of nodes that have not expired, counted by `size()`. -/
def liveCount (c : Conf) (now : Msec) (z : Zone ν) : ℕ :=
  z.rbtree.countP fun a => !isExpired c now z a

def njsJsExtSharedDictSize [Env ν] (c : Conf) (now : Msec) (z : Zone ν) : Outcome ν :=
  .ok (.number (Env.ofInt (liveCount c now z)))

/-- The arguments of `set()`: the value is checked first. -/
def njsSetArgs [Env ν] (c : Conf) (value : JsValue ν) (timeo : Option (JsValue ν)) :
    Except JsError Msec :=
  match njsCheckValue c value with
  | .error e => .error e
  | .ok _ => njsTimeout c c.timeout timeo

def njsJsExtSharedDictSet [Env ν] (c : Conf) (now : Msec) (flags : SetFlags) (key : Bytes)
    (value : JsValue ν) (timeo : Option (JsValue ν)) (z : Zone ν) : Zone ν × Outcome ν :=
  match njsSetArgs c value timeo with
  | .error e => (z, .error e)
  | .ok timeout =>
    match ngxJsDictSet c key value timeout flags now z with
    | (z, .error) => (z, .error .sharedMemoryError)
    | (z, rc) => (z, .ok (if flags = .none then .this else .boolean (rc = .ok)))

/-- The initial value of `incr()`, zero when it is omitted. -/
def njsInit [Env ν] (init : Option (JsValue ν)) : Except JsError ν :=
  match init.getD .undefined with
  | .undefined => .ok Env.zero
  | .number x => .ok x
  | _ => throwTypeError "init value is not a number"

/-- The arguments of `incr()`: the delta, the initial value and the timeout. -/
def njsIncrArgs [Env ν] (c : Conf) (delta : JsValue ν) (init timeo : Option (JsValue ν)) :
    Except JsError (ν × ν × Msec) :=
  if c.type ≠ .number then throwTypeError "shared dict is not a number dict"
  else
    match delta with
    | .number delta =>
      match njsInit init, njsTimeout c 0 timeo with
      | .error e, _ => .error e
      | .ok _, .error e => .error e
      | .ok init, .ok timeout => .ok (delta, init, timeout)
    | _ => throwTypeError "delta is not a number"

def njsJsExtSharedDictIncr [Env ν] (c : Conf) (now : Msec) (key : Bytes) (delta : JsValue ν)
    (init timeo : Option (JsValue ν)) (z : Zone ν) : Zone ν × Outcome ν :=
  match njsIncrArgs c delta init timeo with
  | .error e => (z, .error e)
  | .ok (delta, init, timeout) =>
    match ngxJsDictIncr c key delta init timeout now z with
    | (z, .error, _) => (z, .error (.error "failed to increment value in shared dict"))
    | (z, _, value) => (z, .ok (.number value))

def njsJsExtSharedDictDelete (c : Conf) (now : Msec) (key : Bytes) (z : Zone ν) :
    Zone ν × Outcome ν :=
  let (z, rc, _) := ngxJsDictDelete c key false now z
  (z, .ok (.boolean (rc = .ok)))

/-- `njs_js_ext_shared_dict_pop`; the value is `undefined` when the deletion declines. -/
def njsJsExtSharedDictPop (c : Conf) (now : Msec) (key : Bytes) (z : Zone ν) : Zone ν × Outcome ν :=
  let (z, _, value) := ngxJsDictDelete c key true now z
  (z, .ok value)

def njsCall [Env ν] (c : Conf) (now : Msec) : Call ν → Zone ν → Zone ν × Outcome ν
  | .get key, z => (z, njsJsExtSharedDictGet c now key z)
  | .has key, z => (z, njsJsExtSharedDictHas c now key z)
  | .ttl key, z => (z, njsJsExtSharedDictTtl c now key z)
  | .keys maxCount, z => (z, njsJsExtSharedDictKeys c now maxCount z)
  | .items maxCount, z => (z, njsJsExtSharedDictItems c now maxCount z)
  | .size, z => (z, njsJsExtSharedDictSize c now z)
  | .set flags key value timeo, z => njsJsExtSharedDictSet c now flags key value timeo z
  | .incr key delta init timeo, z => njsJsExtSharedDictIncr c now key delta init timeo z
  | .delete key, z => njsJsExtSharedDictDelete c now key z
  | .pop key, z => njsJsExtSharedDictPop c now key z
  | .clear, z => (njsJsExtSharedDictClear c z, .ok .undefined)

end Njs.SharedDict

/-!
## The QuickJS binding of the shared dictionary

The methods that `ngx_qjs_ext_shared_dict[]` lists, with the copies of the dictionary functions
that this binding has of its own (`nginx/ngx_js_shared_dict.c`, lines 3280-4330). The functions
that it shares with the njs binding are those of `Njs.SharedDict.Ops`. Missing arguments are
padded with `undefined` up to the declared length of a method, so only `incr()` and the
counting methods see the number of arguments.

`JS_ToCStringLen` may have no memory for the copy of a value: its result is the argument
`cstring` of the functions that make one.
-/

namespace Njs.SharedDict

variable {ν : Type}

def ngxQjsDictLookup (z : Zone ν) (key : Bytes) : Option Addr :=
  z.rbtree.find? fun a => (z.node a).key = key

def ngxQjsDictCopyValueLocked (c : Conf) (z : Zone ν) (a : Addr) : JsValue ν :=
  match c.type with
  | .string => .string (z.buf (z.node a).str)
  | .number => .number (z.node a).number

/-- The conversion of a value before it is stored: `JS_ToCStringLen`, which fails when
`cstring` is false, or `JS_ToFloat64`. -/
def qjsToValue [Env ν] (c : Conf) (cstring : Bool) (v : JsValue ν) : Option (Value ν) :=
  match c.type with
  | .string =>
    match v with
    | .string s => if cstring then some (.str s) else none
    | _ => none
  | .number => (Env.jsToFloat64 v).map .number

def ngxQjsDictAdd [Env ν] (c : Conf) (cstring : Bool) (key : Bytes) (value : JsValue ν)
    (timeout now : Msec) (z : Zone ν) : Zone ν × Rc :=
  match qjsToValue c cstring value with
  | none => (z, .error)
  | some value => ngxJsDictAddValue c key value timeout now z

def ngxQjsDictUpdate [Env ν] (c : Conf) (cstring : Bool) (a : Addr) (value : JsValue ν)
    (timeout now : Msec) (z : Zone ν) : Zone ν × Rc :=
  let z := outOfExpire c a z
  match c.type with
  | .string =>
    match qjsToValue c cstring value with
    | none => (if c.timeout ≠ 0 then z.insertExpire a else z, .error)
    | some value =>
      match ngxJsDictAlloc c value.bytes.length z with
      | (z, none) => (if c.timeout ≠ 0 then z.insertExpire a else z, .error)
      | (z, some p) =>
        let z := (z.slabFree (z.node a).str).setBuf p value.bytes
        let z := z.setNode a { z.node a with str := p }
        (setExpire c a timeout now z, .ok)
  | .number =>
    match qjsToValue c cstring value with
    | none => (if c.timeout ≠ 0 then z.insertExpire a else z, .error)
    | some value =>
      let z := z.setNode a { z.node a with number := value.num }
      (setExpire c a timeout now z, .ok)

def ngxQjsDictDelete (c : Conf) (key : Bytes) (retval : Bool) (now : Msec) (z : Zone ν) :
    Zone ν × Outcome ν :=
  match ngxQjsDictLookup z key with
  | none => (z, .ok .undefined)
  | some a =>
    let z := (outOfExpire c a z).deleteTree a
    let ret : JsValue ν :=
      if retval then
        if c.timeout = 0 ∨ now < (z.node a).expire then ngxQjsDictCopyValueLocked c z a
        else .undefined
      else .boolean true
    (markDirty c (ngxJsDictNodeFree c z a), .ok ret)

def ngxQjsDictGet (c : Conf) (key : Bytes) (now : Msec) (z : Zone ν) : JsValue ν :=
  match ngxQjsDictLookup z key with
  | none => .undefined
  | some a => if isExpired c now z a then .undefined else ngxQjsDictCopyValueLocked c z a

def ngxQjsDictIncr [Env ν] (c : Conf) (cstring : Bool) (key : Bytes) (delta init : ν)
    (timeout now : Msec) (z : Zone ν) : Zone ν × Outcome ν :=
  match ngxQjsDictLookup z key with
  | none =>
    let value : JsValue ν := .number (Env.add init delta)
    let timeout := if timeout ≠ 0 then timeout else c.timeout
    match ngxQjsDictAdd c cstring key value timeout now z with
    | (z, .ok) => (markDirty c z, .ok value)
    | (z, _) => (z, .error .sharedMemoryError)
  | some a =>
    let value := Env.add (z.node a).number delta
    let z := z.setNode a { z.node a with number := value }
    let z :=
      if c.timeout ≠ 0 ∧ timeout ≠ 0 then setExpire c a timeout now (z.deleteExpire a) else z
    (markDirty c z, .ok (.number value))

def ngxQjsDictSet [Env ν] (c : Conf) (cstring : Bool) (key : Bytes) (value : JsValue ν)
    (timeout : Msec) (flags : SetFlags) (now : Msec) (z : Zone ν) : Zone ν × Outcome ν :=
  match ngxQjsDictLookup z key with
  | none =>
    if flags = .mustExist then (z, .ok (.boolean false))
    else
      match ngxQjsDictAdd c cstring key value timeout now z with
      | (z, .ok) => (markDirty c z, .ok (.boolean true))
      | (z, _) => (z, .error .sharedMemoryError)
  | some a =>
    if flags = .mustNotExist ∧ (c.timeout = 0 ∨ now < (z.node a).expire) then
      (z, .ok (.boolean false))
    else
      match ngxQjsDictUpdate c cstring a value timeout now z with
      | (z, .ok) => (markDirty c z, .ok (.boolean true))
      | (z, _) => (z, .error .sharedMemoryError)

/-! ### The methods -/

/-- The `max_count` of `keys()` and `items()`, a `uint32_t`. -/
def qjsMaxCount [Env ν] : Option (JsValue ν) → Except JsError UInt32
  | none => .ok 1024
  | some v => match Env.jsToUint32 v with
    | none => .error .exception
    | some n => .ok n

/-- The timeout of `set()`: a `uint32_t`, which also receives the timeout of the zone. -/
def qjsSetTimeout [Env ν] (c : Conf) (timeo : Option (JsValue ν)) : Except JsError UInt32 :=
  match timeo.getD .undefined with
  | .undefined => .ok c.timeout.toUInt32
  | .number x =>
    if c.timeout = 0 then throwTypeError "shared dict must be declared with timeout"
    else
      match Env.jsToUint32 (.number x) with
      | none => .error .exception
      | some timeout =>
        if timeout < 1 then throwTypeError "timeout must be greater than or equal to 1"
        else .ok timeout
  | _ => throwTypeError "timeout is not a number"

/-- The timeout of `incr()`. -/
def qjsIncrTimeout [Env ν] (c : Conf) : Option (JsValue ν) → Except JsError UInt32
  | none => .ok 0
  | some v =>
    match Env.jsToUint32 v with
    | none => .error .exception
    | some timeout =>
      if c.timeout = 0 then throwTypeError "shared dict must be declared with timeout"
      else if timeout < 1 then
        .error (.rangeError "timeout must be greater than or equal to 1")
      else .ok timeout

/-- The check of the value argument of `ngx_qjs_ext_shared_dict_set`. -/
def qjsCheckValue (c : Conf) : JsValue ν → Except JsError Unit
  | .string _ =>
    if c.type = .string then .ok () else throwTypeError "number value is expected"
  | .number _ =>
    if c.type = .string then throwTypeError "string value is expected" else .ok ()
  | _ =>
    if c.type = .string then throwTypeError "string value is expected"
    else throwTypeError "number value is expected"

def ngxQjsExtSharedDictGet (c : Conf) (now : Msec) (key : Bytes) (z : Zone ν) : Outcome ν :=
  .ok (ngxQjsDictGet c key now z)

def ngxQjsExtSharedDictHas (c : Conf) (now : Msec) (key : Bytes) (z : Zone ν) : Outcome ν :=
  match ngxQjsDictLookup z key with
  | none => .ok (.boolean false)
  | some a => .ok (.boolean (!isExpired c now z a))

def ngxQjsExtSharedDictTtl [Env ν] (c : Conf) (now : Msec) (key : Bytes) (z : Zone ν) : Outcome ν :=
  if c.timeout = 0 then throwTypeError "shared dict must be declared with timeout"
  else
    match ngxQjsDictLookup z key with
    | none => .ok .undefined
    | some a =>
      if now < (z.node a).expire then
        .ok (.number (Env.ofInt ((z.node a).expire - now).toNat))
      else .ok .undefined

def ngxQjsExtSharedDictKeys [Env ν] (c : Conf) (now : Msec) (maxCount : Option (JsValue ν))
    (z : Zone ν) : Outcome ν :=
  (qjsMaxCount maxCount).map fun count =>
    .keys (collect c now z (fun a => (z.node a).key) z.rbtree count.toNat)

def ngxQjsExtSharedDictItems [Env ν] (c : Conf) (now : Msec) (maxCount : Option (JsValue ν))
    (z : Zone ν) : Outcome ν :=
  (qjsMaxCount maxCount).map fun count =>
    .items (collect c now z (fun a => ((z.node a).key, nodeValue c z a)) z.rbtree count.toNat)

/-- `ngx_qjs_ext_shared_dict_size`: the count passes through the 32-bit integer of
`JS_NewInt32`. -/
def ngxQjsExtSharedDictSize [Env ν] (c : Conf) (now : Msec) (z : Zone ν) : Outcome ν :=
  .ok (.number (Env.ofInt (Int.bmod (liveCount c now z) (2 ^ 32))))

/-- The arguments of `set()`: the value is checked first. -/
def qjsSetArgs [Env ν] (c : Conf) (value : JsValue ν) (timeo : Option (JsValue ν)) :
    Except JsError UInt32 :=
  match qjsCheckValue c value with
  | .error e => .error e
  | .ok _ => qjsSetTimeout c timeo

def ngxQjsExtSharedDictSet [Env ν] (c : Conf) (cstring : Bool) (now : Msec) (flags : SetFlags)
    (key : Bytes) (value : JsValue ν) (timeo : Option (JsValue ν)) (z : Zone ν) :
    Zone ν × Outcome ν :=
  match qjsSetArgs c value timeo with
  | .error e => (z, .error e)
  | .ok timeout =>
    match ngxQjsDictSet c cstring key value timeout.toUInt64 flags now z with
    | (z, .error e) => (z, .error e)
    | (z, .ok ret) => (z, .ok (if flags = .none then .this else ret))

/-- The initial value of `incr()`, zero when it is omitted. -/
def qjsInit [Env ν] (init : Option (JsValue ν)) : Option ν :=
  match init.getD .undefined with
  | .undefined => some Env.zero
  | v => Env.jsToFloat64 v

/-- The arguments of `incr()`: the delta, the initial value and the timeout. -/
def qjsIncrArgs [Env ν] (c : Conf) (delta : JsValue ν) (init timeo : Option (JsValue ν)) :
    Except JsError (ν × ν × UInt32) :=
  if c.type ≠ .number then throwTypeError "shared dict is not a number dict"
  else
    match Env.jsToFloat64 delta with
    | none => .error .exception
    | some delta =>
      match qjsInit init, qjsIncrTimeout c timeo with
      | none, _ => .error .exception
      | some _, .error e => .error e
      | some init, .ok timeout => .ok (delta, init, timeout)

def ngxQjsExtSharedDictIncr [Env ν] (c : Conf) (cstring : Bool) (now : Msec) (key : Bytes)
    (delta : JsValue ν) (init timeo : Option (JsValue ν)) (z : Zone ν) : Zone ν × Outcome ν :=
  match qjsIncrArgs c delta init timeo with
  | .error e => (z, .error e)
  | .ok (delta, init, timeout) =>
    ngxQjsDictIncr c cstring key delta init timeout.toUInt64 now z

def ngxQjsExtSharedDictDelete (c : Conf) (now : Msec) (key : Bytes) (z : Zone ν) :
    Zone ν × Outcome ν :=
  ngxQjsDictDelete c key false now z

def ngxQjsExtSharedDictPop (c : Conf) (now : Msec) (key : Bytes) (z : Zone ν) :
    Zone ν × Outcome ν :=
  ngxQjsDictDelete c key true now z

/-- A method call through the QuickJS binding. -/
def qjsCall [Env ν] (c : Conf) (cstring : Bool) (now : Msec) : Call ν → Zone ν → Zone ν × Outcome ν
  | .get key, z => (z, ngxQjsExtSharedDictGet c now key z)
  | .has key, z => (z, ngxQjsExtSharedDictHas c now key z)
  | .ttl key, z => (z, ngxQjsExtSharedDictTtl c now key z)
  | .keys maxCount, z => (z, ngxQjsExtSharedDictKeys c now maxCount z)
  | .items maxCount, z => (z, ngxQjsExtSharedDictItems c now maxCount z)
  | .size, z => (z, ngxQjsExtSharedDictSize c now z)
  | .set flags key value timeo, z =>
    ngxQjsExtSharedDictSet c cstring now flags key value timeo z
  | .incr key delta init timeo, z =>
    ngxQjsExtSharedDictIncr c cstring now key delta init timeo z
  | .delete key, z => ngxQjsExtSharedDictDelete c now key z
  | .pop key, z => ngxQjsExtSharedDictPop c now key z
  | .clear, z => (njsJsExtSharedDictClear c z, .ok .undefined)

end Njs.SharedDict
