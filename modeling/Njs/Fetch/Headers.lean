import Mathlib.Data.List.DropRight
import Njs.Lib.Decimal
import Njs.Lib.Text

/-!
# Headers objects

`Headers` of `ngx_js_fetch.c` and `ngx_qjs_fetch.c`: a list of elements, some of which are dead, and
through it the chains of the elements of one name. The parts of an `ngx_list_t` are one list here,
and a pointer to an element is its index.

What the engines make of strings, numbers and prototypes is left to `Engine`; memory is not limited.
-/

namespace Njs.Fetch

open Text Decimal

/-! ### Names and values -/

/-- The case folding of `ngx_strncasecmp`. -/
def lower (c : UInt8) : UInt8 := if chr 'A' ≤ c ∧ c ≤ chr 'Z' then c ||| 0x20 else c

/-- `ngx_strncasecmp` gives 0; it stops at a null byte. -/
def strncaseeq : Bytes → Bytes → Bool
  | c₁ :: s₁, c₂ :: s₂ => lower c₁ = lower c₂ && (lower c₁ = 0 || strncaseeq s₁ s₂)
  | _, _ => true

/-- The comparison of names. -/
def sameName (s₁ s₂ : Bytes) : Bool := s₁.length = s₂.length && strncaseeq s₁ s₂

/-- The characters that `ngx_js_http_trim_ows` trims. -/
def isOws (c : UInt8) : Bool := c = chr ' ' || c = chr '\t'

def ngxJsHttpTrimOws (value : Bytes) : Bytes := (value.dropWhile isOws).rdropWhile isOws

def tokenMap : List UInt32 :=
  [0x00000000, 0x03ff6cfa, 0xc7fffffe, 0x57ffffff, 0x00000000, 0x00000000, 0x00000000, 0x00000000]

def ngxIsToken (byte : UInt8) : Bool :=
  (tokenMap.getD (byte >>> 5).toNat 0) &&& ((1 : UInt32) <<< (byte &&& 0x1f).toUInt32) ≠ 0

def ngxJsCheckHeaderName (name : Bytes) : Bool := name.all ngxIsToken

def ngxJsCheckHeaderValue (value : Bytes) : Bool :=
  value.all fun p => !(p ≤ 0x08 || 0x0a ≤ p && p ≤ 0x1f || p = 0x7f)

/-! ### Lists of elements -/

/-- The fields of `ngx_js_tb_elt_t`. -/
structure Elt where
  /-- Whether `hash` is not zero. -/
  hash : Bool
  key : Bytes
  value : Bytes
  next : Option ℕ
  deriving DecidableEq

/-- Who made the headers. -/
inductive Guard
  | none
  | request
  | immutable
  | response
  deriving DecidableEq

/-- The fields of `ngx_js_headers_t`. -/
structure Headers where
  guard : Guard
  list : List Elt := []
  contentType : Option ℕ := Option.none
  deriving DecidableEq

/-- The first live element of a name. -/
def findElt (list : List Elt) (name : Bytes) : Option ℕ :=
  list.findIdx? fun h => h.hash && sameName name h.key

/-- The elements of a chain, from one on; links lead to later elements. -/
def chain (list : List Elt) : ℕ → ℕ → List ℕ
  | 0, _ => []
  | fuel + 1, i =>
    match list[i]? with
    | none => []
    | some h =>
      match h.next with
      | none => [i]
      | some j => i :: chain list fuel j

def chainOf (list : List Elt) (name : Bytes) : List ℕ :=
  match findElt list name with
  | none => []
  | some i => chain list list.length i

/-- The link of an element. -/
def setNext (next : Option ℕ) (list : List Elt) (i : ℕ) : List Elt :=
  list.modify i fun h => { h with next := next }

/-- `ngx_js_headers_append`, `ngx_qjs_headers_append`. -/
def ngxJsHeadersAppend (headers : Headers) (name value : Bytes) : Except String Headers :=
  let value := ngxJsHttpTrimOws value
  if ngxJsCheckHeaderName name = false then .error "invalid header name"
  else if ngxJsCheckHeaderValue value = false then .error "invalid header value"
  else if headers.guard = .immutable then .error "cannot append to immutable object"
  else
    let h := headers.list.length
    let list :=
      match (chainOf headers.list name).getLast? with
      | none => headers.list
      | some i => setNext (some h) headers.list i
    .ok {
      headers with
      list := list ++ [⟨true, name, value, none⟩]
      contentType :=
        if sameName name (lit "Content-Type") then some h else headers.contentType }

/-- `ngx_headers_js_get` as an array. -/
def ngxHeadersJsGetAll (headers : Headers) (name : Bytes) : List Bytes :=
  (chainOf headers.list name).filterMap fun i => headers.list[i]?.map Elt.value

def ngxHeadersJsGet (headers : Headers) (name : Bytes) : Option Bytes :=
  match ngxHeadersJsGetAll headers name with
  | [] => none
  | value :: values => some ((lit ", ").intercalate (value :: values))

def ngxHeadersJsExtDelete (headers : Headers) (name : Bytes) : Headers :=
  { headers with
    list := headers.list.map fun h =>
      if h.hash && sameName name h.key then { h with hash := false } else h
    contentType := if sameName name (lit "Content-Type") then none else headers.contentType }

/-- The array of names that `ngx_headers_js_ext_keys` fills: each has no earlier one that is the
same. -/
def pushKey (keys : List Bytes) (h : Elt) : List Bytes :=
  if h.hash = false || keys.any (fun hdr => sameName h.key hdr) then keys else keys ++ [h.key]

/-- A round of `ngx_js_sort`: greater elements are moved to the right. -/
def sortRound (sorted : List Bytes) (p : Bytes) : List Bytes :=
  sorted.rdropWhile (fun q => p < q) ++ p :: sorted.rtakeWhile (fun q => p < q)

def ngxJsSort (keys : List Bytes) : List Bytes := keys.foldl sortRound []

def ngxHeadersJsExtKeys (headers : Headers) : List Bytes :=
  ngxJsSort (headers.list.foldl pushKey [])

def ngxQjsHeadersExtKeys (headers : Headers) : List Bytes :=
  (headers.list.foldl pushKey []).mergeSort (· ≤ ·)

/-- `ngx_js_headers_inherit`, `ngx_qjs_headers_inherit`. -/
def ngxJsHeadersInherit (headers orig : Headers) : Except String Headers :=
  (orig.list.filter Elt.hash).foldlM (fun headers h => ngxJsHeadersAppend headers h.key h.value)
    headers

/-! ### Calls -/

/-- The engine of a script. -/
inductive Kind
  | njs
  | quickJs
  deriving DecidableEq

/-- What is asked of an engine. -/
structure Engine where
  kind : Kind
  /-- Headers objects have a property of the name by their prototypes. -/
  inherited : Bytes → Bool
  /-- What is at the place of a string after `JS_FreeCString`. -/
  freed : Bytes → Bytes

def arrayIndex (name : Bytes) : Option ℕ :=
  let n := name.foldl (fun n c => 10 * n + (c - chr '0').toNat) 0
  if name = (Numeral.ofNat n).text ∧ n < 0xffffffff then some n else none

/-- The names of the properties of an object in QuickJS, in the order of `JS_GetOwnPropertyNames`;
they have been defined in the order of the list. -/
def jsGetOwnPropertyNames (names : List Bytes) : List Bytes :=
  let names := names.reverse.dedup.reverse
  (names.filter fun name => (arrayIndex name).isSome).mergeSort
      (fun a b => (arrayIndex a).getD 0 ≤ (arrayIndex b).getD 0) ++
    names.filter fun name => !(arrayIndex name).isSome

def ngxQjsFetchHeadersOwnPropertyNames (headers : Headers) : List Bytes :=
  jsGetOwnPropertyNames ((headers.list.filter Elt.hash).map Elt.key)

/-- `ngx_headers_js_ext_set`, `ngx_qjs_ext_fetch_headers_set`. In QuickJS a new element keeps a
string that is freed. -/
def ngxHeadersJsExtSet (e : Engine) (headers : Headers) (name value : Bytes) :
    Except String Headers :=
  match findElt headers.list name with
  | some i =>
    let list := headers.list.modify i fun h => { h with value := value }
    .ok { headers with list := (chain list list.length i).foldl (setNext none) list }
  | none =>
    match e.kind with
    | .njs => ngxJsHeadersAppend headers name value
    | .quickJs =>
      (ngxJsHeadersAppend headers name value).map fun headers =>
        { headers with
          list := headers.list.modifyLast fun h => { h with key := e.freed name } }

/-- The first argument of a constructor of headers: Headers, an array of arrays, or an object with
its members. -/
inductive Init
  | headers (this : ℕ)
  | array (rows : List (List Bytes))
  | object (members : List (Bytes × Bytes))

/-- A step of the loop of `ngx_js_headers_fill` over an array. -/
def fillRow (headers : Headers) : List Bytes → Except String Headers
  | [name, header] => ngxJsHeadersAppend headers name header
  | _ => .error "header does not contain exactly two items"

/-- `ngx_js_headers_fill`, `ngx_qjs_headers_fill`. -/
def ngxJsHeadersFill (objects : List Headers) (headers : Headers) : Init → Except String Headers
  | .headers this =>
    match objects[this]? with
    | none => .ok headers
    | some orig => ngxJsHeadersInherit headers orig
  | .array rows => rows.foldlM fillRow headers
  | .object members => members.foldlM (fun headers m => ngxJsHeadersAppend headers m.1 m.2) headers

/-- The headers that `ngx_js_request_constructor` begins with: those of the request that it is
given. -/
def inheritOrig (objects : List Headers) (orig : Option ℕ) : Except String Headers :=
  (orig.bind fun this => objects[this]?).elim (.ok { guard := .request })
    (ngxJsHeadersInherit { guard := .request })

/-- The headers that it is given as such come in their place. -/
def fillInit (objects : List Headers) (request : Headers) (init : Option Init) :
    Except String Headers :=
  init.elim (.ok request) (ngxJsHeadersFill objects { guard := .request })

def appendContentType (request : Headers) (stringBody : Bool) : Except String Headers :=
  if request.contentType = none && stringBody then
    ngxJsHeadersAppend request (lit "Content-Type") (lit "text/plain;charset=UTF-8")
  else .ok request

def requestHeaders (objects : List Headers) (orig : Option ℕ) (init : Option Init)
    (stringBody : Bool) : Except String Headers :=
  (inheritOrig objects orig).bind fun request =>
  (fillInit objects request init).bind fun request =>
    appendContentType request stringBody

/-- The headers of a response; they are made immutable after the last of them. -/
def fetchedHeaders (lines : List (Bytes × Bytes)) : Except String Headers :=
  (lines.foldlM (fun headers l => ngxJsHeadersAppend headers l.1 l.2) { guard := .none }).map
    fun headers => { headers with guard := .immutable }

/-- Calls on a Headers object. -/
inductive Call
  | append (name value : Bytes)
  | set (name value : Bytes)
  | delete (name : Bytes)
  | get (name : Bytes)
  | getAll (name : Bytes)
  | has (name : Bytes)
  /-- The read of a property. -/
  | prop (name : Bytes)
  /-- The enumeration of the names of properties. -/
  | keys
  /-- The beginning of `forEach`. -/
  | forEach

/-- What a script does with Headers objects, which are given by their numbers. -/
inductive Op
  | newHeaders (init : Option Init)
  | newRequest (orig : Option ℕ) (init : Option Init) (stringBody : Bool)
  | fetched (lines : List (Bytes × Bytes))
  | call (this : ℕ) (c : Call)
  /-- The next call of the callback of the last `forEach` that has not ended, or its end. -/
  | next

/-- What a call returns. -/
inductive Result
  | undefined
  | null
  | boolean (b : Bool)
  | string (s : Bytes)
  | strings (l : List Bytes)
  | object
  /-- A property of a prototype. -/
  | inherited
  | callback (name : Bytes) (header : Option Bytes)
  | typeError (msg : String)
  /-- `NJS_ERROR` without an exception. -/
  | error
  | noObject
  deriving DecidableEq

/-- All Headers objects, and the names that are left to calls of `forEach`. -/
structure World where
  objects : List Headers := []
  loops : List (ℕ × List Bytes) := []

/-- A new object, or the error of its constructor. -/
def World.construct (w : World) : Except String Headers → World × Result
  | .ok headers => ({ w with objects := w.objects ++ [headers] }, .object)
  | .error msg => (w, .typeError msg)

/-- A change of an object, or an error. -/
def World.update (w : World) (this : ℕ) : Except String Headers → World × Result
  | .ok headers => ({ w with objects := w.objects.set this headers }, .undefined)
  | .error msg => (w, .typeError msg)

/-- The result of a call that gives a string or nothing. -/
def ofOption (default : Result) : Option Bytes → Result
  | none => default
  | some s => .string s

/-- The read of a property: `ngx_headers_js_ext_prop`, `ngx_qjs_fetch_headers_own_property`. -/
def readProp (e : Engine) (headers : Headers) (name : Bytes) : Result :=
  match e.kind with
  | .njs =>
    if e.inherited name then .inherited else ofOption .undefined (ngxHeadersJsGet headers name)
  | .quickJs =>
    ofOption (if e.inherited name then .inherited else .undefined)
      (ngxHeadersJsGet headers (name.takeWhile (· ≠ 0)))

/-- The next round of the loop of `forEach`. -/
def nextRound (e : Engine) (w : World) : World × Result :=
  match w.loops with
  | [] => (w, .undefined)
  | (_, []) :: loops => ({ w with loops := loops }, .undefined)
  | (this, name :: names) :: loops =>
    match w.objects[this]? with
    | none => (w, .noObject)
    | some headers =>
      match e.kind, ngxHeadersJsGet headers name with
      | .njs, none => ({ w with loops := loops }, .error)
      | _, header => ({ w with loops := (this, names) :: loops }, .callback name header)

def call (e : Engine) (w : World) (this : ℕ) (headers : Headers) : Call → World × Result
  | .append name value => w.update this (ngxJsHeadersAppend headers name value)
  | .set name value => w.update this (ngxHeadersJsExtSet e headers name value)
  | .delete name => w.update this (.ok (ngxHeadersJsExtDelete headers name))
  | .get name => (w, ofOption .null (ngxHeadersJsGet headers name))
  | .getAll name => (w, .strings (ngxHeadersJsGetAll headers name))
  | .has name => (w, .boolean (ngxHeadersJsGet headers name).isSome)
  | .prop name => (w, readProp e headers name)
  | .keys =>
    match e.kind with
    | .njs => (w, .strings (ngxHeadersJsExtKeys headers))
    | .quickJs => (w, .strings (ngxQjsFetchHeadersOwnPropertyNames headers))
  | .forEach =>
    let names :=
      match e.kind with
      | .njs => ngxHeadersJsExtKeys headers
      | .quickJs => ngxQjsHeadersExtKeys headers
    ({ w with loops := (this, names) :: w.loops }, .undefined)

/-- What a script does. -/
def step (e : Engine) (w : World) : Op → World × Result
  | .newHeaders init =>
    w.construct (init.elim (.ok { guard := .none }) (ngxJsHeadersFill w.objects { guard := .none }))
  | .newRequest orig init stringBody =>
    w.construct (requestHeaders w.objects orig init stringBody)
  | .fetched lines => w.construct (fetchedHeaders lines)
  | .call this c =>
    match w.objects[this]? with
    | none => (w, .noObject)
    | some headers => call e w this headers c
  | .next => nextRound e w

end Njs.Fetch
