import Njs.Fetch.Headers
import Njs.Lib.HttpRequest

/-!
# Requests

`ngx_js_request_constructor` and `ngx_js_ext_fetch` of `ngx_js_fetch.c` and the same of
`ngx_qjs_fetch.c`, up to the bytes that `ngx_js_fetch_build_request` makes of a request.

`ngx_parse_url` is left to `ParseUrl`. Values are given as the strings that they are converted to.
-/

namespace Njs.Fetch

open Text Decimal
open Http (crlf)

/-! ### URLs and methods -/

/-- What `ngx_parse_url` gives. -/
structure Url where
  host : Bytes
  port : ℕ
  noPort : Bool
  uri : Bytes
  deriving DecidableEq

/-- `ngx_parse_url`, of a URL without its schema and of a default port. -/
abbrev ParseUrl : Type := Bytes → ℕ → Option Url

/-- `NGX_JS_HTTP_DEFAULT_PORT`. -/
def httpDefaultPort : ℕ := 80

/-- `NGX_JS_HTTPS_DEFAULT_PORT`. -/
def httpsDefaultPort : ℕ := 443

/-- `NGX_JS_HOST_MAX_LEN`. -/
def hostMaxLen : ℕ := 256

def ngxJsHttpWhitespace (c : UInt8) : Bool := c = 0x09 || c = 0x0a || c = 0x0d || c = 0x20

def ngxJsHttpTrim (value : Bytes) (trimC0ControlOrSpace : Bool) : Bytes :=
  let trimmed := fun c => ngxJsHttpWhitespace c || trimC0ControlOrSpace && c ≤ chr ' '
  (value.dropWhile trimmed).rdropWhile trimmed

def ngxJsCheckRequestLineComponent (value : Bytes) : Bool :=
  value.all fun p => !(p ≤ 0x20 || p = 0x7f)

def splitSchema (url : Bytes) : Option (Bytes × ℕ) :=
  if 7 < url.length ∧ strncaseeq (url.take 7) (lit "http://") = true then
    some (url.drop 7, httpDefaultPort)
  else if 8 < url.length ∧ strncaseeq (url.take 8) (lit "https://") = true then
    some (url.drop 8, httpsDefaultPort)
  else none

def forbidden : List String := ["CONNECT", "TRACE", "TRACK"]

def toNormalize : List String := ["DELETE", "GET", "HEAD", "OPTIONS", "POST", "PUT"]

def ngxJsMethodProcess (method : Bytes) : Except String Bytes :=
  if method = [] ∨ ngxJsCheckRequestLineComponent method = false then
    .error "invalid Request method"
  else
    match forbidden.find? fun m => sameName method (lit m) with
    | some m => .error ("forbidden method: " ++ m)
    | none => .ok (((toNormalize.find? fun m => sameName method (lit m)).map lit).getD method)

/-! ### Flags -/

/-- `ngx_js_fetch_cache_modes`. -/
def cacheModes : List String :=
  ["default", "no-store", "reload", "no-cache", "force-cache", "only-if-cached"]

/-- `ngx_js_fetch_credentials`. -/
def credentialModes : List String := ["same-origin", "omit", "include"]

/-- `ngx_js_fetch_modes`. -/
def fetchModes : List String := ["no-cors", "cors", "same-origin", "navigate", "websocket"]

/-- `ngx_fetch_flag_set`, `ngx_qjs_fetch_flag_set`. -/
def ngxFetchFlagSet (entries : List String) (type : String) (flag : Bytes) : Except String String :=
  match entries.find? fun name => sameName flag (lit name) with
  | some name => .ok name
  | none =>
    .error ("unknown " ++ type ++ " type: " ++ String.ofList (flag.map fun c => .ofNat c.toNat))

/-! ### The constructor -/

/-- The fields of `ngx_js_request_t`, without its headers. -/
structure Request where
  url : Bytes
  method : Bytes := lit "GET"
  cacheMode : String := "default"
  credentials : String := "same-origin"
  mode : String := "no-cors"
  body : Bytes := []
  deriving DecidableEq

/-- The first argument of the constructor. -/
inductive Input
  | undefined
  | string (url : Bytes)
  | request (this : ℕ)
  | other

/-- The second argument, if it is an object: its properties, if there are. -/
structure RequestInit where
  method : Option Bytes := none
  cache : Option Bytes := none
  credentials : Option Bytes := none
  mode : Option Bytes := none
  /-- `some none` is no object. -/
  headers : Option (Option Init) := none
  /-- The body, and whether the value is a string. -/
  body : Option (Bytes × Bool) := none
  /-- A property that only `fetch` reads. -/
  verify : Option Bool := none

/-- Headers objects and Request objects; these have the numbers of their headers. -/
structure Script where
  world : World := {}
  requests : List (Request × ℕ) := []

def constructInput (s : Script) : Input → Except String (Request × Headers)
  | .undefined => .error "1st argument is required"
  | .string url => .ok ({ url := url }, { guard := .request })
  | .other => .error "input is not string or a Request object"
  | .request this =>
    match s.requests[this]? with
    | none => .error "input is not string or a Request object"
    | some orig => (inheritOrig s.world.objects (some orig.2)).map fun headers => (orig.1, headers)

/-- An optional flag. In QuickJS the first one is the default also if there is another request. -/
def setFlag (kind : Kind) (entries : List String) (type : String) (orig : String)
    (flag : Option Bytes) : Except String String :=
  match flag, kind with
  | some flag, _ => ngxFetchFlagSet entries type flag
  | none, .njs => .ok orig
  | none, .quickJs => .ok (entries.headD orig)

def setHeaders (objects : List Headers) (headers : Headers) :
    Option (Option Init) → Except String Headers
  | some none => .error "Headers is not an object"
  | some (some init) => fillInit objects headers (some init)
  | none => fillInit objects headers none

/-- What the second argument changes. -/
def constructInit (kind : Kind) (objects : List Headers) (request : Request) (headers : Headers)
    (init : RequestInit) : Except String (Request × Headers) := do
  let method ← ngxJsMethodProcess (init.method.getD request.method)
  let cacheMode ← setFlag kind cacheModes "cache" request.cacheMode init.cache
  let credentials ←
    setFlag kind credentialModes "credentials" request.credentials init.credentials
  let mode ← setFlag kind fetchModes "mode" request.mode init.mode
  let headers ← setHeaders objects headers init.headers
  let headers ← appendContentType headers (init.body.any Prod.snd)
  return (⟨request.url, method, cacheMode, credentials, mode, (init.body.map Prod.fst).getD
    request.body⟩, headers)

/-- `ngx_js_request_constructor`, `ngx_qjs_request_ctor`: what the URL is split into with its
default
port, the request, and its headers. -/
def ngxJsRequestConstructor (kind : Kind) (parseUrl : ParseUrl) (s : Script) (input : Input)
    (init : Option RequestInit) : Except String ((Url × ℕ) × Request × Headers) := do
  let (request, headers) ← constructInput s input
  let request := { request with url := ngxJsHttpTrim request.url true }
  match splitSchema request.url with
  | none => .error "unsupported URL schema (only http or https are supported)"
  | some (url, defaultPort) =>
    match parseUrl url defaultPort with
    | none => .error "invalid url"
    | some u =>
      let r ← init.elim (.ok (request, headers)) (constructInit kind s.world.objects request
        headers)
      return ((u, defaultPort), r)

/-! ### The bytes of a request -/

/-- What `ngx_encode_base64` writes. -/
structure Credentials where
  text : Bytes
  ne : text ≠ []
  base64 : text.all (fun c => chr '0' ≤ c && c ≤ chr '9' || chr 'A' ≤ c && c ≤ chr 'Z' ||
    chr 'a' ≤ c && c ≤ chr 'z' || c ∈ lit "+/=") = true

def appendField (name value : Bytes) : Bytes := name ++ lit ": " ++ value ++ crlf

/-- The header that `ngx_js_build_proxy_auth_header` makes; nothing without credentials. -/
def ngxJsBuildProxyAuthHeader : Option Credentials → Bytes
  | none => []
  | some b64 => appendField (lit "Proxy-Authorization") (lit "Basic " ++ b64.text)

/-- The elements that `ngx_js_fetch_append_request_headers` passes over. -/
def isSkipped (isProxy : Bool) (h : Elt) : Bool :=
  h.hash = false || sameName h.key (lit "Host") || sameName h.key (lit "Content-Length") ||
    sameName h.key (lit "Connection") || isProxy && sameName h.key (lit "Proxy-Authorization")

def ngxJsFetchAppendRequestHeaders (list : List Elt) (isProxy : Bool) : Bytes :=
  (list.filter fun h => !isSkipped isProxy h).flatMap fun h => appendField h.key h.value

/-- A round of the loop of `ngx_js_fetch_build_request`. -/
def appendKnown (h : Elt) : Bytes :=
  if h.hash = false then []
  else if sameName h.key (lit "Host") = true then appendField (lit "Host") h.value
  else if sameName h.key (lit "User-Agent") = true then appendField (lit "User-Agent") h.value
  else []

/-- The port of a URL or a field, after a colon. -/
def appendPort (port : ℕ) : Bytes := chr ':' :: (Numeral.ofNat port).text

/-- What the client makes a request with: the host and the port of the URL, its default port,
whether the connection is kept, and the credentials for a proxy. -/
structure NgxJsHttp where
  u : Url
  defaultPort : ℕ
  keepalive : Bool
  proxyAuth : Option Credentials

def ngxJsFetchBuildRequest (http : NgxJsHttp) (request : Request) (list : List Elt) (path : Bytes)
    (isProxy : Bool) : Bytes :=
  let u := http.u
  let hasHost := list.any fun h => h.hash && sameName h.key (lit "Host")
  let hasUserAgent := list.any fun h =>
    h.hash && !sameName h.key (lit "Host") && sameName h.key (lit "User-Agent")
  request.method ++ lit " " ++
  (if isProxy then
    lit "http://" ++ u.host ++ if u.port ≠ http.defaultPort then appendPort u.port else []
  else []) ++
  (if path.head? ≠ some (chr '/') then lit "/" else []) ++ path ++ lit " HTTP/1.1" ++ crlf ++
  list.flatMap appendKnown ++
  (if hasHost then []
  else appendField (lit "Host") (u.host ++ if u.noPort then [] else appendPort u.port)) ++
  (if hasUserAgent then [] else appendField (lit "User-Agent") (lit "nginx-js")) ++
  (if isProxy then ngxJsBuildProxyAuthHeader http.proxyAuth else []) ++
  ngxJsFetchAppendRequestHeaders list isProxy ++
  (if http.keepalive then [] else appendField (lit "Connection") (lit "close")) ++
  if request.body ≠ [] then
    appendField (lit "Content-Length") (Numeral.ofNat request.body.length).text ++ crlf ++
      request.body
  else if sameName request.method (lit "POST") || sameName request.method (lit "PUT") then
    appendField (lit "Content-Length") (lit "0") ++ crlf
  else crlf

/-! ### Calls -/

/-- The proxy that a configuration gives. -/
inductive Proxy
  | none
  /-- Its URL cannot be evaluated. -/
  | failed
  | url (auth : Option Credentials)

/-- What `fetch` reads of the configuration. -/
structure Conf where
  /-- Connections are kept, and the URL of the proxy is not evaluated. -/
  keepalive : Bool
  /-- There is a context for TLS. -/
  ssl : Bool
  sslVerify : Bool
  proxy : Proxy

/-- Requests go to a proxy as they are: one without TLS. -/
def Conf.isProxy (conf : Conf) (defaultPort : ℕ) : Bool :=
  match conf.proxy with
  | .url _ => defaultPort ≠ httpsDefaultPort
  | _ => false

def Conf.proxyAuth (conf : Conf) : Option Credentials :=
  match conf.proxy with
  | .url auth => auth
  | _ => Option.none

/-- The connection is kept. -/
def Conf.keeps (conf : Conf) (defaultPort : ℕ) (init : Option RequestInit) : Bool :=
  conf.keepalive && !(defaultPort = httpsDefaultPort && conf.ssl &&
    !((init.bind RequestInit.verify).getD conf.sslVerify))

/-- `ngx_js_ext_fetch`, `ngx_qjs_ext_fetch`: the bytes of the request. -/
def ngxJsExtFetch (kind : Kind) (parseUrl : ParseUrl) (conf : Conf) (s : Script) (input : Input)
    (init : Option RequestInit) : Except String Bytes := do
  let ((u, defaultPort), request, headers) ← ngxJsRequestConstructor kind parseUrl s input init
  if u.host.length ≥ hostMaxLen then .error "Host name too long"
  else if conf.proxy matches .failed then .error "failed to evaluate proxy URL"
  else if ngxJsCheckRequestLineComponent u.uri = false then .error "invalid url"
  else
    .ok (ngxJsFetchBuildRequest ⟨u, defaultPort, conf.keeps defaultPort init, conf.proxyAuth⟩
      request headers.list u.uri (conf.isProxy defaultPort))

/-- What a script does before a call. -/
inductive Act
  | headers (op : Op)
  | newRequest (input : Input) (init : Option RequestInit)

def Script.step (e : Engine) (parseUrl : ParseUrl) (s : Script) : Act → Script
  | .headers op => { s with world := (Fetch.step e s.world op).1 }
  | .newRequest input init =>
    match ngxJsRequestConstructor e.kind parseUrl s input init with
    | .error _ => s
    | .ok (_, request, headers) =>
      { world := { s.world with objects := s.world.objects ++ [headers] }
        requests := s.requests ++ [(request, s.world.objects.length)] }

def Script.run (e : Engine) (parseUrl : ParseUrl) (acts : List Act) : Script :=
  acts.foldl (Script.step e parseUrl) {}

end Njs.Fetch
