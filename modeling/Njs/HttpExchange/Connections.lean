import Njs.HttpExchange.Response
import Njs.Lib.Runs

/-!
# The connections of an exchange

`ngx_js_http_connect`, `ngx_js_http_next`, the handlers of the events of a connection and those of a
TLS handshake (`nginx/ngx_js_http.c`). An event is the answer of the system to a call, or what the
event loop reports; in the course of a handler only the answer to its call can come. A handshake
never ends in the call that begins it.
-/

namespace Njs.HttpExchange

open Text (lit)

/-! ### The state -/

/-- A connection, with what was sent and received on it. -/
structure Connection where
  /-- Whether `c->ssl` is set. -/
  ssl : Bool
  /-- Whether its handlers are those of a handshake. -/
  handshaking : Bool
  /-- Whether its write handler is `ngx_js_http_write_handler`. -/
  writing : Bool
  /-- Whether a request for a tunnel was made for it. -/
  tunnel : Bool
  sent : Bytes
  /-- What was read, apart from the answer to the request for a tunnel. -/
  reads : List Bytes

/-- The handler that is waiting for the answer to a call, or none. -/
inductive Point
  | waiting
  | writing
  | reading
  deriving DecidableEq

/-- The response that a script is given. -/
structure Response where
  code : ℕ
  statusText : Option Bytes
  headers : Fetch.Headers
  body : Bytes

/-- How far an exchange has got. -/
inductive Stage
  | connecting
  | connected (c : Connection) (point : Point)
  | failed (text : String)
  | delivered (c : Connection) (response : Response)

/-- The values of `proxy.state`. -/
inductive ProxyState
  | direct
  | connectPending
  | tunnelReady
  | originRequestSent
  deriving DecidableEq

/-- `ngx_js_http_t`. -/
structure Http where
  naddr : ℕ
  stage : Stage
  chain : Bytes
  buffer : Option Buf
  pending : Option Buf
  proxyState : ProxyState
  exchange : Exchange

/-- The state when the address of the server is known. -/
def Http.init (cfg : Config) : Http where
  naddr := 0
  stage := .connecting
  chain := cfg.request
  buffer := none
  pending := none
  proxyState := .direct
  exchange := Exchange.init cfg

def Exchange.response (x : Exchange) : Response := ⟨x.code, x.statusText, x.headers, x.chain⟩

/-! ### The events -/

/-- What becomes of a call for a connection: one of the cache, one that is open at once or later
on. -/
inductive Peer
  | error
  | declined
  | cached (ssl : Bool)
  | ok
  | again

/-- What `c->send` returns; no bytes stand for `NGX_AGAIN`. -/
inductive Sent
  | bytes (n : ℕ)
  | error

/-- What `c->recv` returns. -/
inductive Recv
  | data (d : Bytes)
  | again
  | error
  | eof

/-- The events. A handshake may end without success. -/
inductive Event
  | connect (peer : Peer)
  | write (sent : Sent)
  | recv (recv : Recv)
  | handshake (ok : Bool)
  | writeTimedout
  | readTimedout

/-! ### The handlers -/

def ngxJsHttpError (text : String) (s : Http) : Http := { s with stage := .failed text }

def ngxJsChainToBuf (chain : Bytes) : Buf := ⟨chain, 0, chain.length⟩

def ngxJsHttpBuildConnectRequest (cfg : Config) : Bytes :=
  let port := lit (":" ++ toString cfg.port)
  lit "CONNECT " ++ cfg.host ++ port ++ lit " HTTP/1.1\r\n" ++ lit "Host: " ++ cfg.host ++ port ++
    lit "\r\n" ++ cfg.auth ++ lit "\r\n"

def ngxJsHttpSslInitConnection (c : Connection) : Connection :=
  { c with ssl := true, handshaking := true }

/-- `ngx_js_http_next`, up to the call for another connection. -/
def ngxJsHttpNext (cfg : Config) (s : Http) : Http :=
  let s := { s with naddr := s.naddr + 1 }
  if cfg.naddrs ≤ s.naddr then ngxJsHttpError "connect failed" s
  else { s with stage := .connecting, buffer := none }

/-- `ngx_js_http_connect`, when there is a connection. -/
def attach (cfg : Config) (ssl : Bool) (point : Point) (s : Http) : Http :=
  let tunnel := cfg.proxy && cfg.ssl && !ssl
  let c : Connection :=
    { ssl, handshaking := false, writing := true, tunnel, sent := [], reads := [] }
  let s :=
    if tunnel then
      { s with
        pending := some (ngxJsChainToBuf s.chain)
        chain := ngxJsHttpBuildConnectRequest cfg
        proxyState := .connectPending
        exchange := { s.exchange with process := .connectResponse } }
    else
      { s with
        proxyState := if cfg.proxy && cfg.ssl && ssl then .tunnelReady else s.proxyState
        exchange := { s.exchange with process := .statusLine } }
  if cfg.ssl && !ssl && !cfg.proxy then
    { s with stage := .connected (ngxJsHttpSslInitConnection c) .waiting }
  else { s with stage := .connected c point }

/-- `ngx_js_http_connect`. The write handler is called when the connection is open. -/
def ngxJsHttpConnect (cfg : Config) (s : Http) : Peer → Http
  | .error => ngxJsHttpError "connect failed" s
  | .declined => ngxJsHttpNext cfg s
  | .cached ssl => attach cfg ssl .writing s
  | .ok => attach cfg false .writing s
  | .again => attach cfg false .waiting s

def ngxJsHttpWriteHandler (cfg : Config) (c : Connection) (s : Http) (sent : Sent) : Http :=
  if cfg.ssl && !c.ssl && !cfg.proxy then
    { s with stage := .connected (ngxJsHttpSslInitConnection c) .waiting }
  else
    let b := s.buffer.getD (ngxJsChainToBuf s.chain)
    match sent with
    | .error => ngxJsHttpNext cfg { s with buffer := some b }
    | .bytes n =>
      let n := min n b.rest.length
      let c := { c with sent := c.sent ++ b.rest.take n }
      if 0 < n ∧ n = b.rest.length then
        { s with buffer := none, stage := .connected { c with writing := false } .waiting }
      else
        { s with buffer := some { b with rest := b.rest.drop n }, stage := .connected c .waiting }

/-- The call of `process`. The chain of the request is destroyed at the end of the header. -/
def ngxJsHttpProcess (cfg : Config) (c : Connection) (s : Http) (b : Buf) :
    Except String (Rc × Connection × Http) :=
  match s.exchange.process with
  | .connectResponse =>
    match processConnectResponse s.exchange b with
    | .error e => .error e
    | .ok (.done, exchange, b) =>
      if !cfg.ssl then .error "proxy CONNECT: SSL not configured"
      else
        .ok (.ok, ngxJsHttpSslInitConnection c,
          { s with exchange := exchange.rewind, buffer := some b, proxyState := .tunnelReady })
    | .ok (rc, exchange, b) => .ok (rc, c, { s with exchange, buffer := some b })
  | _ =>
    match processResponse cfg s.exchange b with
    | .error e => .error e
    | .ok (rc, exchange, b) =>
      let chain := if exchange.process = .body then [] else s.chain
      .ok (rc, c, { s with exchange, buffer := some b, chain })

def Http.readBuffer (cfg : Config) (s : Http) : Buf :=
  s.buffer.getD (ngxCreateTempBuf cfg.bufferSize)

/-- The flag `done`. -/
def Exchange.setDone (x : Exchange) : Exchange := { x with done := true }

/-- `ngx_js_http_read_handler`, after its loop. -/
def readDone (cfg : Config) (c : Connection) (s : Http) : Http :=
  match ngxJsHttpProcess cfg c { s with exchange := s.exchange.setDone } (s.readBuffer cfg) with
  | .error e => ngxJsHttpError e s
  | .ok (.done, c, s) => { s with stage := .delivered c s.exchange.response }
  | .ok (.again, _, s) => ngxJsHttpError "prematurely closed connection" s
  | .ok (.ok, c, s) => { s with stage := .connected c .waiting }

/-- What is read is put behind the bytes of a buffer. -/
def Buf.receive (b : Buf) (d : Bytes) : Buf :=
  { b with rest := b.rest ++ d, room := b.room - d.length }

/-- `ngx_js_http_read_handler`, one round of its loop. There is nothing to read without room. -/
def ngxJsHttpReadHandler (cfg : Config) (c : Connection) (s : Http) (recv : Recv) : Http :=
  let b := s.readBuffer cfg
  match recv with
  | .again => { s with buffer := some b, stage := .connected c .waiting }
  | .error => ngxJsHttpNext cfg { s with buffer := some b }
  | .eof => readDone cfg c s
  | .data d =>
    let d := d.take b.room
    if d = [] then readDone cfg c s
    else
      let reads := if s.exchange.process = .connectResponse then c.reads else c.reads ++ [d]
      match ngxJsHttpProcess cfg { c with reads } s (b.receive d) with
      | .error e => ngxJsHttpError e s
      | .ok (.done, c, s) => readDone cfg c s
      | .ok (_, c, s) => { s with stage := .connected c .reading }

def ngxJsHttpSslHandshake (cfg : Config) (c : Connection) (s : Http) (ok : Bool) : Http :=
  if ok then
    let s :=
      if s.proxyState = .tunnelReady then
        { s with buffer := s.pending, pending := none, proxyState := .originRequestSent }
      else s
    { s with
      exchange := { s.exchange with process := .statusLine }
      stage := .connected { c with handshaking := false, writing := true } .writing }
  else ngxJsHttpNext cfg s

/-! ### Runs -/

def enabled (s : Http) (e : Event) : Bool :=
  match s.stage, e with
  | .connecting, .connect _ => true
  | .connected _ .writing, .write _ => true
  | .connected _ .reading, .recv _ => true
  | .connected c .waiting, .write _ => c.writing && !c.handshaking
  | .connected c .waiting, .writeTimedout => c.writing && !c.handshaking
  | .connected c .waiting, .recv _ => !c.handshaking
  | .connected c .waiting, .readTimedout => !c.handshaking
  | .connected c .waiting, .handshake _ => c.handshaking
  | _, _ => false

def handle (cfg : Config) (s : Http) (e : Event) : Http :=
  match s.stage, e with
  | .connecting, .connect peer => ngxJsHttpConnect cfg s peer
  | .connected c _, .write sent => ngxJsHttpWriteHandler cfg c s sent
  | .connected c _, .recv recv => ngxJsHttpReadHandler cfg c s recv
  | .connected c _, .handshake ok => ngxJsHttpSslHandshake cfg c s ok
  | .connected _ _, .writeTimedout => ngxJsHttpError "write timed out" s
  | .connected _ _, .readTimedout => ngxJsHttpError "read timed out" s
  | _, _ => s

def step (cfg : Config) (s : Http) (e : Event) : Http := if enabled s e then handle cfg s e else s

/-! ### What is claimed -/

def Connection.expected (cfg : Config) (c : Connection) : Bytes :=
  if c.tunnel then ngxJsHttpBuildConnectRequest cfg ++ cfg.request else cfg.request

/-- What the handlers hold that is not sent yet: the buffer that is being written or the chain it
will be made of, and what is kept for the time after the handshake. -/
def Http.unsent (s : Http) (c : Connection) : Bytes :=
  (if c.writing then s.buffer.elim s.chain Buf.rest else []) ++ s.pending.elim [] Buf.rest

/-- A response after one more read. -/
def received (cfg : Config) (r : Exchange × Buf) (d : Bytes) : Exchange × Buf :=
  match processResponse cfg r.1 (r.2.receive d) with
  | .ok (_, exchange, b) => (exchange, b)
  | .error _ => r

/-- A response after some reads, from the initial state on. -/
def parsed (cfg : Config) (reads : List Bytes) : Exchange × Buf :=
  reads.foldl (received cfg) (Exchange.init cfg, ngxCreateTempBuf cfg.bufferSize)

def Delivers (cfg : Config) (reads : List Bytes) (response : Response) : Prop :=
  ∃ exchange b, processResponse cfg (parsed cfg reads).1.setDone (parsed cfg reads).2 =
      .ok (.done, exchange, b) ∧ exchange.response = response

/-- The complete request is what is sent on a connection, and a response that is delivered was made
of the bytes that were received on its connection, after the complete request was sent there. -/
def StartsAfresh (cfg : Config) (s : Http) : Prop :=
  match s.stage with
  | .connected c _ => c.sent ++ s.unsent c = c.expected cfg
  | .delivered c response => c.sent = c.expected cfg ∧ Delivers cfg c.reads response
  | _ => True

/-- The condition on a connection that fails: no address is left, or nothing was received on it and
no tunnel was asked for. -/
def mayFail (cfg : Config) (s : Http) (c : Connection) : Bool :=
  cfg.naddrs ≤ s.naddr + 1 || (!c.tunnel && c.reads.isEmpty)

/-- The condition on a step: a connection fails when it may, and it is read from when the request
was written and no handshake is going on. -/
def orderly (cfg : Config) (s : Http) (e : Event) : Bool :=
  !enabled s e ||
    match s.stage, e with
    | .connected c _, .write .error => mayFail cfg s c
    | .connected c _, .handshake false => mayFail cfg s c
    | .connected c _, .recv .error => mayFail cfg s c
    | .connected c _, .recv .again => !c.writing || s.buffer.isSome
    | .connected c _, .recv .eof =>
      (!c.writing && !c.handshaking) || (s.readBuffer cfg).rest.isEmpty
    | .connected c _, .recv (.data _) => !c.writing && !c.handshaking
    | _, _ => true

end Njs.HttpExchange
