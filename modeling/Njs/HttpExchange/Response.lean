import Njs.Fetch.Headers
import Njs.HttpClient.Chunked
import Njs.HttpClient.HeaderLine

/-!
# The response of an exchange

What `ngx_js_http_process_status_line`, `ngx_js_http_process_headers` and
`ngx_js_http_process_body` (`nginx/ngx_js_http.c`) make of the bytes that are received. The two
parsers of lines share one state, which is a number; their pointers are offsets into the bytes that
they have read.
-/

namespace Njs.HttpExchange

open Resumable (feed)
open Text (lit)
open Fetch (Headers ngxJsHeadersAppend sameName)
open HttpClient (HttpParse StatusState HeaderState HeaderRc statusByte headerByte slice
  ngxJsHttpParseStatusLine ngxJsHttpVersion ChunkParse ChunkState ChunkRc chunkCopy chunkSwitch
  length_chunkCopy_le)

/-! ### The state -/

/-- What a request is made with: the configuration of its location, the fields of `ngx_js_http_t`
that do not change, and `ngx_atoof` of nginx. -/
structure Config where
  naddrs : ℕ
  /-- Whether `ssl` is set. -/
  ssl : Bool
  /-- `ngx_js_conf_proxy`. -/
  proxy : Bool
  host : Bytes
  port : ℕ
  /-- The header `proxy.auth`, or nothing. -/
  auth : Bytes
  request : Bytes
  bufferSize : ℕ
  maxResponseBodySize : ℤ
  headerOnly : Bool
  keepalive : Bool
  ngxAtoof : Bytes → Option ℕ

/-- The functions that `process` is set to. -/
inductive Process
  | connectResponse
  | statusLine
  | headers
  | body
  deriving DecidableEq

/-- What is kept of a response in `ngx_js_http_t`. -/
structure Exchange where
  process : Process
  httpParse : HttpParse ℕ
  /-- The bytes that the parsers of lines have read. -/
  consumed : Bytes
  code : ℕ
  statusText : Option Bytes
  headers : Headers
  chunked : Bool
  keepalive : Bool
  contentLengthN : Option ℕ
  httpChunkParse : ChunkParse UInt64
  /-- The body, `response.chain`. -/
  chain : Bytes
  /-- Whether `chunk` is set. -/
  chunk : Bool
  done : Bool

/-- A buffer: the bytes between `pos` and `last`, the room up to `end`, and the size of it all. -/
structure Buf where
  rest : Bytes
  room : ℕ
  size : ℕ

/-- What a handler returns, when it does not fail. -/
inductive Rc
  | again
  | ok
  | done
  deriving DecidableEq

def ngxCreateTempBuf (size : ℕ) : Buf := ⟨[], size, size⟩

/-- The parser of lines with another state. -/
def mapState {σ τ : Type} (f : σ → τ) (hp : HttpParse σ) : HttpParse τ :=
  { hp with state := f hp.state }

/-- The numbers of the states of `ngx_js_http_parse_status_line`. -/
def statusNumber : StatusState → ℕ
  | .start => 0
  | .h => 1
  | .ht => 2
  | .htt => 3
  | .http => 4
  | .firstMajorDigit => 5
  | .majorDigit => 6
  | .firstMinorDigit => 7
  | .minorDigit => 8
  | .status => 9
  | .spaceAfterStatus => 10
  | .statusText => 11
  | .almostDone => 12

def statusState : ℕ → StatusState
  | 1 => .h
  | 2 => .ht
  | 3 => .htt
  | 4 => .http
  | 5 => .firstMajorDigit
  | 6 => .majorDigit
  | 7 => .firstMinorDigit
  | 8 => .minorDigit
  | 9 => .status
  | 10 => .spaceAfterStatus
  | 11 => .statusText
  | 12 => .almostDone
  | _ => .start

/-- The numbers of the states of `ngx_js_http_parse_header_line`. -/
def headerNumber : HeaderState → ℕ
  | .start => 0
  | .name => 1
  | .spaceBeforeValue => 2
  | .value => 3
  | .spaceAfterValue => 4
  | .almostDone => 5
  | .headerAlmostDone => 6

def headerState : ℕ → HeaderState
  | 1 => .name
  | 2 => .spaceBeforeValue
  | 3 => .value
  | 4 => .spaceAfterValue
  | 5 => .almostDone
  | 6 => .headerAlmostDone
  | _ => .start

/-- The state as it is allocated. -/
def Exchange.init (cfg : Config) : Exchange where
  process := .statusLine
  httpParse := mapState statusNumber HttpParse.init
  consumed := []
  code := 0
  statusText := none
  headers := { guard := .none }
  chunked := false
  keepalive := cfg.keepalive
  contentLengthN := none
  httpChunkParse := .init
  chain := []
  chunk := false
  done := false

/-! ### The body -/

/-- `ngx_js_http_parse_chunked` with the state that it leaves behind: the state it began with, when
it comes to the end of the body. -/
def parseChunked (saved : ChunkState) (hcp : ChunkParse UInt64) (chain b : Bytes) :
    Option (Rc × ChunkParse UInt64 × Bytes × Bytes) :=
  if b = [] then some (.again, hcp, chain, [])
  else
    match _h : chunkCopy hcp chain b with
    | (.ended, hcp', chain, ch :: p) =>
      match chunkSwitch hcp' ch with
      | .more hcp => parseChunked saved hcp chain p
      | .done () => some (.ok, { hcp' with state := saved }, chain, p)
      | .fail => none
    | (_, hcp, chain, p) => some (.again, hcp, chain, p)
termination_by b.length
decreasing_by
  have hlen := congrArg (fun r : ChunkRc × ChunkParse UInt64 × Bytes × Bytes => r.2.2.2.length) _h
  exact Nat.lt_of_succ_le (le_trans (le_of_eq hlen.symm) (length_chunkCopy_le _ _ b))

section ParseChunked

variable {saved : ChunkState} {hcp hcp' : ChunkParse UInt64} {chain chain' b p : Bytes}

end ParseChunked

/-- The end of `ngx_js_http_process_body`: another buffer when this one is full and read, and the
same one again later on. -/
def refill (cfg : Config) (x : Exchange) (b : Buf) : Exchange × Buf :=
  if b.rest = [] ∧ b.room = 0 then
    if x.chunk then (x, { b with room := b.size })
    else ({ x with chunk := true }, ngxCreateTempBuf cfg.bufferSize)
  else (x, b)

/-- `ngx_js_http_process_body`. With `Rc.done` and the flag `done` the response is ready. -/
def ngxJsHttpProcessBody (cfg : Config) (x : Exchange) (b : Buf) :
    Except String (Rc × Exchange × Buf) :=
  let size : ℤ := x.chain.length
  if x.done then
    if !cfg.headerOnly ∧ x.chunked ∧ x.contentLengthN = none then
      .error "invalid http chunked response"
    else if cfg.headerOnly then .ok (.done, x, b)
    else
      match x.contentLengthN with
      | none => .ok (.done, x, b)
      | some n =>
        if size = n then .ok (.done, x, b)
        else if size < n then .ok (.again, x, b)
        else .error "http trailing data"
  else if x.chunked then
    match parseChunked x.httpChunkParse.state x.httpChunkParse x.chain b.rest with
    | none => .error "invalid http chunked response"
    | some (rc, httpChunkParse, chain, rest) =>
      let contentLengthN := if rc = .ok then some chain.length else x.contentLengthN
      if chain.length > cfg.maxResponseBodySize * 10 then .error "very large http chunked response"
      else .ok (rc, refill cfg { x with httpChunkParse, chain, contentLengthN } { b with rest })
  else
    let need : ℤ :=
      if cfg.headerOnly then 0
      else
        match x.contentLengthN with
        | none => cfg.maxResponseBodySize - size
        | some n => n - size
    let chsize := min need b.rest.length
    if size + chsize > cfg.maxResponseBodySize then .error "http response body is too large"
    else
      -- nothing is read when `chsize` is negative
      let n := chsize.toNat
      let rc := if need > chsize then .again else .done
      .ok (rc, refill cfg { x with chain := x.chain ++ b.rest.take n }
        { b with rest := b.rest.drop n })

/-! ### The header -/

/-- What `ngx_js_http_process_headers` does with a line. -/
def headerLine (cfg : Config) (x : Exchange) (hp : HttpParse HeaderState) :
    Except String Exchange :=
  let name := (slice x.consumed hp.headerNameStart hp.headerNameEnd).getD []
  let value := (slice x.consumed hp.headerStart hp.headerEnd).getD []
  match ngxJsHeadersAppend x.headers name value with
  | .error _ => .error "cannot add respose header"
  | .ok headers =>
    let chunked :=
      x.chunked || (sameName name (lit "Transfer-Encoding") && sameName value (lit "chunked"))
    let keepalive :=
      x.keepalive && !(sameName name (lit "Connection") && sameName value (lit "close"))
    let x := { x with headers, chunked, keepalive }
    if sameName name (lit "Content-Length") then
      match cfg.ngxAtoof value with
      | none => .error "invalid http content length"
      | some n =>
        if !cfg.headerOnly ∧ n > cfg.maxResponseBodySize then
          .error "http content length is too large"
        else .ok { x with contentLengthN := some n }
    else .ok x

def headerLines (onLine : Exchange → HttpParse HeaderState → Except String Exchange)
    (invalid : String) (x : Exchange) (hp : HttpParse HeaderState) :
    Bytes → Except String (Rc × Exchange × HttpParse HeaderState × Bytes)
  | [] => .ok (.again, x, hp, [])
  | ch :: rest =>
    let p := x.consumed.length
    let x := { x with consumed := x.consumed ++ [ch] }
    match headerByte (hp, p) ch with
    | .more (hp, _) => headerLines onLine invalid x hp rest
    | .done (.ok, hp, _) =>
      match onLine x hp with
      | .error e => .error e
      | .ok x => headerLines onLine invalid x hp rest
    | .done (.done, hp, _) => .ok (.done, x, hp, rest)
    | .fail => .error invalid

/-- A loop over the lines of the header in a buffer. -/
def parseHeader (onLine : Exchange → HttpParse HeaderState → Except String Exchange)
    (invalid : String) (x : Exchange) (b : Buf) : Except String (Rc × Exchange × Buf) :=
  match headerLines onLine invalid x (mapState headerState x.httpParse) b.rest with
  | .error e => .error e
  | .ok (rc, x, hp, rest) =>
    .ok (rc, { x with httpParse := mapState headerNumber hp }, { b with rest })

def ngxJsHttpProcessHeaders (cfg : Config) (x : Exchange) (b : Buf) :
    Except String (Rc × Exchange × Buf) :=
  match parseHeader (headerLine cfg) "invalid http header" x b with
  | .ok (.done, x, b) =>
    ngxJsHttpProcessBody cfg
      { x with headers := { x.headers with guard := .immutable }, process := .body } b
  | r => r

/-! ### The status line -/

/-- `ngx_js_http_parse_status_line`, for a buffer. -/
def parseStatusLine (x : Exchange) (b : Buf) : Option (Rc × Exchange × Buf) :=
  let pos := x.consumed.length
  let upTo (rc : Rc) (hp : HttpParse StatusState) (p : ℕ) : Rc × Exchange × Buf :=
    let consumed := x.consumed ++ b.rest.take (p - pos)
    (rc, { x with httpParse := mapState statusNumber hp, consumed },
      { b with rest := b.rest.drop (p - pos) })
  match ngxJsHttpParseStatusLine (mapState statusState x.httpParse, pos) b.rest with
  | .more (hp, p) => some (upTo .again hp p)
  | .done (hp, p) => some (upTo .ok hp p)
  | .fail => none

def ngxJsHttpProcessStatusLine (cfg : Config) (x : Exchange) (b : Buf) :
    Except String (Rc × Exchange × Buf) :=
  match parseStatusLine x b with
  | none => .error "invalid http status line"
  | some (.ok, x, b) =>
    let hp := x.httpParse
    ngxJsHttpProcessHeaders cfg { x with
        code := hp.code
        statusText := slice x.consumed hp.statusText hp.statusTextEnd
        process := .headers
        keepalive := x.keepalive && ngxJsHttpVersion 1 1 ≤ hp.httpVersion } b
  | some (rc, x, b) => .ok (rc, x, b)

/-! ### The answer of a proxy -/

/-- `ngx_js_http_process_connect_response`, up to the end of the header; with `Rc.done` the tunnel
is ready. -/
def processConnectResponse (x : Exchange) (b : Buf) : Except String (Rc × Exchange × Buf) :=
  match parseStatusLine x b with
  | none => .error "proxy CONNECT: invalid status line"
  | some (.ok, x, b) =>
    if x.httpParse.code ≠ 200 then
      .error ("proxy CONNECT failed with status " ++ toString x.httpParse.code)
    else parseHeader (fun x _ => .ok x) "proxy CONNECT: invalid headers" x b
  | some (rc, x, b) => .ok (rc, x, b)

/-- `ngx_memzero` of the parser of lines; nothing points to the bytes that it has read any more. -/
def Exchange.rewind (x : Exchange) : Exchange :=
  { x with httpParse := mapState statusNumber HttpParse.init, consumed := [] }

/-- The handlers of a response, as `process` selects them. -/
def processResponse (cfg : Config) (x : Exchange) (b : Buf) : Except String (Rc × Exchange × Buf) :=
  match x.process with
  | .body => ngxJsHttpProcessBody cfg x b
  | .headers => ngxJsHttpProcessHeaders cfg x b
  | _ => ngxJsHttpProcessStatusLine cfg x b

/-! ### The lines of a header -/

section Lines

variable {onLine : Exchange → HttpParse HeaderState → Except String Exchange} {invalid : String}
  {x : Exchange} {hp hp' : HttpParse HeaderState} {p : ℕ}

theorem headerLines_keeps {I : Exchange → Prop}
    (hconsumed : ∀ x c, I x → I { x with consumed := c })
    (honLine : ∀ x hp x', I x → onLine x hp = .ok x' → I x') {b rest : Bytes} {rc : Rc}
    {x' : Exchange} (hx : I x) (h : headerLines onLine invalid x hp b = .ok (rc, x', hp', rest)) :
    I x' ∧ (rc = .again ∧ rest = [] ∨ rc = .done) := by
  induction b generalizing x hp with
  | nil =>
    cases h
    exact ⟨hx, .inl ⟨rfl, rfl⟩⟩
  | cons ch b ih =>
    rw [headerLines] at h
    have hx' := hconsumed x (x.consumed ++ [ch]) hx
    rcases hbyte : headerByte (hp, x.consumed.length) ch with ⟨hp₁, p₁⟩ | ⟨hrc, hp₁, p₁⟩ | _
    · rw [hbyte] at h
      exact ih hx' h
    · rw [hbyte] at h
      cases hrc with
      | done =>
        cases h
        exact ⟨hx', .inr rfl⟩
      | ok =>
        cases hline : onLine { x with consumed := x.consumed ++ [ch] } hp₁ with
        | error e => simp only [hline, reduceCtorEq] at h
        | ok x₁ =>
          simp only [hline] at h
          exact ih (honLine _ hp₁ x₁ hx' hline) h
    · rw [hbyte] at h
      cases h

theorem parseHeader_keeps {I : Exchange → Prop}
    (hconsumed : ∀ x c, I x → I { x with consumed := c })
    (hparse : ∀ x hp, I x → I { x with httpParse := hp })
    (honLine : ∀ x hp x', I x → onLine x hp = .ok x' → I x') {b b' : Buf} {rc : Rc}
    {x' : Exchange} (hx : I x) (h : parseHeader onLine invalid x b = .ok (rc, x', b')) :
    I x' ∧ (rc = .again ∧ b'.rest = [] ∨ rc = .done) := by
  rw [parseHeader] at h
  split at h
  · cases h
  · next rc₁ x₁ hp₁ rest hlines =>
    cases h
    obtain ⟨hx₁, hrc⟩ := headerLines_keeps hconsumed honLine hx hlines
    exact ⟨hparse x₁ _ hx₁, hrc⟩

end Lines

/-! ### What the handlers keep -/

section Handlers

variable {cfg : Config} {x x' : Exchange} {b b' : Buf} {rc : Rc}

theorem statusByte_pos {hp hp' : HttpParse StatusState} {p p' : ℕ} {ch : UInt8}
    (h : statusByte (hp, p) ch = .more (hp', p')) : p' = p + 1 := by
  simp only [statusByte] at h
  split at h <;> split_ifs at h <;> cases h <;> rfl

theorem parseStatus_pos {hp hp' : HttpParse StatusState} {p p' : ℕ} {b : Bytes}
    (h : ngxJsHttpParseStatusLine (hp, p) b = .more (hp', p')) : p' = p + b.length := by
  rw [ngxJsHttpParseStatusLine] at h
  induction b generalizing hp p with
  | nil =>
    cases h
    rfl
  | cons ch b ih =>
    rw [feed] at h
    rcases hbyte : statusByte (hp, p) ch with ⟨hp₁, p₁⟩ | a | _
    · obtain rfl := statusByte_pos hbyte
      rw [hbyte] at h
      rw [ih h, List.length_cons]
      omega
    · rw [hbyte] at h
      cases h
    · rw [hbyte] at h
      cases h

theorem parseStatusLine_eq (h : parseStatusLine x b = some (rc, x', b')) :
    (∃ hp c, x' = { x with httpParse := hp, consumed := c }) ∧
      (rc = .again ∧ b'.rest = [] ∨ rc = .ok) := by
  simp only [parseStatusLine] at h
  split at h
  · next hp p hparse =>
    cases h
    refine ⟨⟨_, _, rfl⟩, .inl ⟨rfl, ?_⟩⟩
    have hpos := parseStatus_pos hparse
    exact List.drop_eq_nil_of_le (by omega)
  · cases h
    exact ⟨⟨_, _, rfl⟩, .inr rfl⟩
  · cases h

theorem parseStatusLine_nil (hb : b.rest = []) : ∃ r, parseStatusLine x b = some (.again, r) := by
  rw [parseStatusLine, hb]
  exact ⟨_, rfl⟩

theorem headerLine_keeps {hp : HttpParse HeaderState} (h : headerLine cfg x hp = .ok x') :
    x'.done = x.done ∧ x'.process = x.process := by
  simp only [headerLine] at h
  split at h
  · cases h
  split_ifs at h
  · split at h
    · cases h
    · split_ifs at h
      cases h
      exact ⟨rfl, rfl⟩
  · cases h
    exact ⟨rfl, rfl⟩

theorem refill_process {rc₁ : Rc} {E : Type}
    (h : (.ok (rc₁, refill cfg x b) : Except E (Rc × Exchange × Buf)) = .ok (rc, x', b'))
    {p : Process} (hp : x.process = p) : x'.process = p := by
  obtain ⟨-, hr⟩ := Prod.mk.inj (Except.ok.inj h)
  have hprocess : (refill cfg x b).1.process = x.process := by
    rw [refill]
    split_ifs <;> rfl
  rw [hr] at hprocess
  exact hprocess.trans hp

theorem processBody_keeps (h : ngxJsHttpProcessBody cfg x b = .ok (rc, x', b')) :
    x'.process = x.process ∧ (x.done = true → rc ≠ .ok) := by
  simp only [ngxJsHttpProcessBody] at h
  by_cases hdone : x.done = true
  · rw [if_pos hdone] at h
    split_ifs at h
    · cases h
      exact ⟨rfl, fun _ => by simp⟩
    · split at h
      · cases h
        exact ⟨rfl, fun _ => by simp⟩
      · split_ifs at h <;> cases h <;> exact ⟨rfl, fun _ => by simp⟩
  refine ⟨?_, fun h => absurd h hdone⟩
  rw [if_neg hdone] at h
  split_ifs at h
  · split at h
    · cases h
    · split_ifs at h <;> exact refill_process h rfl
  all_goals exact refill_process h rfl

theorem processHeaders_keeps (h : ngxJsHttpProcessHeaders cfg x b = .ok (rc, x', b')) :
    x'.process ∈ [x.process, .body] ∧ (x.done = true → rc ≠ .ok) := by
  have hkeep : ∀ {x₁ b₁ rc₁}, parseHeader (headerLine cfg) "invalid http header" x b =
      .ok (rc₁, x₁, b₁) → (x₁.done = x.done ∧ x₁.process = x.process) ∧
        (rc₁ = .again ∧ b₁.rest = [] ∨ rc₁ = .done) := fun hparse =>
    parseHeader_keeps (I := fun y => y.done = x.done ∧ y.process = x.process)
      (fun _ _ hy => hy) (fun _ _ hy => hy)
      (fun _ _ _ hy hline => ⟨(headerLine_keeps hline).1.trans hy.1,
        (headerLine_keeps hline).2.trans hy.2⟩) ⟨rfl, rfl⟩ hparse
  rw [ngxJsHttpProcessHeaders] at h
  split at h
  · next x₁ b₁ hparse =>
    obtain ⟨⟨hdone, -⟩, -⟩ := hkeep hparse
    obtain ⟨hprocess, hrc⟩ := processBody_keeps h
    exact ⟨by simp [hprocess], fun hx => hrc (hdone.trans hx)⟩
  · next hparse =>
    obtain ⟨⟨-, hprocess⟩, hrc⟩ := hkeep h
    refine ⟨by simp [hprocess], fun _ => ?_⟩
    rcases hrc with ⟨rfl, -⟩ | rfl <;> simp

theorem processStatusLine_keeps (h : ngxJsHttpProcessStatusLine cfg x b = .ok (rc, x', b')) :
    x'.process ∈ [x.process, .headers, .body] ∧ (x.done = true → rc ≠ .ok) := by
  rw [ngxJsHttpProcessStatusLine] at h
  split at h
  · cases h
  · next x₁ b₁ hparse =>
    obtain ⟨⟨hp, c, rfl⟩, -⟩ := parseStatusLine_eq hparse
    obtain ⟨hprocess, hrc⟩ := processHeaders_keeps h
    exact ⟨List.mem_cons_of_mem _ hprocess, hrc⟩
  · next rc₁ x₁ b₁ hok hparse =>
    obtain ⟨⟨hp, c, rfl⟩, -⟩ := parseStatusLine_eq hparse
    cases h
    exact ⟨List.mem_cons_self, fun _ => hok⟩

theorem processResponse_keeps (hx : x.process ≠ .connectResponse)
    (h : processResponse cfg x b = .ok (rc, x', b')) :
    x'.process ≠ .connectResponse ∧ (x.done = true → rc ≠ .ok) := by
  rw [processResponse] at h
  split at h
  · next hbody =>
    obtain ⟨hprocess, hrc⟩ := processBody_keeps h
    exact ⟨hprocess.trans_ne hx, hrc⟩
  · next hheaders =>
    obtain ⟨hprocess, hrc⟩ := processHeaders_keeps h
    refine ⟨?_, hrc⟩
    rintro heq
    simp [heq, hheaders] at hprocess
  · obtain ⟨hprocess, hrc⟩ := processStatusLine_keeps h
    refine ⟨?_, hrc⟩
    rintro heq
    simp [heq, Ne.symm hx] at hprocess

/-- The answer to `CONNECT` changes the parser only, and is read to the end of the buffer or
completely. -/
theorem processConnect_keeps (h : processConnectResponse x b = .ok (rc, x', b')) :
    x'.rewind = x.rewind ∧ (rc = .again ∧ b'.rest = [] ∨ rc = .done) := by
  rw [processConnectResponse] at h
  split at h
  · cases h
  · next x₁ b₁ hparse =>
    obtain ⟨⟨hp, c, rfl⟩, -⟩ := parseStatusLine_eq hparse
    split_ifs at h
    have hx : Exchange.rewind { x with httpParse := hp, consumed := c } = x.rewind := rfl
    refine parseHeader_keeps (I := fun y => y.rewind = x.rewind) (fun _ _ hy => hy)
      (fun _ _ hy => hy) (fun y _ y' hy hline => ?_) hx h
    obtain rfl : y = y' := Except.ok.inj hline
    exact hy
  · next rc₁ x₁ b₁ hok hparse =>
    obtain ⟨⟨hp, c, rfl⟩, hrc⟩ := parseStatusLine_eq hparse
    cases h
    exact ⟨rfl, .inl (hrc.resolve_right hok)⟩

end Handlers

end Njs.HttpExchange
