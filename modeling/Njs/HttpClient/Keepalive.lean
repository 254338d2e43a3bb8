import Njs.Fetch.HeaderLinks
import Njs.Lib.TwoQueues

/-!
# The cache of idle connections

What `nginx/ngx_js_http.c` does with `fetch_keepalive_cache` and `fetch_keepalive_free` of a
location: connections are taken from the cache and put into it, the oldest one makes room when there
is none, and idle connections are closed when something happens on them. The caches of other
locations share nothing with this one. Slots, connections and requests have numbers; what the
network, the clock and the response decide is given with every call.
-/

namespace Njs.HttpClient

open Text
open Fetch (strncaseeq)

/-! ### Connections, requests and slots -/

/-- Where requests go to: the host, the port, and whether TLS is used. -/
structure Origin where
  host : Bytes
  port : UInt16
  ssl : Bool
  deriving DecidableEq

/-- What `data` of a connection points to. -/
inductive ConnectionData
  | null
  | http (r : ℕ)
  | cache (q : ℕ)
  deriving DecidableEq

/-- The handlers of read events. -/
inductive ReadHandler
  | read
  | keepaliveClose
  deriving DecidableEq

/-- The flags of a connection that the event loop sets. -/
structure Flags where
  eof : Bool
  error : Bool
  timedout : Bool
  writeError : Bool
  writeTimedout : Bool
  close : Bool
  deriving DecidableEq

/-- The fields of `ngx_connection_t`, and the origin for which the connection was opened, which
the source does not record. -/
structure Connection where
  data : ConnectionData
  readHandler : ReadHandler
  idle : Bool
  requests : ℕ
  startTime : ℕ
  flags : Flags
  openedFor : Origin

/-- The fields of `ngx_js_http_t`; `connection` is that of `peer`. -/
structure Http where
  host : Bytes
  port : UInt16
  ssl : Bool
  keepalive : Bool
  naddr : ℕ
  naddrs : ℕ
  connection : Option ℕ

def Http.origin (http : Http) : Origin := ⟨http.host, http.port, http.ssl⟩

/-- `ngx_js_http_keepalive_cache_t`; the length of the host is that of the bytes. -/
structure Slot where
  connection : ℕ
  host : Bytes
  port : UInt16
  ssl : Bool

def Slot.origin (slot : Slot) : Origin := ⟨slot.host, slot.port, slot.ssl⟩

/-- The settings of a location. -/
structure Conf where
  fetchKeepalive : ℕ
  fetchKeepaliveRequests : ℕ
  fetchKeepaliveTime : ℕ

/-- The cache of a location with its connections and requests. The first queue is
`fetch_keepalive_cache`, the second one `fetch_keepalive_free`; slots and connections are numbered
in the order in which they are allocated and opened. -/
structure Keepalive where
  queues : TwoQueues ℕ
  allocated : ℕ
  slots : ℕ → Slot
  connections : ℕ → Option Connection
  opened : ℕ
  requests : ℕ → Option Http

namespace Keepalive

def setRequest (w : Keepalive) (r : ℕ) (http : Http) : Keepalive :=
  { w with requests := Function.update w.requests r (some http) }

def setConnection (w : Keepalive) (c : ℕ) (conn : Connection) : Keepalive :=
  { w with connections := Function.update w.connections c (some conn) }

end Keepalive

/-- Nothing has happened yet. -/
def emptyKeepalive : Keepalive where
  queues := ⟨[], []⟩
  allocated := 0
  slots := fun _ => ⟨0, [], 0, false⟩
  connections := fun _ => none
  opened := 0
  requests := fun _ => none

/-! ### The cache -/

def ngxJsHttpCloseConnection (c : ℕ) (w : Keepalive) : Keepalive :=
  { w with connections := Function.update w.connections c none }

@[simp] theorem closeConnection_connections (c : ℕ) (w : Keepalive) :
    (ngxJsHttpCloseConnection c w).connections = Function.update w.connections c none := rfl

@[simp] theorem closeConnection_queues (c : ℕ) (w : Keepalive) :
    (ngxJsHttpCloseConnection c w).queues = w.queues := rfl

@[simp] theorem closeConnection_slots (c : ℕ) (w : Keepalive) :
    (ngxJsHttpCloseConnection c w).slots = w.slots := rfl

@[simp] theorem closeConnection_requests (c : ℕ) (w : Keepalive) :
    (ngxJsHttpCloseConnection c w).requests = w.requests := rfl

/-- `ngx_js_http_keepalive_check_connection`; `quiet` is whether nothing can be read, and the event
can be handled. -/
def ngxJsHttpKeepaliveCheckConnection (conn : Connection) (quiet : Bool) : Bool :=
  !(conn.flags.close || conn.flags.timedout) && quiet

/-- The comparisons of `ngx_js_http_get_keepalive_connection`. -/
def slotMatches (http : Http) (slot : Slot) : Bool :=
  http.host.length = slot.host.length && http.ssl = slot.ssl && strncaseeq http.host slot.host &&
    http.port = slot.port

/-- The slot and its connection are given up: the connection is closed, and the slot is free. -/
def dropSlot (q : ℕ) (w : Keepalive) : Keepalive :=
  let w' := ngxJsHttpCloseConnection (w.slots q).connection
    { w with queues := w.queues.remove q }
  { w' with queues := w'.queues.pushSecond q }

/-- The loop of `ngx_js_http_get_keepalive_connection`. -/
def findCached (http : Http) (quiet : ℕ → Bool) : List ℕ → Keepalive → Option ℕ × Keepalive
  | [], w => (none, w)
  | q :: qs, w =>
    if slotMatches http (w.slots q) then
      let c := (w.slots q).connection
      match w.connections c with
      -- the connection of a cached slot is open
      | none => (none, w)
      | some conn =>
        if ngxJsHttpKeepaliveCheckConnection conn (quiet c) then
          (some c, { w with queues := (w.queues.remove q).pushSecond q })
        else findCached http quiet qs (dropSlot q w)
    else findCached http quiet qs w

def ngxJsHttpGetKeepaliveConnection (http : Http) (quiet : ℕ → Bool) (w : Keepalive) :
    Option ℕ × Keepalive :=
  if http.keepalive then findCached http quiet w.queues.first w else (none, w)

def ngxJsHttpKeepaliveCloseHandler (c : ℕ) (quiet : Bool) (w : Keepalive) : Keepalive :=
  match w.connections c with
  | none => w
  | some conn =>
    if ngxJsHttpKeepaliveCheckConnection conn quiet then w
    else
      match conn.data with
      | .cache q =>
        let w := ngxJsHttpCloseConnection c w
        { w with queues := (w.queues.remove q).pushSecond q }
      -- the handler is set for connections of the cache
      | _ => w

/-- What `ngx_js_http_free_keepalive_connection` reads from the system: the clock, whether the
worker exits, whether the read event can be handled, whether it is ready, and whether nothing can
be read. -/
structure Release where
  now : ℕ
  exiting : Bool
  handled : Bool
  ready : Bool
  quiet : Bool

/-- The slots are allocated when there are none yet. -/
def allocateSlots (conf : Conf) (w : Keepalive) : Keepalive :=
  if w.queues.first = [] ∧ w.queues.second = [] then
    { w with
      queues := (List.range conf.fetchKeepalive).foldl
        (fun queues i => queues.pushSecond (w.allocated + i)) w.queues
      allocated := w.allocated + conf.fetchKeepalive }
  else w

/-- The slot for a connection: a free one, or the oldest one, whose connection is closed. It is in
neither queue. -/
def takeSlot (w : Keepalive) : Option (ℕ × Keepalive) :=
  match w.queues.second with
  | [] =>
    match w.queues.first.getLast? with
    -- there are slots, `fetch_keepalive` being positive where `keepalive` is set
    | none => none
    | some q =>
      let w := { w with queues := w.queues.remove q }
      some (q, ngxJsHttpCloseConnection (w.slots q).connection w)
  | q :: _ => some (q, { w with queues := w.queues.remove q })

def fillSlot (r : ℕ) (http : Http) (c : ℕ) (conn : Connection) (q : ℕ) (w : Keepalive) :
    Keepalive :=
  let w := { w with
    queues := w.queues.pushFirst q
    slots := Function.update w.slots q ⟨c, http.host, http.port, http.ssl⟩ }
  (w.setRequest r { http with connection := none }).setConnection c
    { conn with data := .cache q, readHandler := .keepaliveClose, idle := true }

/-- The handler is called at once when there is something to be read. -/
def handleReady (c : ℕ) (rel : Release) (w : Keepalive) : Keepalive :=
  if rel.ready then ngxJsHttpKeepaliveCloseHandler c rel.quiet w else w

/-- `ngx_js_http_free_keepalive_connection`, and whether it returns `NGX_OK`. -/
def ngxJsHttpFreeKeepaliveConnection (conf : Conf) (r : ℕ) (http : Http) (c : ℕ) (rel : Release)
    (w : Keepalive) : Bool × Keepalive :=
  match w.connections c with
  -- the connection of a request is open
  | none => (false, w)
  | some conn =>
    if conn.flags.eof ∨ conn.flags.error ∨ conn.flags.timedout ∨ conn.flags.writeError ∨
        conn.flags.writeTimedout then (false, w)
    else if conn.requests ≥ conf.fetchKeepaliveRequests then (false, w)
    else if rel.now - conn.startTime > conf.fetchKeepaliveTime then (false, w)
    else if rel.exiting then (false, w)
    else if rel.handled then
      match takeSlot (allocateSlots conf w) with
      | none => (false, w)
      | some (q, w) => (true, handleReady c rel (fillSlot r http c conn q w))
    else (false, w)

/-! ### Its callers -/

def ngxJsHttpClosePeer (conf : Conf) (r : ℕ) (rel : Release) (w : Keepalive) : Keepalive :=
  match w.requests r with
  | none => w
  | some http =>
    match http.connection with
    | none => w
    | some c =>
      let (kept, w) :=
        if http.keepalive then ngxJsHttpFreeKeepaliveConnection conf r http c rel w else (false, w)
      if kept then w
      else (ngxJsHttpCloseConnection c w).setRequest r { http with connection := none }

/-- What `ngx_event_connect_peer` returns: a connection, `NGX_BUSY` or `NGX_DECLINED`, or
`NGX_ERROR`. -/
inductive PeerResult
  | connected
  | declined
  | error
  deriving DecidableEq

/-- What `ngx_js_http_connect` reads from the system: which cached connections have nothing to be
read, the result of connecting, and the clock. -/
structure Network where
  quiet : ℕ → Bool
  peer : PeerResult
  now : ℕ

def attach (r : ℕ) (http : Http) (c : ℕ) (conn : Connection) (w : Keepalive) : Keepalive :=
  (w.setRequest r { http with connection := some c }).setConnection c
    { conn with
      data := .http r
      readHandler := .read
      idle := false
      requests := conn.requests + 1 }

/-- A new connection of `ngx_event_connect_peer`. -/
def newConnection (http : Http) (now : ℕ) : Connection where
  data := .null
  readHandler := .read
  idle := false
  requests := 0
  startTime := now
  flags := ⟨false, false, false, false, false, false⟩
  openedFor := http.origin

/-- `ngx_js_http_connect` for a request without a connection, with the number of addresses from
`naddr` on. When connecting is declined, `ngx_js_http_next` goes on with the next address; the
error after the last one, and any other error, finds no connection to close. -/
def ngxJsHttpConnect (r : ℕ) (network : ℕ → Network) : ℕ → Keepalive → Keepalive
  | 0, w => w
  | n + 1, w =>
    match w.requests r with
    | none => w
    | some http =>
      match ngxJsHttpGetKeepaliveConnection http (network n).quiet w with
      | (some c, w) =>
        match w.connections c with
        | none => w
        | some conn => attach r http c conn w
      | (none, w) =>
        match (network n).peer with
        | .connected =>
          attach r http w.opened (newConnection http (network n).now)
            { w with opened := w.opened + 1 }
        | .error => w
        | .declined =>
          ngxJsHttpConnect r network n (w.setRequest r { http with naddr := http.naddr + 1 })

def ngxJsHttpNext (conf : Conf) (r : ℕ) (network : ℕ → Network) (rel : Release) (w : Keepalive) :
    Keepalive :=
  match w.requests r with
  | none => w
  | some http =>
    let http := { http with naddr := http.naddr + 1 }
    if http.naddr ≥ http.naddrs then ngxJsHttpClosePeer conf r rel (w.setRequest r http)
    else
      let w :=
        match http.connection with
        | none => w
        | some c => ngxJsHttpCloseConnection c w
      ngxJsHttpConnect r network (http.naddrs - http.naddr)
        (w.setRequest r { http with connection := none })

/-- The host after `ngx_js_http_ssl_name`: `ngx_cpystrn` copies it up to the first NUL, and the
bytes behind are those of fresh memory. -/
def sslName (memory : ℕ → UInt8) : Bytes → Bytes
  | [] => []
  | c :: host => if c = 0 then 0 :: host.mapIdx fun i _ => memory i else c :: sslName memory host

/-! ### Runs -/

/-- What may happen. -/
inductive Op
  /-- A script calls `fetch`; `keepalive` is what the settings and the options allow. -/
  | fetch (r : ℕ) (origin : Origin) (keepalive : Bool) (naddrs : ℕ)
  /-- The addresses of a request are known. -/
  | connect (r : ℕ) (network : ℕ → Network)
  | sslName (r : ℕ) (memory : ℕ → UInt8)
  /-- Writing, reading or the handshake of TLS fails. -/
  | next (r : ℕ) (network : ℕ → Network) (rel : Release)
  | response (r : ℕ) (keepalive : Bool)
  /-- The request is done: there is a response, there is an error, or the script is. -/
  | closePeer (r : ℕ) (rel : Release)
  /-- The event loop sets flags: the peer closed the connection, there was an error, a timer
  expired, the worker exits. -/
  | flags (c : ℕ) (flags : Flags)
  | readEvent (c : ℕ) (quiet : Bool)

/-- What happens then. -/
def step (conf : Conf) (w : Keepalive) : Op → Keepalive
  | .fetch r origin keepalive naddrs =>
    match w.requests r with
    | some _ => w
    | none =>
      w.setRequest r
        { host := origin.host
          port := origin.port
          ssl := origin.ssl
          keepalive := 0 < conf.fetchKeepalive && keepalive
          naddr := 0
          naddrs := naddrs
          connection := none }
  | .connect r network =>
    match w.requests r with
    | none => w
    | some http =>
      match http.connection with
      | some _ => w
      | none => ngxJsHttpConnect r network (http.naddrs - http.naddr) w
  | .sslName r memory =>
    match w.requests r with
    | none => w
    | some http => w.setRequest r { http with host := sslName memory http.host }
  | .next r network rel => ngxJsHttpNext conf r network rel w
  | .response r keepalive =>
    match w.requests r with
    | none => w
    | some http => w.setRequest r { http with keepalive := http.keepalive && keepalive }
  | .closePeer r rel => ngxJsHttpClosePeer conf r rel w
  | .flags c flags =>
    match w.connections c with
    | none => w
    | some conn => w.setConnection c { conn with flags := flags }
  | .readEvent c quiet =>
    match w.connections c with
    | none => w
    | some conn =>
      match conn.readHandler with
      | .keepaliveClose => ngxJsHttpKeepaliveCloseHandler c quiet w
      -- the handlers of a request lead to the other operations
      | .read => w

/-- One thing after the other. -/
def run (conf : Conf) (ops : List Op) : Keepalive := ops.foldl (step conf) emptyKeepalive

end Njs.HttpClient

/-!
## Owners of connections

A connection is that of one slot of the cache or of one request, and was opened for an origin that
agrees with the origin of its owner. The comparison of hosts stops at a NUL.
-/

namespace Njs.HttpClient

open Text
open Fetch (strncaseeq sameName sameName_symm sameName_trans lower)

/-! ### Origins -/

/-- Two origins agree as far as the cache compares them. -/
def Agrees (a b : Origin) : Prop :=
  sameName a.host b.host = true ∧ a.port = b.port ∧ a.ssl = b.ssl

theorem strncaseeq_refl (s : Bytes) : strncaseeq s s = true := by
  induction s with
  | nil => rfl
  | cons c s ih => simp [strncaseeq, ih]

theorem Agrees.refl (a : Origin) : Agrees a a :=
  ⟨by simp [sameName, strncaseeq_refl], rfl, rfl⟩

theorem Agrees.trans {a b c : Origin} (hab : Agrees a b) (hbc : Agrees b c) : Agrees a c :=
  ⟨sameName_trans hab.1 hbc.1, hab.2.1.trans hbc.2.1, hab.2.2.trans hbc.2.2⟩

theorem Agrees.symm {a b : Origin} (h : Agrees a b) : Agrees b a :=
  ⟨sameName_symm h.1, h.2.1.symm, h.2.2.symm⟩

theorem agrees_of_slotMatches {http : Http} {slot : Slot} (h : slotMatches http slot = true) :
    Agrees slot.origin http.origin := by
  simp only [slotMatches, Bool.and_eq_true, decide_eq_true_eq] at h
  obtain ⟨⟨⟨hlen, hssl⟩, hhost⟩, hport⟩ := h
  refine Agrees.symm ⟨?_, hport, hssl⟩
  simp [sameName, Http.origin, Slot.origin, hlen, hhost]

theorem map_lower_of_sameName {s t : Bytes} (h : sameName s t = true) (ht : (0 : UInt8) ∉ t) :
    s.map lower = t.map lower := by
  simp only [sameName, Bool.and_eq_true, decide_eq_true_eq] at h
  obtain ⟨hlen, heq⟩ := h
  induction s generalizing t with
  | nil => simpa using hlen.symm
  | cons c s ih =>
    rcases t with _ | ⟨d, t⟩
    · simp at hlen
    rw [List.mem_cons, not_or] at ht
    simp only [strncaseeq, Bool.and_eq_true, decide_eq_true_eq, Bool.or_eq_true] at heq
    obtain ⟨hcd, hrest⟩ := heq
    have hzero : lower c ≠ 0 := by
      rw [hcd]
      have hlower : ∀ b : UInt8, lower b = 0 → b = 0 := forall_byte (by decide)
      exact fun h => ht.1 (hlower d h).symm
    have hrest : strncaseeq s t = true := hrest.resolve_left hzero
    rw [List.map_cons, List.map_cons, hcd, ih ht.2 (by simpa using hlen) hrest]

theorem sameName_sslName (memory : ℕ → UInt8) (host : Bytes) :
    sameName host (sslName memory host) = true := by
  simp only [sameName, Bool.and_eq_true, decide_eq_true_eq]
  induction host with
  | nil => exact ⟨rfl, rfl⟩
  | cons c host ih =>
    rw [sslName]
    split_ifs with hc
    · subst hc
      have hzero : lower 0 = 0 := by decide
      exact ⟨by simp, by simp [strncaseeq, hzero]⟩
    · exact ⟨by simp [ih.1], by simp [strncaseeq, ih.2]⟩

theorem sslName_of_noNul {host : Bytes} (h : (0 : UInt8) ∉ host) (memory : ℕ → UInt8) :
    sslName memory host = host := by
  induction host with
  | nil => rfl
  | cons c host ih =>
    rw [List.mem_cons, not_or] at h
    rw [sslName, if_neg (Ne.symm h.1), ih h.2]

/-! ### The invariant -/

/-- The queues hold the slots of a set; a slot of the cache has an open connection of its own, a
request has an open connection of its own or none, and connections were opened for origins that
agree. -/
structure Inv (all : ℕ → Prop) (w : Keepalive) : Prop where
  queues : w.queues.Holds all
  cached : ∀ q ∈ w.queues.first, ∃ conn, w.connections (w.slots q).connection = some conn ∧
    conn.data = .cache q ∧ Agrees conn.openedFor (w.slots q).origin
  back : ∀ c conn q, w.connections c = some conn → conn.data = .cache q →
    q ∈ w.queues.first ∧ (w.slots q).connection = c
  owned : ∀ r http c, w.requests r = some http → http.connection = some c →
    ∃ conn, w.connections c = some conn ∧ conn.data = .http r ∧ Agrees conn.openedFor http.origin
  fresh : ∀ c, w.opened ≤ c → w.connections c = none

/-- The invariant between the calls: the slots are those that were allocated. -/
abbrev Sound (w : Keepalive) : Prop := Inv (· < w.allocated) w

theorem sound_empty : Sound emptyKeepalive where
  queues := ⟨by simp [emptyKeepalive], by simp [emptyKeepalive]⟩
  cached := by simp [emptyKeepalive]
  back := by simp [emptyKeepalive]
  owned := by simp [emptyKeepalive]
  fresh := by simp [emptyKeepalive]

variable {all : ℕ → Prop} {w : Keepalive} {r c q : ℕ} {http http' : Http} {conn : Connection}

namespace Inv

theorem congr {all' : ℕ → Prop} (h : Inv all w) (heq : ∀ p, all p ↔ all' p) : Inv all' w :=
  ⟨h.queues.congr heq, h.cached, h.back, h.owned, h.fresh⟩

theorem lt_opened (h : Inv all w) (hc : w.connections c = some conn) : c < w.opened := by
  by_contra hle
  rw [h.fresh c (by omega)] at hc
  simp at hc

theorem detach (h : Inv all w) (hq : q ∈ w.queues.first) :
    Inv (fun p => all p ∧ p ≠ q)
      (ngxJsHttpCloseConnection (w.slots q).connection
        { w with queues := w.queues.remove q }) := by
  obtain ⟨conn, hconn, hdata, -⟩ := h.cached q hq
  -- connections with other owners stay
  have hne : ∀ c' conn', w.connections c' = some conn' → conn'.data ≠ .cache q →
      c' ≠ (w.slots q).connection := by
    rintro c' conn' hc' hdata' rfl
    rw [hconn] at hc'
    obtain rfl := Option.some.inj hc'
    exact hdata' hdata
  refine ⟨h.queues.remove q, ?_, ?_, ?_, ?_⟩
  · intro p hp
    obtain ⟨hpq, hp⟩ := h.queues.nodup_first.mem_erase_iff.mp hp
    obtain ⟨conn', hc', hdata', hagrees⟩ := h.cached p hp
    have hc := hne _ conn' hc' (by rw [hdata']; simpa using hpq)
    exact ⟨conn', (Function.update_of_ne hc ..).trans hc', hdata', hagrees⟩
  · intro c' conn' p hc' hdata'
    by_cases hc : c' = (w.slots q).connection
    · simp [hc] at hc'
    · simp only [closeConnection_connections, Function.update_of_ne hc] at hc'
      obtain ⟨hp, rfl⟩ := h.back c' conn' p hc' hdata'
      refine ⟨h.queues.nodup_first.mem_erase_iff.mpr ⟨?_, hp⟩, rfl⟩
      rintro rfl
      exact hc rfl
  · intro r http c' hr hc'
    obtain ⟨conn', hc', hdata', hagrees⟩ := h.owned r http c' hr hc'
    have hc := hne _ conn' hc' (by rw [hdata']; simp)
    exact ⟨conn', (Function.update_of_ne hc ..).trans hc', hdata', hagrees⟩
  · intro c' hc'
    simp only [closeConnection_connections, Function.update_apply]
    split_ifs
    · rfl
    · exact h.fresh c' hc'

theorem free (h : Inv all w) (hq : ¬ all q) :
    Inv (fun p => p = q ∨ all p) { w with queues := w.queues.pushSecond q } :=
  ⟨h.queues.pushSecond hq, h.cached, h.back, h.owned, h.fresh⟩

theorem dropSlot (h : Inv all w) (hq : q ∈ w.queues.first) : Inv all (dropSlot q w) := by
  have hall : all q := (h.queues.mem_iff q).mp (.inl hq)
  refine ((h.detach hq).free (by simp)).congr fun p => ?_
  by_cases hpq : p = q
  · simp [hpq, hall]
  · simp [hpq]

theorem closeOwn (h : Inv all w) (hr : w.requests r = some http)
    (hc : http.connection = some c) (hnone : http'.connection = none) :
    Inv all ((ngxJsHttpCloseConnection c w).setRequest r http') := by
  obtain ⟨conn, hconn, hdata, -⟩ := h.owned r http c hr hc
  have hne : ∀ c' conn', w.connections c' = some conn' → conn'.data ≠ .http r → c' ≠ c := by
    rintro c' conn' hc' hdata' rfl
    rw [hconn] at hc'
    obtain rfl := Option.some.inj hc'
    exact hdata' hdata
  refine ⟨h.queues, ?_, ?_, ?_, ?_⟩
  · intro p hp
    obtain ⟨conn', hc', hdata', hagrees⟩ := h.cached p hp
    have hc := hne _ conn' hc' (by rw [hdata']; simp)
    exact ⟨conn', (Function.update_of_ne hc ..).trans hc', hdata', hagrees⟩
  · intro c' conn' p hc' hdata'
    refine h.back c' conn' p ?_ hdata'
    by_cases hcc : c' = c
    · simp [Keepalive.setRequest, hcc] at hc'
    · simpa [Keepalive.setRequest, Function.update_of_ne hcc] using hc'
  · intro r' http'' c' hr' hc'
    by_cases hrr : r' = r
    · subst hrr
      simp only [Keepalive.setRequest, Function.update_self, Option.some.injEq] at hr'
      rw [← hr', hnone] at hc'
      simp at hc'
    · simp only [Keepalive.setRequest, Function.update_of_ne hrr, closeConnection_requests] at hr'
      obtain ⟨conn', hc', hdata', hagrees⟩ := h.owned r' http'' c' hr' hc'
      have hc := hne _ conn' hc' (by rw [hdata']; simpa using hrr)
      exact ⟨conn', (Function.update_of_ne hc ..).trans hc', hdata', hagrees⟩
  · intro c' hc'
    simp only [Keepalive.setRequest, closeConnection_connections, Function.update_apply]
    split_ifs
    · rfl
    · exact h.fresh c' hc'

theorem attach (h : Inv all w) (hnone : w.connections c = none) (hopen : c < w.opened)
    (hagrees : Agrees conn.openedFor http.origin) : Inv all (attach r http c conn w) := by
  have hne : ∀ c' conn', w.connections c' = some conn' → c' ≠ c := by
    rintro c' conn' hc' rfl
    simp [hnone] at hc'
  refine ⟨h.queues, ?_, ?_, ?_, ?_⟩
  · intro p hp
    obtain ⟨conn', hc', hdata', hagrees'⟩ := h.cached p hp
    exact ⟨conn', (Function.update_of_ne (hne _ _ hc') ..).trans hc', hdata', hagrees'⟩
  · intro c' conn' p hc' hdata'
    by_cases hcc : c' = c
    · subst hcc
      simp only [HttpClient.attach, Keepalive.setConnection, Function.update_self,
        Option.some.injEq] at hc'
      rw [← hc'] at hdata'
      simp at hdata'
    · simp only [HttpClient.attach, Keepalive.setConnection, Function.update_of_ne hcc] at hc'
      exact h.back c' conn' p hc' hdata'
  · intro r' http'' c' hr' hc'
    by_cases hrr : r' = r
    · subst hrr
      simp only [HttpClient.attach, Keepalive.setConnection, Keepalive.setRequest,
        Function.update_self, Option.some.injEq] at hr'
      subst hr'
      obtain rfl : c = c' := by simpa using hc'
      exact ⟨_, Function.update_self .., rfl, hagrees⟩
    · simp only [HttpClient.attach, Keepalive.setConnection, Keepalive.setRequest,
        Function.update_of_ne hrr] at hr'
      obtain ⟨conn', hc', hdata', hagrees'⟩ := h.owned r' http'' c' hr' hc'
      exact ⟨conn', (Function.update_of_ne (hne _ _ hc') ..).trans hc', hdata', hagrees'⟩
  · intro c' hc'
    have hcc : c' ≠ c := by
      rintro rfl
      exact absurd hopen (not_lt.mpr hc')
    exact (Function.update_of_ne hcc ..).trans (h.fresh c' hc')

theorem fillSlot (h : Inv all w) (hq : ¬ all q) (hnone : w.connections c = none)
    (hopen : c < w.opened) (hagrees : Agrees conn.openedFor http.origin) :
    Inv (fun p => p = q ∨ all p) (fillSlot r http c conn q w) := by
  have hne : ∀ c' conn', w.connections c' = some conn' → c' ≠ c := by
    rintro c' conn' hc' rfl
    simp [hnone] at hc'
  have hqmem : ∀ p, p ∈ w.queues.first → p ≠ q := by
    rintro p hp rfl
    exact hq ((h.queues.mem_iff p).mp (.inl hp))
  refine ⟨h.queues.pushFirst hq, ?_, ?_, ?_, ?_⟩
  · intro p hp
    rcases List.mem_cons.mp hp with rfl | hp
    · refine ⟨{ conn with data := .cache p, readHandler := .keepaliveClose, idle := true },
        ?_, rfl, ?_⟩
      · simp [HttpClient.fillSlot, Keepalive.setConnection, Keepalive.setRequest]
      · simpa [HttpClient.fillSlot, Keepalive.setConnection, Keepalive.setRequest, Slot.origin,
          Http.origin] using hagrees
    · obtain ⟨conn', hc', hdata', hagrees'⟩ := h.cached p hp
      have hp := hqmem p hp
      refine ⟨conn', ?_, hdata', ?_⟩
      · simpa [HttpClient.fillSlot, Keepalive.setConnection, Keepalive.setRequest,
          Function.update_of_ne hp, Function.update_of_ne (hne _ _ hc')] using hc'
      · simpa [HttpClient.fillSlot, Keepalive.setConnection, Keepalive.setRequest,
          Function.update_of_ne hp] using hagrees'
  · intro c' conn' p hc' hdata'
    by_cases hcc : c' = c
    · subst hcc
      simp only [HttpClient.fillSlot, Keepalive.setConnection, Function.update_self,
        Option.some.injEq] at hc'
      rw [← hc'] at hdata'
      obtain rfl : q = p := by simpa using hdata'
      exact ⟨List.mem_cons_self, by
        simp [HttpClient.fillSlot, Keepalive.setConnection, Keepalive.setRequest]⟩
    · simp only [HttpClient.fillSlot, Keepalive.setConnection, Keepalive.setRequest,
        Function.update_of_ne hcc] at hc'
      obtain ⟨hp, hslot⟩ := h.back c' conn' p hc' hdata'
      exact ⟨List.mem_cons_of_mem _ hp, by
        simpa [HttpClient.fillSlot, Keepalive.setConnection, Keepalive.setRequest,
          Function.update_of_ne (hqmem p hp)] using hslot⟩
  · intro r' http'' c' hr' hc'
    by_cases hrr : r' = r
    · subst hrr
      simp only [HttpClient.fillSlot, Keepalive.setConnection, Keepalive.setRequest,
        Function.update_self, Option.some.injEq] at hr'
      subst hr'
      simp at hc'
    · simp only [HttpClient.fillSlot, Keepalive.setConnection, Keepalive.setRequest,
        Function.update_of_ne hrr] at hr'
      obtain ⟨conn', hc', hdata', hagrees'⟩ := h.owned r' http'' c' hr' hc'
      exact ⟨conn', (Function.update_of_ne (hne _ _ hc') ..).trans hc', hdata', hagrees'⟩
  · intro c' hc'
    have hcc : c' ≠ c := by
      rintro rfl
      exact absurd hopen (not_lt.mpr hc')
    exact (Function.update_of_ne hcc ..).trans (h.fresh c' hc')

theorem setRequest (h : Inv all w)
    (hc : ∀ c, http'.connection = some c → ∃ http, w.requests r = some http ∧
      http.connection = some c ∧ Agrees http.origin http'.origin) :
    Inv all (w.setRequest r http') := by
  refine ⟨h.queues, h.cached, h.back, ?_, h.fresh⟩
  intro r' http'' c' hr' hc'
  by_cases hrr : r' = r
  · subst hrr
    simp only [Keepalive.setRequest, Function.update_self, Option.some.injEq] at hr'
    subst hr'
    obtain ⟨http, hr, hcon, hagrees⟩ := hc c' hc'
    obtain ⟨conn, hconn, hdata, hagrees'⟩ := h.owned r' http c' hr hcon
    exact ⟨conn, hconn, hdata, hagrees'.trans hagrees⟩
  · simp only [Keepalive.setRequest, Function.update_of_ne hrr] at hr'
    exact h.owned r' http'' c' hr' hc'

theorem setFlags (h : Inv all w) (hconn : w.connections c = some conn) (flags : Flags) :
    Inv all (w.setConnection c { conn with flags := flags }) := by
  have hget : ∀ c' conn', w.connections c' = some conn' →
      ∃ conn'', (w.setConnection c { conn with flags := flags }).connections c' = some conn'' ∧
        conn''.data = conn'.data ∧ conn''.openedFor = conn'.openedFor := by
    intro c' conn' hc'
    by_cases hcc : c' = c
    · subst hcc
      rw [hconn] at hc'
      obtain rfl := Option.some.inj hc'
      exact ⟨_, Function.update_self .., rfl, rfl⟩
    · exact ⟨conn', (Function.update_of_ne hcc ..).trans hc', rfl, rfl⟩
  refine ⟨h.queues, ?_, ?_, ?_, ?_⟩
  · intro p hp
    obtain ⟨conn', hc', hdata', hagrees⟩ := h.cached p hp
    obtain ⟨conn'', hc'', hdata, horigin⟩ := hget _ _ hc'
    exact ⟨conn'', hc'', hdata.trans hdata', horigin ▸ hagrees⟩
  · intro c' conn' p hc' hdata'
    by_cases hcc : c' = c
    · subst hcc
      simp only [Keepalive.setConnection, Function.update_self, Option.some.injEq] at hc'
      subst hc'
      exact h.back c' conn p hconn hdata'
    · simp only [Keepalive.setConnection, Function.update_of_ne hcc] at hc'
      exact h.back c' conn' p hc' hdata'
  · intro r' http'' c' hr' hc'
    obtain ⟨conn', hc', hdata', hagrees⟩ := h.owned r' http'' c' hr' hc'
    obtain ⟨conn'', hc'', hdata, horigin⟩ := hget _ _ hc'
    exact ⟨conn'', hc'', hdata.trans hdata', horigin ▸ hagrees⟩
  · intro c' hc'
    have hcc : c' ≠ c := by
      rintro rfl
      exact absurd (h.lt_opened hconn) (not_lt.mpr hc')
    exact (Function.update_of_ne hcc ..).trans (h.fresh c' hc')

end Inv

end Njs.HttpClient
