import Njs.HttpExchange.Connections

/-!
# Failing over to another address

After a connection has failed the next one starts afresh, if nothing was received on the failed one
and no tunnel was asked for. Otherwise it does not: the request for a tunnel has taken the place of
the request, the request is destroyed at the end of the header, and the parsers stay where they are.
-/

namespace Njs.HttpExchange

open Text (lit)

variable {cfg : Config} {s : Http} {c : Connection}

/-! ### The invariant -/

/-- The request is sent, or the response received. -/
structure Exchanging (cfg : Config) (s : Http) (c : Connection) : Prop where
  pending : s.pending = none
  process : s.exchange.process ≠ .connectResponse
  chain : c.tunnel = false → c.reads = [] → s.chain = cfg.request
  handshaking : c.handshaking = true → c.writing = true ∧ cfg.proxy = false
  writing : c.writing = true →
    c.sent ++ s.buffer.elim s.chain Buf.rest = c.expected cfg ∧ c.reads = [] ∧
      s.exchange = Exchange.init cfg
  written : c.writing = false →
    c.sent = c.expected cfg ∧ (s.exchange, s.readBuffer cfg) = parsed cfg c.reads

/-- A tunnel is asked for, and a handshake made through it. -/
structure Tunnelling (cfg : Config) (s : Http) (c : Connection) : Prop where
  tunnel : c.tunnel = true
  proxy : cfg.proxy = true
  reads : c.reads = []
  pending : ∃ b, s.pending = some b ∧ b.rest = cfg.request
  process : s.exchange.process = .connectResponse
  exchange : { s.exchange.rewind with process := .statusLine } = Exchange.init cfg
  writing : c.writing = true → c.handshaking = false ∧
    c.sent ++ s.buffer.elim s.chain Buf.rest = ngxJsHttpBuildConnectRequest cfg
  written : c.writing = false → c.sent = ngxJsHttpBuildConnectRequest cfg ∧
    (c.handshaking = false → (s.readBuffer cfg).rest = [])
  handshaking : c.handshaking = true → s.proxyState = .tunnelReady ∧ s.exchange.rewind = s.exchange

/-- What another connection needs. -/
structure Ready (cfg : Config) (s : Http) : Prop where
  chain : s.chain = cfg.request
  pending : s.pending = none
  exchange : { s.exchange with process := .statusLine } = Exchange.init cfg

/-- The invariant. -/
structure Inv (cfg : Config) (s : Http) : Prop where
  direct : cfg.proxy = false → s.proxyState = .direct
  connecting : s.stage = .connecting → Ready cfg s ∧ s.buffer = none
  connected : ∀ c point, s.stage = .connected c point → (Exchanging cfg s c ∨ Tunnelling cfg s c) ∧
      (point = .writing → c.writing = true ∧ c.handshaking = false) ∧
      (point = .reading → c.writing = false)
  delivered : ∀ c response, s.stage = .delivered c response →
    c.sent = c.expected cfg ∧ Delivers cfg c.reads response

theorem Inv.startsAfresh (h : Inv cfg s) : StartsAfresh cfg s := by
  rw [StartsAfresh]
  split
  · next c point hstage =>
    obtain ⟨hx | ht, -⟩ := h.connected c point hstage
    · cases hw : c.writing with
      | true => simpa [Http.unsent, hw, hx.pending] using (hx.writing hw).1
      | false => simpa [Http.unsent, hw, hx.pending] using (hx.written hw).1
    obtain ⟨b, hb, hrest⟩ := ht.pending
    cases hw : c.writing with
    | true =>
      have hsent := (ht.writing hw).2
      simp only [Http.unsent, hw, hb, if_true, Option.elim_some, hrest, Connection.expected,
        ht.tunnel]
      rw [← List.append_assoc, hsent]
    | false =>
      simp [Http.unsent, hw, hb, hrest, Connection.expected, ht.tunnel, (ht.written hw).1]
  · next c response hstage => exact h.delivered c response hstage
  · trivial

theorem init_inv (cfg : Config) : Inv cfg (Http.init cfg) where
  direct _ := rfl
  connecting _ := ⟨⟨rfl, rfl, rfl⟩, rfl⟩
  connected _ _ h := by cases h
  delivered _ _ h := by cases h

theorem error_inv (hdirect : cfg.proxy = false → s.proxyState = .direct) (text : String) :
    Inv cfg (ngxJsHttpError text s) where
  direct := hdirect
  connecting h := by cases h
  connected _ _ h := by cases h
  delivered _ _ h := by cases h

theorem connected_inv {point : Point} (hdirect : cfg.proxy = false → s.proxyState = .direct)
    (hstage : s.stage = .connected c point) (h : Exchanging cfg s c ∨ Tunnelling cfg s c)
    (hwriting : point = .writing → c.writing = true ∧ c.handshaking = false)
    (hreading : point = .reading → c.writing = false) : Inv cfg s where
  direct := hdirect
  connecting h := by
    rw [hstage] at h
    cases h
  connected c' point' h' := by
    obtain ⟨rfl, rfl⟩ := Stage.connected.inj (hstage.symm.trans h')
    exact ⟨h, hwriting, hreading⟩
  delivered _ _ h := by
    rw [hstage] at h
    cases h

/-! ### Connecting -/

theorem next_inv (hdirect : cfg.proxy = false → s.proxyState = .direct)
    (hready : s.naddr + 1 < cfg.naddrs → Ready cfg s) : Inv cfg (ngxJsHttpNext cfg s) := by
  rw [ngxJsHttpNext]
  by_cases hlast : cfg.naddrs ≤ s.naddr + 1
  · rw [if_pos hlast]
    refine error_inv ?_ _
    exact hdirect
  · rw [if_neg hlast]
    obtain ⟨hchain, hpending, hexchange⟩ := hready (not_le.mp hlast)
    exact ⟨hdirect, fun _ => ⟨⟨hchain, hpending, hexchange⟩, rfl⟩, nofun, nofun⟩

theorem ready_of_mayFail (h : Exchanging cfg s c ∨ Tunnelling cfg s c)
    (hfail : mayFail cfg s c = true) : s.naddr + 1 < cfg.naddrs → Ready cfg s := by
  intro hlt
  obtain ⟨htunnel, hreads⟩ : c.tunnel = false ∧ c.reads = [] := by
    simpa [mayFail, Nat.not_le.mpr hlt] using hfail
  rcases h with hx | ht
  · have hexchange : s.exchange = Exchange.init cfg := by
      cases hw : c.writing with
      | true => exact (hx.writing hw).2.2
      | false =>
        have hparsed := (hx.written hw).2
        rw [hreads] at hparsed
        exact congrArg Prod.fst hparsed
    exact ⟨hx.chain htunnel hreads, hx.pending, by rw [hexchange]; rfl⟩
  · rw [ht.tunnel] at htunnel
    cases htunnel

theorem rewind_of_ready (h : Ready cfg s) :
    { ({ s.exchange with process := .connectResponse } : Exchange).rewind with
      process := .statusLine } = Exchange.init cfg :=
  congrArg Exchange.rewind h.exchange

theorem attach_inv (hdirect : cfg.proxy = false → s.proxyState = .direct) (h : Ready cfg s)
    (hbuffer : s.buffer = none) (ssl : Bool) {point : Point} (hpoint : point ≠ .reading) :
    Inv cfg (attach cfg ssl point s) := by
  simp only [attach]
  by_cases htunnel : (cfg.proxy && cfg.ssl && !ssl) = true
  · have hproxy : cfg.proxy = true := by simp_all
    rw [if_pos htunnel, if_neg (by simp [hproxy])]
    refine connected_inv (fun hp => by simp [hproxy] at hp) rfl (.inr ?_) (fun _ => ⟨rfl, rfl⟩)
      (fun hp => absurd hp hpoint)
    exact {
      tunnel := htunnel
      proxy := hproxy
      reads := rfl
      pending := ⟨_, rfl, h.chain⟩
      process := rfl
      exchange := rewind_of_ready h
      writing := fun _ => ⟨rfl, by simp [hbuffer]⟩
      written := nofun
      handshaking := nofun }
  · rw [if_neg htunnel]
    have hstate : cfg.proxy = false →
        (if (cfg.proxy && cfg.ssl && ssl) = true then ProxyState.tunnelReady else s.proxyState) =
          .direct := by
      intro hp
      rw [hp]
      exact hdirect hp
    have hsent : ([] : Bytes) ++ s.buffer.elim s.chain Buf.rest = cfg.request := by
      rw [hbuffer]
      exact h.chain
    have hexpected : ∀ c : Connection, c.tunnel = (cfg.proxy && cfg.ssl && !ssl) →
        c.expected cfg = cfg.request := fun c hc => by
      rw [Connection.expected, hc, if_neg htunnel]
    by_cases hssl : (cfg.ssl && !ssl && !cfg.proxy) = true
    · have hproxy : cfg.proxy = false := by simp_all
      rw [if_pos hssl]
      refine connected_inv hstate rfl (.inl ?_) (by simp) (by simp)
      exact {
        pending := h.pending
        process := nofun
        chain := fun _ _ => h.chain
        handshaking := fun _ => ⟨rfl, hproxy⟩
        writing := fun _ => ⟨hsent.trans (hexpected _ rfl).symm, rfl, h.exchange⟩
        written := nofun }
    rw [if_neg hssl]
    refine connected_inv hstate rfl (.inl ?_) (fun _ => ⟨rfl, rfl⟩)
      (fun hp => absurd hp hpoint)
    exact {
      pending := h.pending
      process := nofun
      chain := fun _ _ => h.chain
      handshaking := nofun
      writing := fun _ => ⟨hsent.trans (hexpected _ rfl).symm, rfl, h.exchange⟩
      written := nofun }

theorem connect_inv (h : Inv cfg s) (hstage : s.stage = .connecting) (peer : Peer) :
    Inv cfg (ngxJsHttpConnect cfg s peer) := by
  obtain ⟨hready, hbuffer⟩ := h.connecting hstage
  cases peer with
  | error => exact error_inv h.direct _
  | declined => exact next_inv h.direct fun _ => hready
  | cached ssl => exact attach_inv h.direct hready hbuffer ssl nofun
  | ok => exact attach_inv h.direct hready hbuffer false nofun
  | again => exact attach_inv h.direct hready hbuffer false nofun

/-! ### Writing -/

theorem writeBuffer_rest (s : Http) :
    (s.buffer.getD (ngxJsChainToBuf s.chain)).rest = s.buffer.elim s.chain Buf.rest := by
  cases s.buffer <;> rfl

theorem sslInit_inv (h : Exchanging cfg s c) (hw : c.writing = true) (hproxy : cfg.proxy = false)
    (hdirect : cfg.proxy = false → s.proxyState = .direct) :
    Inv cfg { s with stage := .connected (ngxJsHttpSslInitConnection c) .waiting } := by
  refine connected_inv hdirect rfl (.inl ?_) nofun nofun
  exact { h with
    handshaking := fun _ => ⟨hw, hproxy⟩
    writing := h.writing
    written := fun hw' => absurd (hw.symm.trans hw') (by simp) }

theorem write_exchanging (h : Exchanging cfg s c) (hw : c.writing = true)
    (hhandshaking : c.handshaking = false) (hdirect : cfg.proxy = false → s.proxyState = .direct)
    (hssl : (cfg.ssl && !c.ssl && !cfg.proxy) = false) (n : ℕ) :
    Inv cfg (ngxJsHttpWriteHandler cfg c s (.bytes n)) := by
  obtain ⟨hsent, hreads, hexchange⟩ := h.writing hw
  simp only [ngxJsHttpWriteHandler, writeBuffer_rest, hssl, Bool.false_eq_true, if_false]
  generalize s.buffer.elim s.chain Buf.rest = rest at hsent ⊢
  split_ifs with hall
  · have htake : rest.take (min n rest.length) = rest := by rw [hall.2, List.take_length]
    refine connected_inv hdirect rfl (.inl { h with
      handshaking := fun hh => absurd (hhandshaking.symm.trans hh) (by simp)
      writing := nofun
      written := fun _ => ⟨?_, ?_⟩ }) nofun nofun
    · rw [htake]
      exact hsent
    · rw [hreads, hexchange]
      rfl
  · refine connected_inv hdirect rfl (.inl { h with
      writing := fun _ => ⟨?_, hreads, hexchange⟩
      written := fun hw' => absurd (hw.symm.trans hw') (by simp) }) nofun nofun
    rw [Option.elim_some, List.append_assoc, List.take_append_drop]
    exact hsent

theorem write_tunnelling (h : Tunnelling cfg s c) (hw : c.writing = true) (n : ℕ) :
    Inv cfg (ngxJsHttpWriteHandler cfg c s (.bytes n)) := by
  obtain ⟨hhandshaking, hsent⟩ := h.writing hw
  have hdirect : cfg.proxy = false → s.proxyState = .direct := fun hp =>
    absurd (h.proxy.symm.trans hp) (by simp)
  simp only [ngxJsHttpWriteHandler, writeBuffer_rest, h.proxy, Bool.not_true, Bool.and_false,
    Bool.false_eq_true, if_false]
  generalize s.buffer.elim s.chain Buf.rest = rest at hsent ⊢
  split_ifs with hall
  · have htake : rest.take (min n rest.length) = rest := by rw [hall.2, List.take_length]
    refine connected_inv hdirect rfl (.inr { h with
      writing := nofun
      written := fun _ => ⟨?_, fun _ => rfl⟩ }) nofun nofun
    rw [htake]
    exact hsent
  · refine connected_inv hdirect rfl (.inr { h with
      writing := fun _ => ⟨hhandshaking, ?_⟩
      written := fun hw' => absurd (hw.symm.trans hw') (by simp) }) nofun nofun
    rw [Option.elim_some, List.append_assoc, List.take_append_drop]
    exact hsent

theorem write_inv (h : Exchanging cfg s c ∨ Tunnelling cfg s c)
    (hw : c.writing = true) (hhandshaking : c.handshaking = false)
    (hdirect : cfg.proxy = false → s.proxyState = .direct) {sent : Sent}
    (hfail : sent = .error → mayFail cfg s c = true) :
    Inv cfg (ngxJsHttpWriteHandler cfg c s sent) := by
  cases hssl : cfg.ssl && !c.ssl && !cfg.proxy with
  | true =>
    have hproxy : cfg.proxy = false := by simp_all
    rw [ngxJsHttpWriteHandler, if_pos hssl]
    rcases h with hx | ht
    · exact sslInit_inv hx hw hproxy hdirect
    · exact absurd (ht.proxy.symm.trans hproxy) (by simp)
  | false =>
    cases sent with
    | bytes n =>
      rcases h with hx | ht
      · exact write_exchanging hx hw hhandshaking hdirect hssl n
      · exact write_tunnelling ht hw n
    | error =>
      rw [ngxJsHttpWriteHandler, if_neg (by simp [hssl])]
      refine next_inv hdirect fun hlt => ?_
      obtain ⟨hchain, hpending, hexchange⟩ := ready_of_mayFail h (hfail rfl) hlt
      exact ⟨hchain, hpending, hexchange⟩

/-! ### Reading -/

theorem process_response (hx : s.exchange.process ≠ .connectResponse) (b : Buf) :
    ngxJsHttpProcess cfg c s b =
      match processResponse cfg s.exchange b with
      | .error e => .error e
      | .ok (rc, exchange, b) =>
        .ok (rc, c, { s with
          exchange
          buffer := some b
          chain := if exchange.process = .body then [] else s.chain }) := by
  rw [ngxJsHttpProcess]
  split
  · next hprocess => exact absurd hprocess hx
  · rfl

theorem readDone_exchanging (h : Exchanging cfg s c) (hw : c.writing = false)
    (hdirect : cfg.proxy = false → s.proxyState = .direct) : Inv cfg (readDone cfg c s) := by
  obtain ⟨hsent, hparsed⟩ := h.written hw
  have hexchange : s.exchange = (parsed cfg c.reads).1 := congrArg Prod.fst hparsed
  have hbuffer : s.readBuffer cfg = (parsed cfg c.reads).2 := congrArg Prod.snd hparsed
  rw [readDone, process_response (s := { s with exchange := s.exchange.setDone }) h.process]
  rcases hr : processResponse cfg s.exchange.setDone (s.readBuffer cfg) with e | ⟨rc, exchange, b⟩
  · exact error_inv hdirect e
  cases rc with
  | done =>
    refine ⟨hdirect, nofun, nofun, fun c' response hstage => ?_⟩
    obtain ⟨rfl, rfl⟩ := Stage.delivered.inj hstage
    rw [hexchange, hbuffer] at hr
    exact ⟨hsent, exchange, b, hr, rfl⟩
  | again =>
    refine error_inv ?_ _
    exact hdirect
  | ok => exact absurd rfl ((processResponse_keeps (x := s.exchange.setDone) h.process hr).2 rfl)

theorem readDone_nil (hprocess : s.exchange.process = .statusLine ∨
    s.exchange.process = .connectResponse) (hrest : (s.readBuffer cfg).rest = [])
    (hdirect : cfg.proxy = false → s.proxyState = .direct) : Inv cfg (readDone cfg c s) := by
  obtain ⟨⟨x, b⟩, hr⟩ := parseStatusLine_nil (x := s.exchange.setDone) hrest
  rcases hprocess with hp | hp
  · have hp' : s.exchange.setDone.process = .statusLine := hp
    have hstatus : processResponse cfg s.exchange.setDone (s.readBuffer cfg) =
        .ok (.again, x, b) := by
      simp only [processResponse, hp', ngxJsHttpProcessStatusLine, hr]
    rw [readDone, process_response (s := { s with exchange := s.exchange.setDone }) (by simp [hp'])]
    simp only [hstatus]
    refine error_inv ?_ _
    exact hdirect
  · have hp' : s.exchange.setDone.process = .connectResponse := hp
    have hconnect : processConnectResponse s.exchange.setDone (s.readBuffer cfg) =
        .ok (.again, x, b) := by
      simp only [processConnectResponse, hr]
    simp only [readDone, ngxJsHttpProcess, hp', hconnect]
    refine error_inv ?_ _
    exact hdirect

theorem parsed_append (cfg : Config) (reads : List Bytes) (d : Bytes) :
    parsed cfg (reads ++ [d]) = received cfg (parsed cfg reads) d := by
  rw [parsed, List.foldl_append]
  rfl

theorem data_exchanging (h : Exchanging cfg s c) (hw : c.writing = false)
    (hhandshaking : c.handshaking = false)
    (hdirect : cfg.proxy = false → s.proxyState = .direct) (d : Bytes) :
    Inv cfg (ngxJsHttpReadHandler cfg c s (.data d)) := by
  obtain ⟨hsent, hparsed⟩ := h.written hw
  simp only [ngxJsHttpReadHandler]
  generalize d.take (s.readBuffer cfg).room = d
  split_ifs with hd hconnect
  · exact readDone_exchanging h hw hdirect
  · exact absurd hconnect h.process
  rw [process_response h.process]
  rcases hr : processResponse cfg s.exchange ((s.readBuffer cfg).receive d) with
    e | ⟨rc, exchange, b⟩
  · exact error_inv hdirect e
  have hreceived : (exchange, b) = parsed cfg (c.reads ++ [d]) := by
    rw [parsed_append, ← hparsed, received, hr]
  have hx : Exchanging cfg { s with
        exchange
        buffer := some b
        chain := if exchange.process = .body then [] else s.chain }
      { c with reads := c.reads ++ [d] } := {
    pending := h.pending
    process := (processResponse_keeps h.process hr).1
    chain := fun _ hreads => absurd hreads (by simp)
    handshaking := fun hh => absurd (hhandshaking.symm.trans hh) (by simp)
    writing := fun hw' => absurd (hw.symm.trans hw') (by simp)
    written := fun _ => ⟨hsent, hreceived⟩ }
  have hreading : Inv cfg { s with
        exchange
        buffer := some b
        chain := if exchange.process = .body then [] else s.chain
        stage := .connected { c with reads := c.reads ++ [d] } .reading } :=
    connected_inv hdirect rfl (.inl { hx with written := hx.written }) nofun fun _ => hw
  cases rc with
  | done => exact readDone_exchanging hx hw hdirect
  | again => exact hreading
  | ok => exact hreading

theorem data_tunnelling (h : Tunnelling cfg s c) (hw : c.writing = false)
    (hhandshaking : c.handshaking = false) (d : Bytes) :
    Inv cfg (ngxJsHttpReadHandler cfg c s (.data d)) := by
  obtain ⟨hsent, hrest⟩ := h.written hw
  have hdirect : cfg.proxy = false → s.proxyState = .direct := fun hp =>
    absurd (h.proxy.symm.trans hp) (by simp)
  simp only [ngxJsHttpReadHandler, h.process, if_true]
  generalize d.take (s.readBuffer cfg).room = d
  split_ifs with hd
  · exact readDone_nil (.inr h.process) (hrest hhandshaking) hdirect
  simp only [ngxJsHttpProcess, h.process]
  rcases hr : processConnectResponse s.exchange ((s.readBuffer cfg).receive d) with
    e | ⟨rc, exchange, b⟩
  · exact error_inv hdirect e
  obtain ⟨hrewind, hrc⟩ := processConnect_keeps hr
  have hprocess : exchange.process = .connectResponse :=
    (congrArg Exchange.process hrewind).trans h.process
  rcases hrc with ⟨rfl, hb⟩ | rfl
  · refine connected_inv hdirect rfl (.inr { h with
      process := hprocess
      exchange := ?_
      writing := fun hw' => absurd (hw.symm.trans hw') (by simp)
      written := fun _ => ⟨hsent, fun _ => hb⟩
      handshaking := fun hh => absurd (hhandshaking.symm.trans hh) (by simp) }) nofun
      fun _ => hw
    rw [hrewind]
    exact h.exchange
  have hproxy : cfg.proxy = false → ProxyState.tunnelReady = .direct := fun hp =>
    absurd (h.proxy.symm.trans hp) (by simp)
  cases hssl : cfg.ssl with
  | false => exact error_inv hdirect _
  | true =>
    refine connected_inv hproxy rfl (.inr { h with
      process := hprocess
      exchange := ?_
      writing := fun hw' => absurd (hw.symm.trans hw') (by simp)
      written := fun _ => ⟨hsent, nofun⟩
      handshaking := fun _ => ⟨rfl, rfl⟩ }) nofun fun _ => hw
    exact (congrArg (fun x => { x with process := .statusLine }) hrewind).trans h.exchange

theorem recv_inv (h : Exchanging cfg s c ∨ Tunnelling cfg s c)
    (hdirect : cfg.proxy = false → s.proxyState = .direct) {point : Point} {recv : Recv}
    (hstage : s.stage = .connected c point) (henabled : enabled s (.recv recv) = true)
    (horderly : orderly cfg s (.recv recv) = true) :
    Inv cfg (ngxJsHttpReadHandler cfg c s recv) := by
  cases recv with
  | error =>
    have hfail : mayFail cfg s c = true := by simpa [orderly, henabled, hstage] using horderly
    refine next_inv hdirect fun hlt => ?_
    obtain ⟨hchain, hpending, hexchange⟩ := ready_of_mayFail h hfail hlt
    exact ⟨hchain, hpending, hexchange⟩
  | data d =>
    obtain ⟨hw, hhandshaking⟩ : c.writing = false ∧ c.handshaking = false := by
      simpa [orderly, henabled, hstage] using horderly
    rcases h with hx | ht
    · exact data_exchanging hx hw hhandshaking hdirect d
    · exact data_tunnelling ht hw hhandshaking d
  | eof =>
    have hcond : (c.writing = false ∧ c.handshaking = false) ∨ (s.readBuffer cfg).rest = [] := by
      simpa [orderly, henabled, hstage] using horderly
    rw [ngxJsHttpReadHandler]
    rcases h with hx | ht
    · cases hw : c.writing with
      | false => exact readDone_exchanging hx hw hdirect
      | true =>
        have hprocess : s.exchange.process = .statusLine := by rw [(hx.writing hw).2.2]; rfl
        exact readDone_nil (.inl hprocess) (hcond.resolve_left (by simp [hw])) hdirect
    · refine readDone_nil (.inr ht.process) ?_ hdirect
      rcases hcond with ⟨hw, hhandshaking⟩ | hrest
      · exact (ht.written hw).2 hhandshaking
      · exact hrest
  | again =>
    have hcond : c.writing = false ∨ s.buffer.isSome = true := by
      simpa [orderly, henabled, hstage] using horderly
    have hbuffer : c.writing = true → (some (s.readBuffer cfg)).elim s.chain Buf.rest =
        s.buffer.elim s.chain Buf.rest := fun hw => by
      obtain ⟨b, hb⟩ := Option.isSome_iff_exists.mp (hcond.resolve_left (by simp [hw]))
      rw [Http.readBuffer, hb]
      rfl
    simp only [ngxJsHttpReadHandler]
    refine connected_inv hdirect rfl ?_ nofun nofun
    rcases h with hx | ht
    · refine .inl { hx with
        writing := fun hw => ?_
        written := fun hw => hx.written hw }
      rw [hbuffer hw]
      exact hx.writing hw
    · refine .inr { ht with
        writing := fun hw => ?_
        written := fun hw => ht.written hw }
      rw [hbuffer hw]
      exact ht.writing hw

/-! ### Handshakes -/

theorem handshake_inv (h : Exchanging cfg s c ∨ Tunnelling cfg s c)
    (hhandshaking : c.handshaking = true)
    (hdirect : cfg.proxy = false → s.proxyState = .direct) {ok : Bool}
    (hfail : ok = false → mayFail cfg s c = true) :
    Inv cfg (ngxJsHttpSslHandshake cfg c s ok) := by
  cases ok with
  | false =>
    refine next_inv hdirect (ready_of_mayFail h (hfail rfl))
  | true =>
    simp only [ngxJsHttpSslHandshake, if_true]
    rcases h with hx | ht
    · obtain ⟨hw, hproxy⟩ := hx.handshaking hhandshaking
      obtain ⟨hsent, hreads, hexchange⟩ := hx.writing hw
      rw [if_neg (by rw [hdirect hproxy]; simp)]
      exact connected_inv hdirect rfl (.inl {
        pending := hx.pending
        process := nofun
        chain := hx.chain
        handshaking := nofun
        writing := fun _ => ⟨hsent, hreads, by rw [hexchange]; rfl⟩
        written := nofun }) (fun _ => ⟨rfl, rfl⟩) nofun
    obtain ⟨hready, hrewind⟩ := ht.handshaking hhandshaking
    have hproxy : cfg.proxy = false → ProxyState.originRequestSent = .direct := fun hp =>
      absurd (ht.proxy.symm.trans hp) (by simp)
    have hw : c.writing = false := by
      cases hw : c.writing with
      | false => rfl
      | true => exact absurd (hhandshaking.symm.trans (ht.writing hw).1) (by simp)
    obtain ⟨b, hb, hrest⟩ := ht.pending
    rw [if_pos hready]
    refine connected_inv hproxy rfl (.inl {
      pending := rfl
      process := nofun
      chain := fun htunnel => absurd (ht.tunnel.symm.trans htunnel) (by simp)
      handshaking := nofun
      writing := fun _ => ⟨?_, ht.reads, ?_⟩
      written := nofun }) (fun _ => ⟨rfl, rfl⟩) nofun
    · simp only [hb, Option.elim_some, hrest, (ht.written hw).1, Connection.expected, ht.tunnel,
        if_true]
    · rw [← hrewind]
      exact ht.exchange

/-! ### Runs -/

theorem step_inv (h : Inv cfg s) {e : Event} (horderly : orderly cfg s e = true) :
    Inv cfg (step cfg s e) := by
  rw [step]
  by_cases henabled : enabled s e = true
  · rw [if_pos henabled]
    rcases hstage : s.stage with _ | ⟨c, point⟩ | text | ⟨c, response⟩
    · cases e <;> simp [enabled, hstage] at henabled
      simp only [handle, hstage]
      exact connect_inv h hstage _
    · obtain ⟨hphase, hpoint, -⟩ := h.connected c point hstage
      simp only [handle, hstage]
      cases e with
      | connect peer => simp [enabled, hstage] at henabled
      | write sent =>
        obtain ⟨hw, hhandshaking⟩ : c.writing = true ∧ c.handshaking = false := by
          cases point with
          | writing => exact hpoint rfl
          | waiting => simpa [enabled, hstage] using henabled
          | reading => simp [enabled, hstage] at henabled
        refine write_inv hphase hw hhandshaking h.direct ?_
        rintro rfl
        simpa [orderly, henabled, hstage] using horderly
      | recv recv => exact recv_inv hphase h.direct hstage henabled horderly
      | handshake ok =>
        have hhandshaking : c.handshaking = true := by
          cases point <;> simp [enabled, hstage] at henabled
          exact henabled
        refine handshake_inv hphase hhandshaking h.direct ?_
        rintro rfl
        simpa [orderly, henabled, hstage] using horderly
      | writeTimedout => exact error_inv h.direct _
      | readTimedout => exact error_inv h.direct _
    · simp [enabled, hstage] at henabled
    · simp [enabled, hstage] at henabled
  · rw [if_neg henabled]
    exact h

/-- In a run of orderly steps every connection starts afresh. -/
theorem failover_run (cfg : Config) (events : List Event)
    (horderly : Runs.AllSteps (step cfg) (fun s e => orderly cfg s e = true) (Http.init cfg)
      events) :
    StartsAfresh cfg (events.foldl (step cfg) (Http.init cfg)) := by
  have hinv : Inv cfg (events.foldl (step cfg) (Http.init cfg)) :=
    Runs.foldl_of_allSteps (I := Inv cfg) (fun _ _ h he => step_inv h he) (init_inv cfg) horderly
  exact hinv.startsAfresh

/-- Digits, as `ngx_atoof` reads them. -/
def digitsOnly (s : Bytes) : Option ℕ :=
  if s = [] then none else Http.decimalFrom 0 s

/-- A request to a server with three addresses. -/
def plainRequest : Config where
  naddrs := 3
  ssl := false
  proxy := false
  host := lit "example.com"
  port := 80
  auth := []
  request := lit "GET / HTTP/1.1\r\n\r\n"
  bufferSize := 64
  maxResponseBodySize := 64
  headerOnly := false
  keepalive := false
  ngxAtoof := digitsOnly

/-- One server is not there, one stops reading, and one answers. -/
def twoFailures : List Event :=
  [.connect .declined, .connect .again, .write (.bytes 5), .write .error, .connect .ok,
    .write (.bytes 7), .write (.bytes 11), .recv (.data (lit "HTTP/1.1 200")), .recv .again,
    .recv (.data (lit " OK\n\nhello")), .recv .eof]

theorem failover_run_delivered :
    Runs.AllSteps (step plainRequest) (fun s e => orderly plainRequest s e = true)
        (Http.init plainRequest) twoFailures ∧
      StartsAfresh plainRequest (twoFailures.foldl (step plainRequest) (Http.init plainRequest)) :=
  ⟨by decide, failover_run plainRequest twoFailures (by decide +kernel)⟩

def proxyRequest : Config :=
  { plainRequest with naddrs := 2, ssl := true, proxy := true, port := 443 }

/-- The first connection to the proxy breaks: the request for a tunnel is sent twice on the other
one, and the request is lost. -/
theorem not_failover_run_tunnel :
    ¬ ∀ (cfg : Config) (events : List Event),
      StartsAfresh cfg (events.foldl (step cfg) (Http.init cfg)) := by
  intro h
  have hsent : ([] : Bytes) ++ (ngxJsHttpBuildConnectRequest proxyRequest ++
      ngxJsHttpBuildConnectRequest proxyRequest) =
        ngxJsHttpBuildConnectRequest proxyRequest ++ proxyRequest.request :=
    h proxyRequest [.connect .ok, .write .error, .connect .ok]
  have hlast := congrArg (fun l : Bytes => l.length) hsent
  revert hlast
  decide

end Njs.HttpExchange
