import Njs.Fetch.RequestSent

/-!
# Requests of scripts

What a script gives to `fetch`, after any operations on Headers objects and any constructors, and
when it is sent as it is given.
-/

open Http (fold strip isTchar isTargetChar crlf joinLines fieldLines Readable)

namespace Njs.Fetch

open Text Decimal

/-! ### What is given -/

/-- The Headers object of the request that is given. -/
def origHeaders (s : Script) : Input → Option ℕ
  | .request this => s.requests[this]?.map Prod.snd
  | _ => none

def initHeaders (init : Option RequestInit) : Option Init := init.bind fun i => i.headers.join

def stringBody (init : Option RequestInit) : Bool := init.any fun i => i.body.any Prod.snd

/-- The header list that is given: a Headers object, or one that is made of an array or an object.
-/
def givenHeaders (s : Script) (input : Input) (init : Option RequestInit) : Headers :=
  match initHeaders init with
  | some (.headers this) => s.world.objects[this]?.getD { guard := .none }
  | some init =>
    (ngxJsHeadersFill s.world.objects { guard := .request } init).toOption.getD { guard := .none }
  | none =>
    ((origHeaders s input).bind fun this => s.world.objects[this]?).getD { guard := .none }

def givenRequest (s : Script) : Input → Request
  | .string url => { url := url }
  | .request this => (s.requests[this]?.map Prod.fst).getD { url := [] }
  | _ => { url := [] }

def upper (c : UInt8) : UInt8 := if chr 'a' ≤ c ∧ c ≤ chr 'z' then c - 0x20 else c

/-- A method; six of them are written in upper case. -/
def normalMethod (method : Bytes) : Bytes :=
  if method.map upper ∈ toNormalize.map lit then method.map upper else method

def givenMethod (s : Script) (input : Input) (init : Option RequestInit) : Bytes :=
  let method := (givenRequest s input).method
  init.elim method fun i => normalMethod (i.method.getD method)

def givenBody (s : Script) (input : Input) (init : Option RequestInit) : Bytes :=
  ((init.bind RequestInit.body).map Prod.fst).getD (givenRequest s input).body

/-- The URL that is given, with the default port of its schema. -/
def givenUrl (parseUrl : ParseUrl) (s : Script) (input : Input) : Option (Url × ℕ) :=
  (splitSchema (ngxJsHttpTrim (givenRequest s input).url true)).bind fun p =>
    (parseUrl p.1 p.2).map fun u => (u, p.2)

def given (conf : Conf) (s : Script) (input : Input) (init : Option RequestInit) (u : Url)
    (defaultPort : ℕ) : Given where
  method := givenMethod s input init
  u := u
  defaultPort := defaultPort
  body := givenBody s input init
  stringBody := stringBody init
  headers := givenHeaders s input init
  keepalive := conf.keeps defaultPort init
  isProxy := conf.isProxy defaultPort
  proxyAuth := conf.proxyAuth

/-! ### Methods -/

theorem upper_eq_iff (c : UInt8) :
    ∀ u ∈ lit "ABCDEFGHIJKLMNOPQRSTUVWXYZ", Http.lower c = Http.lower u ↔ upper c = u := by
  have hall : (lit "ABCDEFGHIJKLMNOPQRSTUVWXYZ").all
      (fun u => decide (Http.lower c = Http.lower u ↔ upper c = u)) = true := by
    revert c
    exact forall_byte (by decide)
  simpa only [List.all_eq_true, decide_eq_true_eq] using hall

theorem fold_eq_iff {m : Bytes} (hm : ∀ u ∈ m, u ∈ lit "ABCDEFGHIJKLMNOPQRSTUVWXYZ")
    (method : Bytes) : fold method = fold m ↔ method.map upper = m := by
  induction m generalizing method with
  | nil => simp [fold]
  | cons u m ih =>
    cases method with
    | nil => simp [fold]
    | cons c method =>
      have hrest := ih (fun v hv => hm v (List.mem_cons_of_mem u hv)) method
      rw [fold, fold] at hrest ⊢
      rw [List.map_cons, List.map_cons, List.map_cons, List.cons.injEq, List.cons.injEq, hrest,
        upper_eq_iff c u (hm u List.mem_cons_self)]

theorem find?_toNormalize (method : Bytes) :
    ((toNormalize.find? fun m => sameName method (lit m)).map lit).getD method =
      normalMethod method := by
  have hletters : ∀ m ∈ toNormalize, ∀ u ∈ lit m, u ∈ lit "ABCDEFGHIJKLMNOPQRSTUVWXYZ" := by
    have hall : toNormalize.all (fun m => (lit m).all
        (lit "ABCDEFGHIJKLMNOPQRSTUVWXYZ").contains) = true := by rfl
    simpa only [List.all_eq_true, List.contains_iff_mem] using hall
  have htoken : ∀ m ∈ toNormalize, (lit m).all isTchar = true := by decide
  have hsame : ∀ m ∈ toNormalize,
      sameName method (lit m) = true ↔ method.map upper = lit m := fun m hm => by
    rw [sameName_iff (htoken m hm), fold_eq_iff (hletters m hm)]
  rw [normalMethod]
  cases hfind : toNormalize.find? fun m => sameName method (lit m) with
  | none =>
    rw [if_neg]
    · rfl
    · intro hmem
      obtain ⟨m, hm, heq⟩ := List.mem_map.mp hmem
      exact List.find?_eq_none.mp hfind m hm ((hsame m hm).mpr heq.symm)
  | some m =>
    have hm := List.mem_of_find?_eq_some hfind
    have heq := (hsame m hm).mp (List.find?_some (p := fun m => sameName method (lit m)) hfind)
    rw [if_pos (heq ▸ List.mem_map_of_mem hm), heq]
    rfl

theorem methodProcess_eq {method method' : Bytes} (h : ngxJsMethodProcess method = .ok method') :
    method' = normalMethod method := by
  rw [ngxJsMethodProcess] at h
  split_ifs at h
  split at h
  · cases h
  · rw [← find?_toNormalize]
    exact (Except.ok.inj h).symm

/-! ### Headers -/

theorem appendAll_pairs {h h' : HeaderList} {pairs : List (Bytes × Bytes)}
    (happ : h.appendAll pairs = .ok h') :
    h'.pairs = h.pairs ++ pairs.map fun p => (p.1, strip p.2) := by
  induction pairs generalizing h with
  | nil =>
    cases happ
    rw [List.map_nil, List.append_nil]
  | cons p pairs ih =>
    rw [HeaderList.appendAll, List.foldlM_cons] at happ
    obtain ⟨x, hx, happ⟩ := bind_eq_ok happ
    rw [HeaderList.append] at hx
    cases hcheck : h.check p.1 p.2 with
    | error msg =>
      rw [hcheck] at hx
      cases hx
    | ok _ =>
      rw [hcheck] at hx
      cases hx
      rw [ih happ]
      simp

variable {h : Headers} {init : Option RequestInit} {s : Script} {input : Input}
  {parseUrl : ParseUrl}

theorem Simulates.ok_left {r : Except String HeaderList} (hsim : Simulates (.ok h) r) :
    h.Ok ∧ r = .ok h.toList := by
  match r, hsim with
  | .ok l, ⟨ok, hl⟩ => exact ⟨ok, hl ▸ rfl⟩

theorem Headers.Ok.map_strip (ok : h.Ok) :
    (pairsOf h.list).map (fun p => (p.1, strip p.2)) = pairsOf h.list := by
  refine (List.map_congr_left fun p hp => ?_).trans (List.map_id _)
  obtain ⟨x, hx, rfl⟩ := List.mem_map.mp hp
  obtain ⟨hx, hhash⟩ := List.mem_filter.mp hx
  exact congrArg (Prod.mk x.key) (ok.values x hx hhash).1

theorem inherit_pairs {h' orig : Headers} (ok : h.Ok)
    (hinherit : ngxJsHeadersInherit h orig = .ok h') :
    h'.Ok ∧ pairsOf h'.list =
      pairsOf h.list ++ (pairsOf orig.list).map fun p => (p.1, strip p.2) := by
  have hsim := ok.inherit orig
  rw [hinherit] at hsim
  obtain ⟨ok', happ⟩ := hsim.ok_left
  exact ⟨ok', appendAll_pairs happ⟩

theorem inheritOrig_pairs {objects : List Headers} {orig : Option ℕ}
    (horig : inheritOrig objects orig = .ok h) :
    h.Ok ∧ pairsOf h.list =
      (pairsOf ((orig.bind fun this => objects[this]?).getD { guard := .none }).list).map
        fun p => (p.1, strip p.2) := by
  rw [inheritOrig] at horig
  cases hget : orig.bind fun this => objects[this]? with
  | none =>
    rw [hget] at horig
    cases horig
    exact ⟨Headers.Ok.empty .request, rfl⟩
  | some x =>
    rw [hget] at horig
    exact inherit_pairs (Headers.Ok.empty .request) horig

theorem fill_ok {objects : List Headers} {init : Init}
    (hfill : ngxJsHeadersFill objects { guard := .request } init = .ok h) : h.Ok := by
  have hsim := (Headers.Ok.empty .request).fill objects init
  rw [hfill] at hsim
  exact hsim.ok_left.1

theorem requestHeaders_pairs
    (hreq : requestHeaders s.world.objects (origHeaders s input) (initHeaders init) (stringBody
      init) = .ok h) :
    h.Ok ∧ pairsOf h.list =
      (pairsOf (givenHeaders s input init).list).map (fun p => (p.1, strip p.2)) ++
        if Multimap.values fold (lit "Content-Type")
            (pairsOf (givenHeaders s input init).list) = [] ∧ stringBody init = true then
          [(lit "Content-Type", lit "text/plain;charset=UTF-8")]
        else [] := by
  obtain ⟨h₁, horig, hreq⟩ := bind_eq_ok hreq
  obtain ⟨h₂, hinit, htype⟩ := bind_eq_ok hreq
  obtain ⟨ok₂, hpairs⟩ : h₂.Ok ∧ pairsOf h₂.list =
      (pairsOf (givenHeaders s input init).list).map fun p => (p.1, strip p.2) := by
    rw [givenHeaders]
    cases hheaders : initHeaders init with
    | none =>
      rw [hheaders] at hinit
      cases hinit
      exact inheritOrig_pairs horig
    | some i =>
      rw [hheaders] at hinit
      have ok₂ : h₂.Ok := fill_ok hinit
      cases i with
      | headers this =>
        have hfill : inheritOrig s.world.objects (some this) = .ok h₂ := by
          rw [← hinit]
          show _ = ngxJsHeadersFill s.world.objects { guard := .request } (.headers this)
          rw [inheritOrig, ngxJsHeadersFill, Option.bind_some]
          cases s.world.objects[this]? <;> rfl
        exact inheritOrig_pairs hfill
      | array rows =>
        have hfill : ngxJsHeadersFill s.world.objects { guard := .request } (.array rows) =
          .ok h₂ := hinit
        refine ⟨ok₂, ?_⟩
        simp only [hfill]
        exact ok₂.map_strip.symm
      | object members =>
        have hfill : ngxJsHeadersFill s.world.objects { guard := .request } (.object members) =
          .ok h₂ := hinit
        refine ⟨ok₂, ?_⟩
        simp only [hfill]
        exact ok₂.map_strip.symm
  have hnone : (h₂.contentType = none) = (Multimap.values fold (lit "Content-Type")
        (pairsOf (givenHeaders s input init).list) = []) := by
    rw [ok₂.contentType, positions_eq_nil ok₂.tokens, hpairs, Multimap.values_eq_nil,
      Multimap.values_eq_nil, List.forall_mem_map]
  rw [appendContentType] at htype
  simp only [hnone, Bool.and_eq_true, decide_eq_true_eq] at htype
  split_ifs at htype with hcond
  · have hsim := ok₂.append (lit "Content-Type") (lit "text/plain;charset=UTF-8")
    rw [htype] at hsim
    obtain ⟨ok, happ⟩ := hsim.ok_left
    refine ⟨ok, ?_⟩
    have hall : h₂.toList.appendAll [(lit "Content-Type", lit "text/plain;charset=UTF-8")] =
        .ok h.toList := by
      rw [HeaderList.appendAll, List.foldlM_cons, happ]
      rfl
    have hlist := appendAll_pairs hall
    rw [if_pos hcond, ← hpairs]
    exact hlist
  · cases htype
    rw [if_neg hcond, List.append_nil]
    exact ⟨ok₂, hpairs⟩

/-! ### Calls -/

theorem constructor_ok {kind : Kind} {u : Url} {defaultPort : ℕ} {request : Request}
    {headers : Headers}
    (h : ngxJsRequestConstructor kind parseUrl s input init = .ok ((u, defaultPort), request,
      headers)) :
    givenUrl parseUrl s input = some (u, defaultPort) ∧
      request.method = givenMethod s input init ∧ request.body = givenBody s input init ∧
      requestHeaders s.world.objects (origHeaders s input) (initHeaders init) (stringBody init) =
        .ok headers := by
  obtain ⟨⟨request₀, headers₀⟩, hinput, h⟩ := bind_eq_ok h
  have hgiven : request₀ = givenRequest s input ∧
      inheritOrig s.world.objects (origHeaders s input) = .ok headers₀ := by
    cases input with
    | undefined => cases hinput
    | other => cases hinput
    | string url =>
      cases hinput
      exact ⟨rfl, rfl⟩
    | request this =>
      rw [constructInput] at hinput
      cases hget : s.requests[this]? with
      | none =>
        rw [hget] at hinput
        cases hinput
      | some orig =>
        rw [hget] at hinput
        simp only at hinput
        cases horig : inheritOrig s.world.objects (some orig.2) with
        | error msg =>
          rw [horig] at hinput
          cases hinput
        | ok x =>
          rw [horig] at hinput
          cases hinput
          exact ⟨by rw [givenRequest, hget]; rfl, by rw [origHeaders, hget]; exact horig⟩
  obtain ⟨rfl, horig⟩ := hgiven
  simp only at h
  split at h
  · cases h
  rename_i url port hsplit
  split at h
  · cases h
  rename_i u' hparse
  obtain ⟨⟨request', headers'⟩, hinit, h⟩ := bind_eq_ok h
  cases h
  refine ⟨by rw [givenUrl, hsplit, Option.bind_some, hparse]; rfl, ?_⟩
  cases init with
  | none =>
    cases hinit
    refine ⟨rfl, rfl, ?_⟩
    rw [requestHeaders, horig]
    show appendContentType headers false = _
    rw [appendContentType, Bool.and_false]
    rfl
  | some init =>
    obtain ⟨method, hmethod, hinit⟩ := bind_eq_ok hinit
    obtain ⟨cacheMode, -, hinit⟩ := bind_eq_ok hinit
    obtain ⟨credentials, -, hinit⟩ := bind_eq_ok hinit
    obtain ⟨mode, -, hinit⟩ := bind_eq_ok hinit
    obtain ⟨headers₁, hheaders, hinit⟩ := bind_eq_ok hinit
    obtain ⟨headers₂, htype, hinit⟩ := bind_eq_ok hinit
    cases hinit
    refine ⟨methodProcess_eq hmethod, rfl, ?_⟩
    have hfill : fillInit s.world.objects headers₀ init.headers.join = .ok headers₁ := by
      revert hheaders
      rcases init.headers with _ | _ | i
      · exact id
      · intro hheaders
        cases hheaders
      · exact id
    rw [requestHeaders, horig]
    show (fillInit s.world.objects headers₀ init.headers.join).bind _ = _
    rw [hfill]
    exact htype

theorem fetch_ok {kind : Kind} {conf : Conf} {bytes : Bytes}
    (h : ngxJsExtFetch kind parseUrl conf s input init = .ok bytes) :
    ∃ (u : Url) (defaultPort : ℕ) (request : Request) (headers : Headers),
      ngxJsRequestConstructor kind parseUrl s input init =
        .ok ((u, defaultPort), request, headers) ∧
      ngxJsCheckRequestLineComponent u.uri = true ∧
      bytes = ngxJsFetchBuildRequest
        ⟨u, defaultPort, conf.keeps defaultPort init, conf.proxyAuth⟩ request headers.list u.uri
        (conf.isProxy defaultPort) := by
  obtain ⟨⟨⟨u, defaultPort⟩, request, headers⟩, hcons, h⟩ := bind_eq_ok h
  simp only at h
  split_ifs at h with _ _ huri
  cases h
  exact ⟨u, defaultPort, request, headers, hcons, Bool.not_eq_false _ ▸ huri, rfl⟩

theorem checkRequestLineComponent_eq (value : Bytes) :
    ngxJsCheckRequestLineComponent value = value.all isTargetChar := by
  have hchar : ∀ c : UInt8, (!(c ≤ 0x20 || c = 0x7f)) = isTargetChar c :=
    forall_byte (p := fun c => (!(c ≤ 0x20 || c = 0x7f)) = isTargetChar c) (by decide)
  exact congrArg value.all (funext hchar)

theorem run_forward (e : Engine) (parseUrl : ParseUrl) (acts : List Act) :
    (Script.run e parseUrl acts).world.Forward := by
  have hstep : ∀ (s : Script) (act : Act), s.world.Forward →
      (s.step e parseUrl act).world.Forward := by
    intro s act hs
    cases act with
    | headers op => exact step_forward e hs op
    | newRequest input init =>
      rw [Script.step]
      split
      · exact hs
      rename_i u request headers hcons
      intro h hh
      obtain hh | hh := List.mem_append.mp hh
      · exact hs h hh
      · obtain rfl := List.mem_singleton.mp hh
        exact forward_request (constructor_ok hcons).2.2.2
  refine List.foldlRecOn acts _ (fun h hh => nomatch hh) fun s hs act _ => hstep s act hs

theorem givenHeaders_forward (hs : s.world.Forward) (input : Input) (init : Option RequestInit) :
    Forward (givenHeaders s input init).list := by
  have hget : ∀ o : Option Headers, (∀ h ∈ o, Forward h.list) →
      Forward (o.getD { guard := .none }).list := by
    intro o ho
    cases o with
    | none => exact forward_empty .none
    | some h => exact ho h rfl
  have hobject : ∀ (this : ℕ) (h : Headers), s.world.objects[this]? = some h → Forward h.list :=
    fun this h hh =>
    hs h (List.mem_of_getElem? hh)
  have hfill : ∀ (init : Init) (h : Headers), (ngxJsHeadersFill s.world.objects { guard :=
    .request } init).toOption = some h → Forward h.list := by
    intro init h hh
    cases hr : ngxJsHeadersFill s.world.objects { guard := .request } init with
    | error msg =>
      rw [hr] at hh
      cases hh
    | ok x =>
      rw [hr] at hh
      cases hh
      exact forward_fill (forward_empty .request) hr
  rw [givenHeaders]
  split
  · exact hget _ (hobject _)
  · exact hget _ (hfill _)
  · refine hget _ fun h hh => ?_
    obtain ⟨this, -, hh⟩ := Option.bind_eq_some_iff.mp hh
    exact hobject this h hh

theorem fetch_given {kind : Kind} {conf : Conf} (hs : s.world.Forward) {bytes : Bytes}
    (h : ngxJsExtFetch kind parseUrl conf s input init = .ok bytes) :
    ∃ (u : Url) (defaultPort : ℕ) (g : Given), givenUrl parseUrl s input = some (u, defaultPort) ∧
        g = given conf s input init u defaultPort ∧ g.Accepted ∧
        bytes = g.method ++ lit " " ++ g.target ++ lit " HTTP/1.1" ++ crlf ++
          (joinLines (fieldLines g.sentFields) ++ (crlf ++ g.body)) := by
  obtain ⟨u, defaultPort, request, headers, hcons, huri, hbytes⟩ := fetch_ok h
  obtain ⟨hurl, hmethod, hbody, hreq⟩ := constructor_ok hcons
  obtain ⟨ok, hpairs⟩ := requestHeaders_pairs hreq
  have hread : ∀ p ∈ pairsOf headers.list, Readable p := by
    intro p hp
    obtain ⟨x, hx, rfl⟩ := List.mem_map.mp hp
    obtain ⟨hx, hhash⟩ := List.mem_filter.mp hx
    exact ⟨ok.tokens x hx, ok.values x hx hhash⟩
  refine ⟨u, defaultPort, given conf s input init u defaultPort, hurl, rfl, ⟨?_, ?_, ?_⟩, ?_⟩
  · intro p hp
    refine hread p ?_
    rw [hpairs]
    exact hp
  · rw [← checkRequestLineComponent_eq]
    exact huri
  · exact givenHeaders_forward hs input init
  · rw [hbytes, ← Given.build_eq (given conf s input init u defaultPort) hmethod hbody hpairs]
    rfl

/-- A call of `fetch`, after anything that a script does, sends the request that it is given just
under the condition on what it is given. -/
theorem fetch_sent_iff (e : Engine) (parseUrl : ParseUrl) (acts : List Act) (conf : Conf)
    (input : Input) (init : Option RequestInit) {bytes : Bytes}
    (h : ngxJsExtFetch e.kind parseUrl conf (Script.run e parseUrl acts) input init = .ok bytes) :
    ∃ (u : Url) (defaultPort : ℕ),
      givenUrl parseUrl (Script.run e parseUrl acts) input = some (u, defaultPort) ∧
        ((given conf (Script.run e parseUrl acts) input init u defaultPort).IsSentAs bytes ↔
          (given conf (Script.run e parseUrl acts) input init u defaultPort).Sendable) := by
  obtain ⟨u, defaultPort, g, hurl, hg, acc, hbytes⟩ :=
    fetch_given (run_forward e parseUrl acts) h
  exact ⟨u, defaultPort, hurl, hg ▸ Given.isSentAs_iff acc hbytes⟩

/-- A splitter for one URL. -/
def oneUrl : ParseUrl := fun url defaultPort =>
  if url = lit "h/" ∧ defaultPort = httpDefaultPort then
    some ⟨lit "h", httpDefaultPort, true, lit "/"⟩
  else none

/-- A configuration without a proxy. -/
def direct : Conf where
  keepalive := false
  ssl := false
  sslVerify := false
  proxy := .none

theorem fetch_sent_iff_get : ngxJsExtFetch .njs oneUrl direct {} (.string (lit "http://h/")) none =
      .ok (lit "GET / HTTP/1.1\r\nHost: h\r\nUser-Agent: nginx-js\r\nConnection: close\r\n\r\n") ∧
    ∃ (u : Url) (defaultPort : ℕ),
      givenUrl oneUrl {} (.string (lit "http://h/")) = some (u, defaultPort) ∧
        ((given direct {} (.string (lit "http://h/")) none u defaultPort).IsSentAs
          (lit "GET / HTTP/1.1\r\nHost: h\r\nUser-Agent: nginx-js\r\nConnection: close\r\n\r\n") ↔
          (given direct {} (.string (lit "http://h/")) none u defaultPort).Sendable) :=
  ⟨by decide, fetch_sent_iff plainNjs oneUrl [] direct (.string (lit "http://h/")) none
    (by decide)⟩

/-- `User-Agent: x` is sent twice. -/
theorem fetch_sends_twice : ∃ bytes, ngxJsExtFetch .njs oneUrl direct {} (.string (lit "http://h/"))
        (some { headers := some (some (.object [(lit "User-Agent", lit "x")])) }) = .ok bytes ∧
      givenUrl oneUrl {} (.string (lit "http://h/")) =
        some (⟨lit "h", httpDefaultPort, true, lit "/"⟩, httpDefaultPort) ∧
      ¬(given direct {} (.string (lit "http://h/"))
        (some { headers := some (some (.object [(lit "User-Agent", lit "x")])) })
        ⟨lit "h", httpDefaultPort, true, lit "/"⟩ httpDefaultPort).IsSentAs bytes := by
  refine ⟨lit "GET / HTTP/1.1\r\nUser-Agent: x\r\nHost: h\r\nUser-Agent: x\r\nConnection: close\r\n\r\n",
    by decide, by decide +kernel, ?_⟩
  rintro ⟨fields, hparse, hvalues⟩
  have hread : Http.parseRequest (lit
      "GET / HTTP/1.1\r\nUser-Agent: x\r\nHost: h\r\nUser-Agent: x\r\nConnection: close\r\n\r\n") =
      some (⟨lit "GET", lit "/", [(lit "User-Agent", lit "x"), (lit "Host", lit "h"),
        (lit "User-Agent", lit "x"), (lit "Connection", lit "close")], []⟩, []) := by
    decide
  have heq := (Prod.mk.inj (Option.some.inj (hread.symm.trans hparse))).1
  obtain ⟨-, -, hfields, -⟩ := Http.Request.mk.inj heq
  have htwice := hvalues (lit "User-Agent")
  rw [← hfields] at htwice
  revert htwice
  decide

end Njs.Fetch
