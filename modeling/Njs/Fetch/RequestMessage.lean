import Njs.Fetch.HeaderLinks

/-!
# Messages of requests

What a request should be read as by its recipient, and the fields that the bytes of
`ngx_js_fetch_build_request` hold.
-/

open Http (fold strip isTchar crlf joinLines fieldLines fieldLines_append)
open Multimap (values values_append values_eq_nil)

namespace Njs.Fetch

open Text Decimal

/-- What is given to a call: the method, the URL with the default port of its schema, the body and
whether it is a string, the header list as a Headers object, and what the configuration says. -/
structure Given where
  method : Bytes
  u : Url
  defaultPort : ℕ
  body : Bytes
  stringBody : Bool
  headers : Headers
  keepalive : Bool
  isProxy : Bool
  proxyAuth : Option Credentials

namespace Given

variable (g : Given)

def hostField : Bytes := g.u.host ++ if g.u.noPort then [] else appendPort g.u.port

/-- The path of the URL, after the host if the request goes to a proxy. -/
def target : Bytes :=
  (if g.isProxy then
    lit "http://" ++ g.u.host ++ if g.u.port ≠ g.defaultPort then appendPort g.u.port else []
  else []) ++ (if g.u.uri.head? ≠ some (chr '/') then lit "/" else []) ++ g.u.uri

def lengthValues : List Bytes :=
  if g.body ≠ [] then [(Numeral.ofNat g.body.length).text]
  else if sameName g.method (lit "POST") || sameName g.method (lit "PUT") then [lit "0"]
  else []

def connectionValues : List Bytes := if g.keepalive then [] else [lit "close"]

/-- The credentials for the proxy. -/
def authValues : List Bytes :=
  if g.isProxy then (g.proxyAuth.map fun b64 => lit "Basic " ++ b64.text).toList else []

/-- The fields that the client sets, whatever is given: the last one on the way to a proxy. -/
def byClient (name : Bytes) : Option (List Bytes) :=
  if fold name = fold (lit "Content-Length") then some g.lengthValues
  else if fold name = fold (lit "Connection") then some g.connectionValues
  else if g.isProxy = true ∧ fold name = fold (lit "Proxy-Authorization") then some g.authValues
  else none

/-- The fields that are supplied when they are absent. -/
def default (name : Bytes) : List Bytes :=
  if fold name = fold (lit "Host") then [g.hostField]
  else if fold name = fold (lit "User-Agent") then [lit "nginx-js"]
  else if fold name = fold (lit "Content-Type") ∧ g.stringBody = true then
    [lit "text/plain;charset=UTF-8"]
  else []

/-- The values of a name that the recipient should see. -/
def fields (name : Bytes) : List Bytes :=
  (g.byClient name).getD <|
    if ngxHeadersJsGetAll g.headers name = [] then g.default name
    else ngxHeadersJsGetAll g.headers name

/-- The bytes are read as one request, which is the one that is given, and nothing follows it. -/
def IsSentAs (bytes : Bytes) : Prop :=
  ∃ fields, Http.parseRequest bytes = some (⟨g.method, g.target, fields, g.body⟩, []) ∧
    ∀ name, values fold name fields = g.fields name

/-! ### The fields that are sent -/

/-- The pairs of the request: those of the header list, and the type of a body that is a string. -/
def pairs : List (Bytes × Bytes) :=
  (pairsOf g.headers.list).map (fun p => (p.1, strip p.2)) ++
    if values fold (lit "Content-Type") (pairsOf g.headers.list) = [] ∧
        g.stringBody = true then
      [(lit "Content-Type", lit "text/plain;charset=UTF-8")]
    else []

/-- A field of the first loop. -/
def known (p : Bytes × Bytes) : Option (Bytes × Bytes) :=
  if fold p.1 = fold (lit "Host") then some (lit "Host", p.2)
  else if fold p.1 = fold (lit "User-Agent") then some (lit "User-Agent", p.2)
  else none

def knownFields : List (Bytes × Bytes) := g.pairs.filterMap known

def otherFields : List (Bytes × Bytes) :=
  g.pairs.filter fun p => fold p.1 ≠ fold (lit "Host") ∧ g.byClient p.1 = none

def fieldsOf (name : Bytes) (values : List Bytes) : List (Bytes × Bytes) :=
  values.map fun value => (name, value)

def supplied (name value : Bytes) : List (Bytes × Bytes) :=
  if values fold name g.pairs = [] then [(name, value)] else []

def sentFields : List (Bytes × Bytes) :=
  g.knownFields ++ g.supplied (lit "Host") g.hostField ++
    g.supplied (lit "User-Agent") (lit "nginx-js") ++
    fieldsOf (lit "Proxy-Authorization") g.authValues ++ g.otherFields ++
    fieldsOf (lit "Connection") g.connectionValues ++ fieldsOf (lit "Content-Length") g.lengthValues

theorem values_fieldsOf (name name' : Bytes) (values : List Bytes) :
    Multimap.values fold name (fieldsOf name' values) =
      if fold name = fold name' then values else [] := by
  induction values with
  | nil =>
    split_ifs <;> rfl
  | cons value values ih =>
    rw [show fieldsOf name' (value :: values) = [(name', value)] ++ fieldsOf name' values from rfl,
      Multimap.values_append, ih]
    by_cases heq : fold name = fold name'
    · simp [Multimap.values, heq]
    · simp [Multimap.values, heq, Ne.symm heq]

theorem values_supplied (name name' value : Bytes) :
    values fold name (g.supplied name' value) =
      if fold name = fold name' ∧ values fold name' g.pairs = [] then [value] else [] := by
  rw [supplied]
  by_cases hnil : values fold name' g.pairs = []
  · rw [if_pos hnil, show [(name', value)] = fieldsOf name' [value] from rfl, values_fieldsOf]
    simp [hnil]
  · rw [if_neg hnil, if_neg fun h => hnil h.2]
    rfl

theorem host_ne_userAgent : fold (lit "Host") ≠ fold (lit "User-Agent") := by decide

theorem values_knownFields (name : Bytes) : values fold name g.knownFields =
      if fold name = fold (lit "Host") ∨ fold name = fold (lit "User-Agent") then
        values fold name g.pairs
      else [] := by
  rw [knownFields]
  induction g.pairs with
  | nil =>
    split_ifs <;> rfl
  | cons p pairs ih =>
    have hcons : ∀ l, values fold name (p :: l) =
        (if fold p.1 = fold name then [p.2] else []) ++ values fold name l := by
      intro l
      by_cases hp : fold p.1 = fold name <;> simp [values, hp]
    have hne := host_ne_userAgent
    rw [List.filterMap_cons, hcons, known]
    by_cases hhost : fold p.1 = fold (lit "Host")
    · simp only [if_pos hhost]
      rw [show (lit "Host", p.2) :: pairs.filterMap _ = fieldsOf (lit "Host") [p.2] ++
        pairs.filterMap _ from rfl, values_append, ih, values_fieldsOf, hhost]
      by_cases hname : fold name = fold (lit "Host")
      · simp [hname]
      · simp [hname, Ne.symm hname]
    by_cases hagent : fold p.1 = fold (lit "User-Agent")
    · simp only [if_neg hhost, if_pos hagent]
      rw [show (lit "User-Agent", p.2) :: pairs.filterMap _ =
        fieldsOf (lit "User-Agent") [p.2] ++ pairs.filterMap _ from rfl,
        values_append, ih, values_fieldsOf, hagent]
      by_cases hname : fold name = fold (lit "User-Agent")
      · simp [hname]
      · simp [hname, Ne.symm hname]
    simp only [if_neg hhost, if_neg hagent]
    rw [ih]
    by_cases hp : fold p.1 = fold name
    · rw [if_neg (by rw [← hp]; exact not_or.mpr ⟨hhost, hagent⟩),
        if_neg (by rw [← hp]; exact not_or.mpr ⟨hhost, hagent⟩)]
    · rw [if_neg hp, List.nil_append]

theorem byClient_congr {name name' : Bytes} (h : fold name = fold name') :
    g.byClient name = g.byClient name' := by
  rw [byClient, byClient, h]

theorem values_otherFields (name : Bytes) : values fold name g.otherFields =
      if fold name ≠ fold (lit "Host") ∧ g.byClient name = none then
        values fold name g.pairs
      else [] := by
  rw [otherFields, values, List.filter_filter]
  split_ifs with hother
  · refine congrArg (List.map Prod.snd) (List.filter_congr fun p _ => ?_)
    by_cases hp : fold p.1 = fold name
    · rw [byClient_congr g hp, hp]
      simp [hother]
    · simp [hp]
  · rw [List.filter_eq_nil_iff.mpr, List.map_nil]
    intro p _ hcond
    rw [Bool.and_eq_true, decide_eq_true_eq, decide_eq_true_eq] at hcond
    rw [← hcond.1, byClient_congr g hcond.1.symm] at hother
    exact hother hcond.2

/-- The values that are sent of a name. Those of `User-Agent` are sent twice. -/
theorem values_sentFields (name : Bytes) : values fold name g.sentFields =
      (g.byClient name).getD ( if fold name = fold (lit "Host") then
          if values fold name g.pairs = [] then [g.hostField]
          else values fold name g.pairs
        else if fold name = fold (lit "User-Agent") then
          if values fold name g.pairs = [] then [lit "nginx-js"]
          else values fold name g.pairs ++ values fold name g.pairs
        else values fold name g.pairs) := by
  have hvalues : ∀ name', fold name = fold name' →
      values fold name' g.pairs = values fold name g.pairs := by
    intro name' heq
    rw [values, values, heq]
  have hdistinct : fold (lit "Content-Length") ≠ fold (lit "Host") ∧
      fold (lit "Content-Length") ≠ fold (lit "User-Agent") ∧
      fold (lit "Content-Length") ≠ fold (lit "Connection") ∧
      fold (lit "Content-Length") ≠ fold (lit "Proxy-Authorization") ∧
      fold (lit "Connection") ≠ fold (lit "Host") ∧
      fold (lit "Connection") ≠ fold (lit "User-Agent") ∧
      fold (lit "Connection") ≠ fold (lit "Proxy-Authorization") ∧
      fold (lit "Proxy-Authorization") ≠ fold (lit "Host") ∧
      fold (lit "Proxy-Authorization") ≠ fold (lit "User-Agent") := by decide
  obtain ⟨h₁, h₂, h₃, h₄, h₅, h₆, h₇, h₈, h₉⟩ := hdistinct
  simp only [sentFields, values_append, values_knownFields, values_supplied,
    values_fieldsOf, values_otherFields]
  by_cases hlen : fold name = fold (lit "Content-Length")
  · simp [byClient, hlen, h₁, h₂, h₃, h₄]
  by_cases hconn : fold name = fold (lit "Connection")
  · simp [byClient, hconn, h₅, h₆, h₇, Ne.symm h₃]
  by_cases hauth : fold name = fold (lit "Proxy-Authorization")
  · by_cases hproxy : g.isProxy = true
    · simp [byClient, hauth, hproxy, h₈, h₉, Ne.symm h₇, Ne.symm h₄]
    · simp [byClient, hauth, hproxy, h₈, h₉, Ne.symm h₇, Ne.symm h₄, authValues]
  have hnone : g.byClient name = none := by simp [byClient, hlen, hconn, hauth]
  by_cases hhost : fold name = fold (lit "Host")
  · rw [hvalues _ hhost]
    by_cases hnil : values fold name g.pairs = [] <;>
      simp [hnone, hhost, hnil, host_ne_userAgent, Ne.symm h₁, Ne.symm h₅, Ne.symm h₈]
  by_cases hagent : fold name = fold (lit "User-Agent")
  · rw [hvalues _ hagent]
    by_cases hnil : values fold name g.pairs = [] <;>
      simp [hnone, hagent, hnil, Ne.symm host_ne_userAgent, Ne.symm h₂, Ne.symm h₆, Ne.symm h₉]
  simp [hnone, hlen, hconn, hauth, hhost, hagent]

/-! ### The bytes -/

theorem appendField_eq (name value : Bytes) :
    appendField name value = joinLines (fieldLines [(name, value)]) :=
  (List.append_nil _).symm

variable {list : List Elt}

theorem sameName_lit {s : String} (hs : (lit s).all isTchar = true) (key : Bytes) :
    sameName key (lit s) = decide (fold key = fold (lit s)) := by
  rw [Bool.eq_iff_iff, sameName_iff hs, decide_eq_true_eq]

theorem flatMap_appendKnown (list : List Elt) :
    list.flatMap appendKnown = joinLines (fieldLines ((pairsOf list).filterMap known)) := by
  have hhost := sameName_lit (s := "Host") (by decide)
  have hagent := sameName_lit (s := "User-Agent") (by decide)
  induction list with
  | nil => rfl
  | cons h list ih =>
    rw [List.flatMap_cons, ih, appendKnown, pairsOf_cons]
    by_cases hhash : h.hash = true
    · rw [if_neg (by rw [hhash]; exact Bool.false_ne_true.symm), if_pos hhash, List.filterMap_append,
        List.filterMap_cons, known, hhost, hagent]
      simp only [decide_eq_true_eq]
      split_ifs
      · rw [appendField_eq]
        simp [fieldLines]
      · rw [appendField_eq]
        simp [fieldLines]
      · rfl
    · rw [if_pos (Bool.eq_false_iff.mpr hhash), if_neg hhash]
      rfl

/-- The names that the second loop does not pass over. -/
def isOther (isProxy : Bool) (name : Bytes) : Bool :=
  fold name ≠ fold (lit "Host") ∧ fold name ≠ fold (lit "Content-Length") ∧
    fold name ≠ fold (lit "Connection") ∧
      ¬(isProxy = true ∧ fold name = fold (lit "Proxy-Authorization"))

theorem isSkipped_eq (isProxy : Bool) (h : Elt) :
    isSkipped isProxy h = !(h.hash && isOther isProxy h.key) := by
  rw [isSkipped, sameName_lit (s := "Host") (by decide),
    sameName_lit (s := "Content-Length") (by decide),
    sameName_lit (s := "Connection") (by decide),
    sameName_lit (s := "Proxy-Authorization") (by decide), isOther]
  cases h.hash <;> cases isProxy <;> simp [Bool.or_assoc]

theorem isOther_iff (name : Bytes) :
    isOther g.isProxy name = true ↔ fold name ≠ fold (lit "Host") ∧ g.byClient name = none := by
  rw [isOther, byClient, decide_eq_true_eq]
  split_ifs with hlen hconn hauth <;> simp_all

theorem appendRequestHeaders_eq (isProxy : Bool) (list : List Elt) :
    ngxJsFetchAppendRequestHeaders list isProxy =
      joinLines (fieldLines ((pairsOf list).filter fun p => isOther isProxy p.1)) := by
  rw [ngxJsFetchAppendRequestHeaders]
  induction list with
  | nil => rfl
  | cons h list ih =>
    rw [pairsOf_cons, List.filter_append, fieldLines_append, Http.joinLines_append, ← ih,
      List.filter_cons, isSkipped_eq, Bool.not_not]
    by_cases hhash : h.hash = true
    · by_cases hother : isOther isProxy h.key = true
      · rw [if_pos (by rw [hhash, hother]; rfl), if_pos hhash, List.flatMap_cons, appendField_eq,
          List.filter_cons_of_pos (by exact hother)]
        rfl
      · rw [if_neg (by rw [hhash]; exact hother), if_pos hhash,
          List.filter_cons_of_neg (by exact hother)]
        rfl
    · rw [if_neg (by rw [Bool.eq_false_iff.mpr hhash]; exact Bool.false_ne_true), if_neg hhash]
      rfl

theorem any_eq {list : List Elt} {s : String} (hs : (lit s).all isTchar = true) :
    (list.any fun h => h.hash && sameName h.key (lit s)) =
      decide (values fold (lit s) (pairsOf list) ≠ []) := by
  rw [Bool.eq_iff_iff, decide_eq_true_eq, Ne, values_eq_nil, List.any_eq_true]
  constructor
  · rintro ⟨h, hh, hof⟩ hnone
    rw [Bool.and_eq_true, sameName_lit hs, decide_eq_true_eq] at hof
    exact hnone (h.key, h.value) (List.mem_map.mpr ⟨h, List.mem_filter.mpr ⟨hh, hof.1⟩, rfl⟩) hof.2
  intro hex
  obtain ⟨p, hex⟩ := not_forall.mp hex
  obtain ⟨hp, hname⟩ := Classical.not_imp.mp hex
  rw [Ne, not_not] at hname
  obtain ⟨h, hh, rfl⟩ := List.mem_map.mp hp
  obtain ⟨hh, hhash⟩ := List.mem_filter.mp hh
  exact ⟨h, hh, by rw [hhash, sameName_lit hs, decide_eq_true hname]; rfl⟩

theorem build_eq {request : Request} (hmethod : request.method = g.method)
    (hbody : request.body = g.body) (hpairs : pairsOf list = g.pairs) :
    ngxJsFetchBuildRequest ⟨g.u, g.defaultPort, g.keepalive, g.proxyAuth⟩ request list g.u.uri
        g.isProxy =
      g.method ++ lit " " ++ g.target ++ lit " HTTP/1.1" ++ crlf ++
        (joinLines (fieldLines g.sentFields) ++ (crlf ++ g.body)) := by
  have hhost : (list.any fun h => h.hash && sameName h.key (lit "Host")) =
      decide (values fold (lit "Host") g.pairs ≠ []) := hpairs ▸ any_eq (by decide)
  have hagent : (list.any fun h =>
      h.hash && !sameName h.key (lit "Host") && sameName h.key (lit "User-Agent")) =
      decide (values fold (lit "User-Agent") g.pairs ≠ []) := by
    rw [← hpairs, ← any_eq (by decide)]
    refine congrArg list.any (funext fun h => ?_)
    rw [sameName_lit (s := "Host") (by decide), sameName_lit (s := "User-Agent") (by decide)]
    by_cases hname : fold h.key = fold (lit "User-Agent")
    · simp [hname, Ne.symm host_ne_userAgent]
    · simp [hname]
  have hfilter : (pairsOf list).filter (fun p => isOther g.isProxy p.1) = g.otherFields := by
    rw [hpairs, otherFields]
    refine List.filter_congr fun p _ => ?_
    rw [Bool.eq_iff_iff, isOther_iff, decide_eq_true_eq]
  have hknown : joinLines (fieldLines ((pairsOf list).filterMap known)) =
      joinLines (fieldLines g.knownFields) := by rw [hpairs, knownFields]
  have hauth : (if g.isProxy = true then ngxJsBuildProxyAuthHeader g.proxyAuth else []) =
      joinLines (fieldLines (fieldsOf (lit "Proxy-Authorization") g.authValues)) := by
    rw [authValues]
    split_ifs
    · cases g.proxyAuth with
      | none => rfl
      | some b64 => exact appendField_eq _ _
    · rfl
  have hconn : (if g.keepalive = true then [] else appendField (lit "Connection") (lit "close")) =
      joinLines (fieldLines (fieldsOf (lit "Connection") g.connectionValues)) := by
    rw [connectionValues]
    split_ifs
    · rfl
    · exact appendField_eq _ _
  have hlen : (if request.body ≠ [] then
      appendField (lit "Content-Length") (Numeral.ofNat request.body.length).text ++ crlf ++
        request.body
    else if (sameName request.method (lit "POST") || sameName request.method (lit "PUT")) = true
      then
      appendField (lit "Content-Length") (lit "0") ++ crlf
    else crlf) = joinLines (fieldLines (fieldsOf (lit "Content-Length") g.lengthValues)) ++
      (crlf ++ g.body) := by
    rw [hbody, hmethod, lengthValues]
    split_ifs with hne hmethod
    · rw [appendField_eq, List.append_assoc]
      rfl
    · rw [appendField_eq, not_not.mp hne, List.append_nil]
      rfl
    · rw [not_not.mp hne]
      rfl
  have hsupplied : ∀ name value : Bytes,
      (if decide (values fold name g.pairs ≠ []) = true then []
        else appendField name value) = joinLines (fieldLines (g.supplied name value)) := by
    intro name value
    rw [supplied]
    by_cases hnil : values fold name g.pairs = []
    · simp [hnil, appendField_eq]
    · simp [hnil, fieldLines]
  rw [ngxJsFetchBuildRequest]
  simp only [hhost, hagent, hsupplied, flatMap_appendKnown, appendRequestHeaders_eq, hfilter,
    hknown, hauth, hconn, hlen]
  rw [hmethod, sentFields, target]
  simp only [hostField, fieldLines_append, Http.joinLines_append, List.append_assoc]

end Given

end Njs.Fetch
