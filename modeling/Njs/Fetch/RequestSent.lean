import Njs.Fetch.RequestMessage

/-!
# Requests that are sent as they are given

When the recipient reads the bytes of a request as the request that has been given.
-/

open Http (fold strip isTchar isFieldChar isTargetChar crlf joinLines fieldLines Readable)
open Multimap (values values_append values_eq_nil)

namespace Njs.Fetch

open Text Decimal

/-! ### Values and `get` -/

variable {list : List Elt}

theorem length_positions (ht : ∀ p ∈ pairsOf list, p.1.all isTchar = true) (name : Bytes) :
    (positions list name).length = (values fold name (pairsOf list)).length := by
  induction list using List.reverseRecOn with
  | nil => rfl
  | append_singleton list h ih =>
    rw [pairsOf_concat] at ht ⊢
    rw [positions_concat, List.length_append, values_append, List.length_append,
      ih fun p hp => ht p (List.mem_append_left _ hp)]
    refine congrArg (_ + ·) ?_
    by_cases hhash : h.hash = true
    · have hkey : h.key.all isTchar = true :=
        ht (h.key, h.value) (List.mem_append_right _
          (by rw [if_pos hhash]; exact List.mem_singleton_self _))
      by_cases hname : fold name = fold h.key
      · have hof : h.isOf name = true := by
          rw [Elt.isOf, hhash, (sameName_iff hkey).mpr hname]
          rfl
        simp [hof, hhash, hname, values]
      · have hof : h.isOf name = false := by
          rw [Elt.isOf, hhash, Bool.true_and, Bool.eq_false_iff]
          exact mt (sameName_iff hkey).mp hname
        simp [hof, hhash, Ne.symm hname, values]
    · have hof : h.isOf name = false := by rw [Elt.isOf, Bool.eq_false_iff.mpr hhash]; rfl
      rw [hof, if_neg hhash]
      rfl

/-- `get` finds a name that some live element has. -/
theorem getAll_eq_nil {h : Headers} (ht : ∀ p ∈ pairsOf h.list, p.1.all isTchar = true)
    (name : Bytes) :
    ngxHeadersJsGetAll h name = [] ↔ values fold name (pairsOf h.list) = [] := by
  rw [← List.length_eq_zero_iff (l := values _ _ _), ← length_positions ht,
    List.length_eq_zero_iff, ngxHeadersJsGetAll, chainOf]
  cases hfind : findElt h.list name with
  | none =>
    rw [findElt_eq, List.head?_eq_none_iff] at hfind
    simp [hfind]
  | some i =>
    rw [findElt_eq] at hfind
    have hi := List.mem_of_mem_head? hfind
    obtain ⟨x, hx, -⟩ := mem_positions.mp hi
    have hlt := lt_of_mem_positions hi
    have hmem : i ∈ chain h.list h.list.length i := by
      rw [show h.list.length = h.list.length - 1 + 1 by omega, chain, hx]
      cases hnext : x.next with
      | none => simp [hnext]
      | some j => simp [hnext]
    constructor
    · intro hnil
      have hnone := List.filterMap_eq_nil_iff.mp hnil i hmem
      rw [hx] at hnone
      cases hnone
    · intro hnil
      rw [hnil] at hi
      cases hi

namespace Given

/-- What holds of a request that has been accepted. -/
structure Accepted (g : Given) : Prop where
  readable : ∀ p ∈ g.pairs, Readable p
  uri : g.u.uri.all isTargetChar = true
  forward : Forward g.headers.list

/-- When a request is sent as it is given: the method is a token, the host of the URL can stand
where it is used, no name is empty or `User-Agent` or `Transfer-Encoding`, there is one `Host` at
most, and of the names that the client does not set `get` sees all live values, none of which has
white space around it. -/
structure Sendable (g : Given) : Prop where
  method : g.method ≠ [] ∧ g.method.all isTchar = true
  target : g.isProxy = true → g.u.host.all isTargetChar = true
  host : values fold (lit "Host") (pairsOf g.headers.list) = [] →
    strip g.hostField = g.hostField ∧ g.hostField.all isFieldChar = true
  names : ∀ p ∈ pairsOf g.headers.list, p.1 ≠ [] ∧ fold p.1 ≠ fold (lit "User-Agent") ∧
    fold p.1 ≠ fold (lit "Transfer-Encoding")
  oneHost : (values fold (lit "Host") (pairsOf g.headers.list)).length ≤ 1
  shown : ∀ name, g.byClient name = none → ngxHeadersJsGetAll g.headers name =
    (values fold name (pairsOf g.headers.list)).map strip

variable {g : Given}

theorem values_pairs (name : Bytes) : values fold name g.pairs =
      (values fold name (pairsOf g.headers.list)).map strip ++
        if fold name = fold (lit "Content-Type") ∧
            values fold name (pairsOf g.headers.list) = [] ∧ g.stringBody = true then
          [lit "text/plain;charset=UTF-8"]
        else [] := by
  have hmap : ∀ l : List (Bytes × Bytes),
      values fold name (l.map fun p => (p.1, strip p.2)) =
        (values fold name l).map strip := by
    intro l
    rw [values, values, List.filter_map, List.map_map, List.map_map]
    rfl
  have hsame : fold name = fold (lit "Content-Type") →
      values fold (lit "Content-Type") (pairsOf g.headers.list) =
        values fold name (pairsOf g.headers.list) := by
    intro heq
    rw [values, values, heq]
  rw [pairs, values_append, hmap, List.append_cancel_left_eq]
  by_cases heq : fold name = fold (lit "Content-Type")
  · rw [← hsame heq]
    by_cases hcond : values fold (lit "Content-Type") (pairsOf g.headers.list) = [] ∧
        g.stringBody = true
    · rw [if_pos hcond, if_pos ⟨heq, hcond⟩, show [(lit "Content-Type", _)] =
        fieldsOf (lit "Content-Type") [lit "text/plain;charset=UTF-8"] from rfl, values_fieldsOf,
        if_pos heq]
    · rw [if_neg hcond, if_neg fun h => hcond h.2]
      rfl
  have hnot : ¬(fold name = fold (lit "Content-Type") ∧
      values fold name (pairsOf g.headers.list) = [] ∧ g.stringBody = true) :=
    fun h => heq h.1
  rw [if_neg hnot]
  split_ifs
  · rw [show [(lit "Content-Type", _)] =
      fieldsOf (lit "Content-Type") [lit "text/plain;charset=UTF-8"] from rfl, values_fieldsOf,
      if_neg heq]
  · rfl

theorem Accepted.tokens (acc : g.Accepted) :
    ∀ p ∈ pairsOf g.headers.list, p.1.all isTchar = true := by
  intro p hp
  have hmem : (p.1, strip p.2) ∈ g.pairs :=
    List.mem_append_left _ (List.mem_map.mpr ⟨p, hp, rfl⟩)
  exact (acc.readable _ hmem).1

theorem values_eq_of_fold {name name' : Bytes} (h : fold name = fold name')
    (l : List (Bytes × Bytes)) : values fold name l = values fold name' l := by
  rw [values, values, h]

theorem notByClient {s : String} (hlen : fold (lit s) ≠ fold (lit "Content-Length"))
    (hconn : fold (lit s) ≠ fold (lit "Connection"))
    (hauth : fold (lit s) ≠ fold (lit "Proxy-Authorization")) : g.byClient (lit s) = none := by
  rw [byClient, if_neg hlen, if_neg hconn, if_neg fun h => hauth h.2]

theorem byClient_host : g.byClient (lit "Host") = none :=
  notByClient (by decide) (by decide) (by decide)

theorem byClient_userAgent : g.byClient (lit "User-Agent") = none :=
  notByClient (by decide) (by decide) (by decide)

theorem byClient_transferEncoding : g.byClient (lit "Transfer-Encoding") = none :=
  notByClient (by decide) (by decide) (by decide)

/-! ### Fields that can be read -/

theorem readable_const {name value : String}
    (h : (lit name).all isTchar = true ∧ strip (lit value) = lit value ∧
      (lit value).all isFieldChar = true) : Readable (lit name, lit value) := h

theorem fieldChar_of_base64 (c : UInt8) :
    (chr '0' ≤ c && c ≤ chr '9' || chr 'A' ≤ c && c ≤ chr 'Z' || chr 'a' ≤ c && c ≤ chr 'z' ||
      c ∈ lit "+/=") = true → isFieldChar c = true ∧ Http.isOws c = false :=
  forall_byte (p := fun c => (chr '0' ≤ c && c ≤ chr '9' || chr 'A' ≤ c && c ≤ chr 'Z' ||
    chr 'a' ≤ c && c ≤ chr 'z' || c ∈ lit "+/=") = true →
      isFieldChar c = true ∧ Http.isOws c = false) (by decide) c

theorem digitChar_fieldChar : ∀ d < 10, isFieldChar (digitChar d) = true ∧
    Http.isOws (digitChar d) = false := by
  decide

theorem strip_of_all {value : Bytes} (h : ∀ c ∈ value, Http.isOws c = false) :
    strip value = value :=
  Http.strip_eq_self (fun c hc => h c (List.mem_of_mem_head? hc))
    fun c hc => h c (List.mem_of_getLast? hc)

theorem digits_readable (n : ℕ) : strip (Numeral.ofNat n).text = (Numeral.ofNat n).text ∧
    (Numeral.ofNat n).text.all isFieldChar = true := by
  have hall : ∀ c ∈ (Numeral.ofNat n).text, isFieldChar c = true ∧ Http.isOws c = false := by
    intro c hc
    rw [Numeral.text_ofNat] at hc
    obtain ⟨d, hd, rfl⟩ := List.mem_map.mp hc
    exact digitChar_fieldChar d (lt_of_mem_digits hd)
  exact ⟨strip_of_all fun c hc => (hall c hc).2, List.all_eq_true.mpr fun c hc => (hall c hc).1⟩

theorem credentials_readable (b64 : Credentials) :
    strip (lit "Basic " ++ b64.text) = lit "Basic " ++ b64.text ∧
      (lit "Basic " ++ b64.text).all isFieldChar = true := by
  have hall : ∀ c ∈ b64.text, isFieldChar c = true ∧ Http.isOws c = false := fun c hc =>
    fieldChar_of_base64 c (List.all_eq_true.mp b64.base64 c hc)
  constructor
  · refine Http.strip_eq_self (fun c hc => ?_) fun c hc => ?_
    · cases hc
      decide
    · rw [List.getLast?_append_of_ne_nil _ b64.ne] at hc
      exact (hall c (List.mem_of_getLast? hc)).2
  · rw [List.all_append, List.all_eq_true.mpr fun c hc => (hall c hc).1]
    decide

theorem readable_sentFields (acc : g.Accepted)
    (hhost : values fold (lit "Host") (pairsOf g.headers.list) = [] →
      strip g.hostField = g.hostField ∧ g.hostField.all isFieldChar = true) :
    ∀ p ∈ g.sentFields, Readable p := by
  have hpairs : values fold (lit "Host") g.pairs =
      (values fold (lit "Host") (pairsOf g.headers.list)).map strip := by
    rw [values_pairs, if_neg fun h => absurd h.1 (by decide), List.append_nil]
  intro p hp
  simp only [sentFields, List.mem_append] at hp
  rcases hp with (((((hp | hp) | hp) | hp) | hp) | hp) | hp
  · obtain ⟨q, hq, hqp⟩ := List.mem_filterMap.mp hp
    have hval := (acc.readable q hq).2
    rw [known] at hqp
    split_ifs at hqp
    · obtain rfl := Option.some.inj hqp
      exact ⟨by show (lit "Host").all isTchar = true; decide, hval⟩
    · obtain rfl := Option.some.inj hqp
      exact ⟨by show (lit "User-Agent").all isTchar = true; decide, hval⟩
  · rw [supplied] at hp
    split_ifs at hp with hnil
    · rw [hpairs, List.map_eq_nil_iff] at hnil
      rw [List.mem_singleton.mp hp]
      exact ⟨by show (lit "Host").all isTchar = true; decide, hhost hnil⟩
    · cases hp
  · rw [supplied] at hp
    split_ifs at hp
    · rw [List.mem_singleton.mp hp]
      exact readable_const (by decide)
    · cases hp
  · obtain ⟨value, hvalue, rfl⟩ := List.mem_map.mp hp
    rw [authValues] at hvalue
    split_ifs at hvalue
    · cases hauth : g.proxyAuth with
      | none =>
        rw [hauth] at hvalue
        cases hvalue
      | some b64 =>
        rw [hauth] at hvalue
        obtain rfl := List.mem_singleton.mp hvalue
        exact ⟨by show (lit "Proxy-Authorization").all isTchar = true; decide,
          credentials_readable b64⟩
    · cases hvalue
  · exact acc.readable p (List.mem_filter.mp hp).1
  · obtain ⟨value, hvalue, rfl⟩ := List.mem_map.mp hp
    rw [connectionValues] at hvalue
    split_ifs at hvalue
    · cases hvalue
    · obtain rfl := List.mem_singleton.mp hvalue
      exact readable_const (by decide)
  · obtain ⟨value, hvalue, rfl⟩ := List.mem_map.mp hp
    have htoken : (lit "Content-Length").all isTchar = true := by decide
    rw [lengthValues] at hvalue
    split_ifs at hvalue
    · obtain rfl := List.mem_singleton.mp hvalue
      exact ⟨htoken, digits_readable _⟩
    · obtain rfl := List.mem_singleton.mp hvalue
      exact readable_const (by decide)
    · cases hvalue

theorem name_ne_nil_sentFields (h : ∀ p ∈ g.pairs, p.1 ≠ []) : ∀ p ∈ g.sentFields, p.1 ≠ [] := by
  have hfields : ∀ (name : String) (values : List Bytes), lit name ≠ [] →
      ∀ p ∈ fieldsOf (lit name) values, p.1 ≠ [] := by
    intro name values hne p hp
    obtain ⟨value, -, rfl⟩ := List.mem_map.mp hp
    exact hne
  have hsupplied : ∀ (name : String) (value : Bytes), lit name ≠ [] →
      ∀ p ∈ g.supplied (lit name) value, p.1 ≠ [] := by
    intro name value hne p hp
    rw [supplied] at hp
    split_ifs at hp
    · exact List.mem_singleton.mp hp ▸ hne
    · cases hp
  intro p hp
  simp only [sentFields, List.mem_append] at hp
  rcases hp with (((((hp | hp) | hp) | hp) | hp) | hp) | hp
  · obtain ⟨q, -, hqp⟩ := List.mem_filterMap.mp hp
    rw [known] at hqp
    split_ifs at hqp <;> exact Option.some.inj hqp ▸ List.cons_ne_nil _ _
  · exact hsupplied "Host" _ (List.cons_ne_nil _ _) p hp
  · exact hsupplied "User-Agent" _ (List.cons_ne_nil _ _) p hp
  · exact hfields "Proxy-Authorization" _ (List.cons_ne_nil _ _) p hp
  · exact h p (List.mem_filter.mp hp).1
  · exact hfields "Connection" _ (List.cons_ne_nil _ _) p hp
  · exact hfields "Content-Length" _ (List.cons_ne_nil _ _) p hp

/-! ### The body -/

theorem contentLength_ofNat (n : ℕ) : Http.contentLength (Numeral.ofNat n).text = some n := by
  have hread := readDigits_append (l := digits n) (fun d hd => lt_of_mem_digits hd) (p := [])
    (fun b hb => nomatch hb)
  rw [List.append_nil] at hread
  rw [Http.contentLength, Numeral.text_ofNat, hread]
  cases hd : digits n with
  | nil => exact absurd hd (digits_ne_nil n)
  | cons d l =>
    show some (ofDigits (d :: l)) = some n
    rw [← hd, ofDigits_digits]

theorem takeBody_sentFields
    (hte : values fold (lit "Transfer-Encoding") g.sentFields = []) :
    Http.takeBody g.sentFields g.body = some (g.body, []) := by
  have hlen : values fold (lit "Content-Length") g.sentFields = g.lengthValues := by
    rw [values_sentFields, byClient, if_pos rfl]
    rfl
  rw [Http.takeBody, hte, hlen, lengthValues]
  by_cases hbody : g.body = []
  · rw [if_neg (not_not.mpr hbody), hbody]
    split_ifs
    · decide
    · rfl
  · rw [if_pos hbody]
    simp [contentLength_ofNat]

theorem transferEncoding_nil {fields : List (Bytes × Bytes)} {body : Bytes}
    (h : Http.takeBody fields body = some (body, [])) :
    values fold (lit "Transfer-Encoding") fields = [] := by
  rw [Http.takeBody] at h
  split at h
  · assumption
  · split_ifs at h
    have hlen := Http.decodeChunked_length h
    simp at hlen
  · cases h

/-! ### The condition -/

theorem values_pairs_of_ne {name : Bytes} (h : fold name ≠ fold (lit "Content-Type")) :
    values fold name g.pairs =
      (values fold name (pairsOf g.headers.list)).map strip := by
  rw [values_pairs, if_neg fun hcond => h hcond.1, List.append_nil]

/-- What is sent of a name, if it is not `User-Agent`, is what `get` gives or a default just if
`get`
sees all values as they are. -/
theorem values_eq_fields_iff (acc : g.Accepted) {name : Bytes} (hclient : g.byClient name = none)
    (hagent : fold name = fold (lit "User-Agent") →
      values fold name (pairsOf g.headers.list) = []) :
    values fold name g.sentFields = g.fields name ↔ ngxHeadersJsGetAll g.headers name =
        (values fold name (pairsOf g.headers.list)).map strip := by
  have hnil := getAll_eq_nil acc.tokens name
  rw [values_sentFields, fields, hclient, Option.getD_none, Option.getD_none]
  by_cases hempty : values fold name (pairsOf g.headers.list) = []
  · rw [if_pos (hnil.mpr hempty), hempty, List.map_nil, hnil.mpr hempty, default, values_pairs,
      hempty]
    have hne := host_ne_userAgent
    have hne' : fold (lit "Host") ≠ fold (lit "Content-Type") := by decide
    have hne'' : fold (lit "User-Agent") ≠ fold (lit "Content-Type") := by decide
    by_cases hhost : fold name = fold (lit "Host")
    · simp [hhost, hne']
    by_cases hagent : fold name = fold (lit "User-Agent")
    · simp [hagent, Ne.symm hne, hne'']
    simp [hhost, hagent]
  · have hpairs : values fold name g.pairs =
        (values fold name (pairsOf g.headers.list)).map strip := by
      rw [values_pairs, if_neg fun hcond => hempty hcond.2.1, List.append_nil]
    have hne : (values fold name (pairsOf g.headers.list)).map strip ≠ [] :=
      fun h => hempty (List.map_eq_nil_iff.mp h)
    rw [if_neg (mt hnil.mp hempty), hpairs, if_neg hne, if_neg fun h => hempty (hagent h), ite_self,
      eq_comm]

theorem appendPort_all (port : ℕ) : (appendPort port).all isTargetChar = true := by
  have hdigit : ∀ d < 10, isTargetChar (digitChar d) = true := by decide
  rw [appendPort, List.all_cons, Bool.and_eq_true]
  refine ⟨by decide, List.all_eq_true.mpr fun c hc => ?_⟩
  rw [Numeral.text_ofNat] at hc
  obtain ⟨d, hd, rfl⟩ := List.mem_map.mp hc
  exact hdigit d (lt_of_mem_digits hd)

theorem target_all_iff (acc : g.Accepted) :
    g.target.all isTargetChar = true ↔ (g.isProxy = true → g.u.host.all isTargetChar = true) := by
  have hslash : (if g.u.uri.head? ≠ some (chr '/') then lit "/" else []).all isTargetChar = true
    := by
    split_ifs <;> decide
  rw [target, List.all_append, List.all_append, hslash, acc.uri, Bool.and_true, Bool.and_true]
  by_cases hproxy : g.isProxy = true
  · have hport : (if g.u.port ≠ g.defaultPort then appendPort g.u.port else []).all isTargetChar =
        true := by
      split_ifs
      · exact appendPort_all _
      · rfl
    have hschema : (lit "http://").all isTargetChar = true := by decide
    rw [if_pos hproxy, List.all_append, List.all_append, hport, hschema, Bool.true_and,
      Bool.and_true]
    exact ⟨fun h _ => h, fun h => h hproxy⟩
  · rw [if_neg hproxy]
    exact ⟨fun _ h => absurd h hproxy, fun _ => rfl⟩

theorem target_ne_nil : g.target ≠ [] := by
  rw [target]
  by_cases hslash : g.u.uri.head? = some (chr '/')
  · intro hnil
    rw [(List.append_eq_nil_iff.mp hnil).2] at hslash
    cases hslash
  · rw [if_pos hslash]
    simp [lit]

variable {bytes : Bytes}

theorem Sendable.isSentAs (acc : g.Accepted) (h : g.Sendable)
    (hbytes : bytes = g.method ++ lit " " ++ g.target ++ lit " HTTP/1.1" ++ crlf ++
      (joinLines (fieldLines g.sentFields) ++ (crlf ++ g.body))) : g.IsSentAs bytes := by
  have hread := readable_sentFields acc h.host
  have hnone : ∀ s : String, (∀ p ∈ pairsOf g.headers.list, fold p.1 ≠ fold (lit s)) →
      values fold (lit s) (pairsOf g.headers.list) = [] := fun s hs =>
    (values_eq_nil fold).mpr hs
  have hagent := hnone "User-Agent" fun p hp => (h.names p hp).2.1
  have hte := hnone "Transfer-Encoding" fun p hp => (h.names p hp).2.2
  have hvalues : ∀ name, values fold name g.sentFields = g.fields name := by
    intro name
    cases hclient : g.byClient name with
    | some values => rw [values_sentFields, fields, hclient, Option.getD_some, Option.getD_some]
    | none =>
      refine (values_eq_fields_iff acc hclient fun heq => ?_).mpr (h.shown name hclient)
      rw [values_eq_of_fold heq, hagent]
  have hhost : (values fold (lit "Host") g.sentFields).length = 1 := by
    have hne : fold (lit "Host") ≠ fold (lit "Content-Type") := by decide
    have hpairs := values_pairs_of_ne (g := g) hne
    rw [values_sentFields, byClient_host, Option.getD_none, if_pos rfl]
    split_ifs with hnil
    · rfl
    · have hone := h.oneHost
      have hpos := List.length_pos_of_ne_nil hnil
      rw [hpairs, List.length_map] at hpos ⊢
      omega
  have hte' : values fold (lit "Transfer-Encoding") g.sentFields = [] := by
    rw [values_sentFields, byClient_transferEncoding, Option.getD_none, if_neg (by decide),
      if_neg (by decide), values_pairs_of_ne (by decide), hte]
    rfl
  have hnames : ∀ p ∈ g.sentFields, p.1 ≠ [] := by
    have hpairs : ∀ p ∈ g.pairs, p.1 ≠ [] := by
      intro p hp
      obtain hp | hp := List.mem_append.mp hp
      · obtain ⟨q, hq, rfl⟩ := List.mem_map.mp hp
        exact (h.names q hq).1
      · split_ifs at hp
        · rw [List.mem_singleton.mp hp]
          exact List.cons_ne_nil _ _
        · cases hp
    exact name_ne_nil_sentFields hpairs
  refine ⟨g.sentFields, ?_, hvalues⟩
  rw [hbytes, Http.parseRequest_lines h.method.1 h.method.2 target_ne_nil
    ((target_all_iff acc).mpr h.target) (Http.fieldLines_isLine hread),
    Http.mapM_fieldLines hread, if_pos hnames, Option.bind_some, if_pos hhost,
    takeBody_sentFields hte']
  rfl

/-- `User-Agent` is sent twice, so it is not sent as it is given. -/
theorem userAgent_nil (acc : g.Accepted)
    (h : values fold (lit "User-Agent") g.sentFields = g.fields (lit "User-Agent")) :
    values fold (lit "User-Agent") (pairsOf g.headers.list) = [] := by
  by_contra hne
  have hagent : fold (lit "User-Agent") ≠ fold (lit "Content-Type") := by decide
  have hpairs := values_pairs_of_ne (g := g) hagent
  have hne' : values fold (lit "User-Agent") g.pairs ≠ [] := by
    rw [hpairs]
    exact fun h => hne (List.map_eq_nil_iff.mp h)
  rw [values_sentFields, Given.fields, byClient_userAgent, Option.getD_none, Option.getD_none,
    if_neg (Ne.symm host_ne_userAgent), if_pos rfl, if_neg hne',
    if_neg (mt (getAll_eq_nil acc.tokens _).mp hne), hpairs] at h
  have hle := length_getAll_le acc.forward (lit "User-Agent")
  rw [← h, length_positions acc.tokens, List.length_append, List.length_map] at hle
  have hpos := List.length_pos_of_ne_nil hne
  omega

theorem IsSentAs.sendable (acc : g.Accepted) (h : g.IsSentAs bytes)
    (hbytes : bytes = g.method ++ lit " " ++ g.target ++ lit " HTTP/1.1" ++ crlf ++
      (joinLines (fieldLines g.sentFields) ++ (crlf ++ g.body))) : g.Sendable := by
  obtain ⟨fields, hparse, hvalues⟩ := h
  obtain ⟨hmethod, htarget, hvalid⟩ := Http.parseRequest_valid hparse
  have hhost : values fold (lit "Host") (pairsOf g.headers.list) = [] →
      strip g.hostField = g.hostField ∧ g.hostField.all isFieldChar = true := by
    intro hnil
    have hfield := hvalues (lit "Host")
    rw [Given.fields, byClient_host, Option.getD_none,
      if_pos ((getAll_eq_nil acc.tokens _).mpr hnil), default, if_pos rfl] at hfield
    have hmem : g.hostField ∈ values fold (lit "Host") fields :=
      hfield ▸ List.mem_singleton_self _
    obtain ⟨field, hf, heq⟩ := List.mem_map.mp hmem
    exact heq ▸ (hvalid field (List.mem_filter.mp hf).1).2
  have hread := readable_sentFields acc hhost
  rw [hbytes, Http.parseRequest_lines hmethod.1 hmethod.2 target_ne_nil htarget
    (Http.fieldLines_isLine hread), Http.mapM_fieldLines hread] at hparse
  split_ifs at hparse with hnames
  · rw [Option.bind_some] at hparse
    split_ifs at hparse with hone
    obtain ⟨body, hbody, heq⟩ := Option.map_eq_some_iff.mp hparse
    obtain ⟨heq, hnil⟩ := Prod.mk.inj heq
    obtain ⟨-, -, rfl, hbody'⟩ := Http.Request.mk.inj heq
    have hte := transferEncoding_nil (hbody.trans (by rw [← hbody', ← hnil]))
    rw [values_sentFields, byClient_transferEncoding, Option.getD_none, if_neg (by decide),
      if_neg (by decide), values_pairs_of_ne (by decide), List.map_eq_nil_iff] at hte
    have hagent := userAgent_nil acc (hvalues _)
    refine ⟨hmethod, (target_all_iff acc).mp htarget, hhost, fun p hp => ⟨?_, ?_, ?_⟩, ?_,
      fun name hclient => ?_⟩
    · intro hempty
      have hmem : (p.1, strip p.2) ∈ g.pairs :=
        List.mem_append_left _ (List.mem_map.mpr ⟨p, hp, rfl⟩)
      refine hnames (p.1, strip p.2) ?_ hempty
      have hother : (p.1, strip p.2) ∈ g.otherFields := by
        refine List.mem_filter.mpr ⟨hmem, decide_eq_true ?_⟩
        rw [hempty]
        refine ⟨by decide, ?_⟩
        rw [byClient, if_neg (by decide), if_neg (by decide), if_neg fun h => absurd h.2 (by decide)]
      simp only [sentFields, List.mem_append]
      exact .inl (.inl (.inr hother))
    · exact (values_eq_nil fold).mp hagent p hp
    · exact (values_eq_nil fold).mp hte p hp
    · rw [values_sentFields, byClient_host, Option.getD_none, if_pos rfl,
        values_pairs_of_ne (by decide)] at hone
      split_ifs at hone with hnil
      · rw [List.map_eq_nil_iff.mp hnil]
        exact Nat.zero_le 1
      · rw [List.length_map] at hone
        exact Nat.le_of_eq hone
    · refine (values_eq_fields_iff acc hclient fun heq => ?_).mp (hvalues name)
      rw [values_eq_of_fold heq, hagent]
  · cases hparse

theorem isSentAs_iff (acc : g.Accepted)
    (hbytes : bytes = g.method ++ lit " " ++ g.target ++ lit " HTTP/1.1" ++ crlf ++
      (joinLines (fieldLines g.sentFields) ++ (crlf ++ g.body))) :
    g.IsSentAs bytes ↔ g.Sendable :=
  ⟨fun h => h.sendable acc hbytes, fun h => h.isSentAs acc hbytes⟩

end Given

end Njs.Fetch
