import Njs.Fetch.Headers

/-!
# Parameters of header values

What the parser of request forms (`nginx/ngx_js_form.c`) makes of `; name=value` in the values of
`Content-Type` and `Content-Disposition`. A pointer into a string and its end are the list of the
bytes between them; memory is not limited.
-/

namespace Njs.RequestForm

open Text
open Fetch (isOws)

/-! ### The parser -/

/-- The errors, with their texts. -/
inductive Error
  /-- `NGX_JS_FORM_TYPE_ERROR`. -/
  | typeError (text : String)
  /-- `NGX_JS_FORM_PARSE_ERROR`. -/
  | parseError (text : String)
  deriving DecidableEq

/-- `ngx_js_form_skip_ows`. -/
def skipOws (p : Bytes) : Bytes := p.dropWhile isOws

/-- The loop over a quoted value: the bytes before the closing quote, and those from it on. -/
def takeQuoted : Bytes → Bytes × Bytes
  | [] => ([], [])
  | c :: p =>
    if c = chr '"' then ([], c :: p)
    else if c = chr '\\' then
      match p with
      | [] => ([c], [])
      | d :: p => (c :: d :: (takeQuoted p).1, (takeQuoted p).2)
    else (c :: (takeQuoted p).1, (takeQuoted p).2)

/-- `ngx_js_form_copy_quoted`. -/
def copyQuoted : Bytes → Bytes
  | [] => []
  | c :: p =>
    if c = chr '\\' then
      match p with
      | [] => [c]
      | d :: p => d :: copyQuoted p
    else c :: copyQuoted p

theorem takeQuoted_quote (p : Bytes) : takeQuoted (chr '"' :: p) = ([], chr '"' :: p) := by
  rw [takeQuoted.eq_def]
  simp

theorem takeQuoted_pair (d : UInt8) (p : Bytes) :
    takeQuoted (chr '\\' :: d :: p) = (chr '\\' :: d :: (takeQuoted p).1, (takeQuoted p).2) := by
  rw [takeQuoted.eq_def]
  simp only [if_neg (show chr '\\' ≠ chr '"' by decide), if_true]

theorem takeQuoted_byte {c : UInt8} (hq : c ≠ chr '"') (hb : c ≠ chr '\\') (p : Bytes) :
    takeQuoted (c :: p) = (c :: (takeQuoted p).1, (takeQuoted p).2) := by
  rw [takeQuoted.eq_def]
  simp only [if_neg hq, if_neg hb]

theorem copyQuoted_pair (d : UInt8) (p : Bytes) :
    copyQuoted (chr '\\' :: d :: p) = d :: copyQuoted p := by
  rw [copyQuoted.eq_def]
  simp only [if_true]

theorem copyQuoted_byte {c : UInt8} (hb : c ≠ chr '\\') (p : Bytes) :
    copyQuoted (c :: p) = c :: copyQuoted p := by
  rw [copyQuoted.eq_def]
  simp only [if_neg hb]

/-- The loops over a name and over a value without quotes stop at white space and at these. -/
def isParamByte (stops : Bytes) (c : UInt8) : Bool := !stops.contains c && !isOws c

/-- The part of `ngx_js_form_parse_param` behind the equals sign. -/
def parseParamValue (p : Bytes) : Except Error (Bytes × Bytes) :=
  match p with
  | [] => .error (.parseError "empty parameter value")
  | c :: q =>
    if c = chr '"' then
      match takeQuoted q with
      | (_, []) => .error (.parseError "unterminated quoted parameter")
      | (value, _ :: q) => .ok (copyQuoted value, q)
    else
      match (c :: q).takeWhile (isParamByte [chr ';']) with
      | [] => .error (.parseError "empty parameter value")
      | value => .ok (value, (c :: q).dropWhile (isParamByte [chr ';']))

/-- `ngx_js_form_parse_param`: the name and the value of a parameter, and what follows it. -/
def ngxJsFormParseParam (p : Bytes) : Except Error (Bytes × Bytes × Bytes) :=
  let p := skipOws p
  match p.takeWhile (isParamByte [chr '=', chr ';']) with
  | [] => .error (.parseError "malformed parameter")
  | param =>
    match skipOws (p.dropWhile (isParamByte [chr '=', chr ';'])) with
    | [] => .error (.parseError "malformed parameter")
    | c :: q =>
      if c = chr '=' then do
        let (value, q) ← parseParamValue (skipOws q)
        .ok (param, value, q)
      else .error (.parseError "malformed parameter")

theorem length_skipOws_le (p : Bytes) : (skipOws p).length ≤ p.length :=
  (List.dropWhile_suffix _).length_le

theorem length_takeQuoted_le (p : Bytes) : (takeQuoted p).2.length ≤ p.length := by
  fun_induction takeQuoted p with
  | case1 => simp
  | case2 => simp
  | case3 => simp
  | case4 d p hc ih =>
    simp only [List.length_cons]
    omega
  | case5 c p hc hd ih =>
    simp only [List.length_cons]
    omega

theorem length_parseParamValue_le {p value q : Bytes} (h : parseParamValue p = .ok (value, q)) :
    q.length ≤ p.length := by
  rw [parseParamValue.eq_def] at h
  rcases p with _ | ⟨c, p⟩
  · simp at h
  dsimp only at h
  split_ifs at h with hc
  · have hle := length_takeQuoted_le p
    rcases hq : takeQuoted p with ⟨raw, _ | ⟨d, rest⟩⟩ <;> rw [hq] at h hle
    · simp at h
    · obtain rfl : rest = q := by simpa using (Prod.mk.inj (Except.ok.inj h)).2
      simp only [List.length_cons] at hle ⊢
      omega
  · split at h
    · simp at h
    · obtain rfl := (Prod.mk.inj (Except.ok.inj h)).2
      exact (List.dropWhile_suffix _).length_le

theorem length_ngxJsFormParseParam_le {p param value q : Bytes}
    (h : ngxJsFormParseParam p = .ok (param, value, q)) : q.length ≤ p.length := by
  rw [ngxJsFormParseParam] at h
  dsimp only at h
  split at h
  · simp at h
  split at h
  · simp at h
  rename_i c r hr
  split_ifs at h with hc
  have hr' : (c :: r).length ≤ p.length := by
    rw [← hr]
    refine (length_skipOws_le _).trans ?_
    exact (List.dropWhile_suffix _).length_le.trans (length_skipOws_le p)
  rcases hv : parseParamValue (skipOws r) with e | ⟨value', q'⟩
  · rw [hv] at h
    simp [bind, Except.bind] at h
  rw [hv] at h
  simp only [bind, Except.bind, Except.ok.injEq, Prod.mk.injEq] at h
  obtain ⟨-, -, rfl⟩ := h
  have hle := (length_parseParamValue_le hv).trans (length_skipOws_le r)
  simp only [List.length_cons] at hr'
  omega

/-- The loop over the parameters behind a media type or a disposition type, with the error for
anything else than a semicolon in front of a parameter, and what is done with a parameter. -/
def forParams {σ : Type} (malformed : String) (f : σ → Bytes → Bytes → Except Error σ)
    (p : Bytes) (s : σ) : Except Error σ :=
  match p with
  | [] => .ok s
  | c :: p =>
    if c = chr ';' then
      match _h : ngxJsFormParseParam (skipOws p) with
      | .error e => .error e
      | .ok (param, value, q) => do
        let s ← f s param value
        forParams malformed f (skipOws q) s
    else .error (.parseError malformed)
termination_by p.length
decreasing_by
  have hq := length_ngxJsFormParseParam_le _h
  have hp := length_skipOws_le p
  have hq' := length_skipOws_le q
  simp only [List.length_cons]
  omega

/-! ### The parameters as they are written -/

/-- A value of a parameter: a token, or a quoted string, in which a byte may be escaped. -/
inductive ValueText
  | token (s : Bytes)
  | quoted (s : List (Bool × UInt8))

/-- A byte of a quoted string, with its backslash. -/
def pairText (c : Bool × UInt8) : Bytes := if c.1 then [chr '\\', c.2] else [c.2]

namespace ValueText

/-- What is written. -/
def text : ValueText → Bytes
  | token s => s
  | quoted s => chr '"' :: s.flatMap pairText ++ [chr '"']

/-- What is meant. -/
def value : ValueText → Bytes
  | token s => s
  | quoted s => s.map Prod.snd

/-- A token is not empty, contains no semicolon and no white space, and does not begin with a
quote; quotes and backslashes of a quoted string are escaped. -/
def WellFormed : ValueText → Prop
  | token s => s ≠ [] ∧ s.head? ≠ some (chr '"') ∧ s.all (isParamByte [chr ';'])
  | quoted s => ∀ c ∈ s, c.1 = false → c.2 ≠ chr '"' ∧ c.2 ≠ chr '\\'

/-- The quoted string of a byte string, with backslashes before quotes and backslashes only. -/
def quote (s : Bytes) : ValueText := quoted (s.map fun c => (c = chr '"' || c = chr '\\', c))

theorem wellFormed_quote (s : Bytes) : (quote s).WellFormed := by
  intro c hc hesc
  obtain ⟨b, -, rfl⟩ := List.mem_map.mp hc
  simpa using hesc

@[simp] theorem value_quote (s : Bytes) : (quote s).value = s := by
  simp [quote, value, Function.comp_def]

end ValueText

/-- White space that may be empty. -/
def AllOws (s : Bytes) : Prop := ∀ c ∈ s, isOws c = true

theorem allOws_nil : AllOws [] := by simp [AllOws]

/-- A parameter as it is written: `; name = value`, with white space at all places. -/
structure ParamText where
  lead : Bytes
  name : Bytes
  gap : Bytes
  gap' : Bytes
  value : ValueText
  trail : Bytes
  lead_ows : AllOws lead
  gap_ows : AllOws gap
  gap'_ows : AllOws gap'
  trail_ows : AllOws trail
  name_ne : name ≠ []
  name_bytes : name.all (isParamByte [chr '=', chr ';'])
  wellFormed : value.WellFormed

/-- What is written, without the semicolon and the white space behind it. -/
def ParamText.body (q : ParamText) : Bytes :=
  q.name ++ q.gap ++ [chr '='] ++ q.gap' ++ q.value.text

/-- What is written. -/
def ParamText.text (q : ParamText) : Bytes := chr ';' :: (q.lead ++ q.body ++ q.trail)

/-- Where a value ends: the text ends there, or white space or a semicolon follows. -/
def Ends (s : Bytes) : Prop := ∀ c ∈ s.head?, isOws c = true ∨ c = chr ';'

theorem skipOws_append {s t : Bytes} (hs : AllOws s) (ht : ∀ c ∈ t.head?, isOws c = false) :
    skipOws (s ++ t) = t := by
  rw [skipOws, List.dropWhile_append_of_pos hs]
  rcases t with _ | ⟨c, t⟩
  · rfl
  · exact List.dropWhile_cons_of_neg (by simp [ht c rfl])

variable {rest : Bytes}

theorem takeQuoted_pairs {s : List (Bool × UInt8)}
    (hs : ∀ c ∈ s, c.1 = false → c.2 ≠ chr '"' ∧ c.2 ≠ chr '\\') :
    takeQuoted (s.flatMap pairText ++ chr '"' :: rest) = (s.flatMap pairText, chr '"' :: rest) := by
  induction s with
  | nil => exact takeQuoted_quote rest
  | cons c s ih =>
    have ih := ih fun d hd => hs d (List.mem_cons_of_mem _ hd)
    obtain ⟨esc, c⟩ := c
    rcases esc with _ | _
    · obtain ⟨hq, hb⟩ := hs _ List.mem_cons_self rfl
      dsimp only at hq hb
      simp only [List.flatMap_cons, pairText, Bool.false_eq_true, if_false, List.cons_append,
        List.nil_append]
      rw [takeQuoted_byte hq hb, ih]
    · simp only [List.flatMap_cons, pairText, if_true, List.cons_append, List.nil_append]
      rw [takeQuoted_pair, ih]

theorem copyQuoted_pairs {s : List (Bool × UInt8)}
    (hs : ∀ c ∈ s, c.1 = false → c.2 ≠ chr '"' ∧ c.2 ≠ chr '\\') :
    copyQuoted (s.flatMap pairText) = s.map Prod.snd := by
  induction s with
  | nil => rfl
  | cons c s ih =>
    have ih := ih fun d hd => hs d (List.mem_cons_of_mem _ hd)
    obtain ⟨esc, c⟩ := c
    rcases esc with _ | _
    · obtain ⟨-, hb⟩ := hs _ List.mem_cons_self rfl
      simp only [List.flatMap_cons, pairText, Bool.false_eq_true, if_false, List.cons_append,
        List.nil_append, List.map_cons]
      rw [copyQuoted_byte hb, ih]
    · simp only [List.flatMap_cons, pairText, if_true, List.cons_append, List.nil_append,
        List.map_cons]
      rw [copyQuoted_pair, ih]

theorem takeWhile_bytes {f : UInt8 → Bool} {s : Bytes} (hs : s.all f) (rest : Bytes)
    (hrest : ∀ c ∈ rest.head?, f c = false) :
    (s ++ rest).takeWhile f = s ∧ (s ++ rest).dropWhile f = rest := by
  have hall : ∀ c ∈ s, f c = true := List.all_eq_true.mp hs
  have htake : rest.takeWhile f = [] ∧ rest.dropWhile f = rest := by
    rcases rest with _ | ⟨c, rest⟩
    · simp
    · simp [hrest c rfl]
  exact ⟨by rw [List.takeWhile_append_of_pos hall, htake.1, List.append_nil],
    by rw [List.dropWhile_append_of_pos hall, htake.2]⟩

theorem parseParamValue_text {v : ValueText} (hv : v.WellFormed) (hrest : Ends rest) :
    parseParamValue (v.text ++ rest) = .ok (v.value, rest) := by
  rcases v with s | s
  · obtain ⟨hne, hhead, hbytes⟩ := hv
    obtain ⟨htake, hdrop⟩ := takeWhile_bytes hbytes rest fun c hc => by
      rcases hrest c hc with hows | rfl
      · simp [isParamByte, hows]
      · simp [isParamByte]
    obtain ⟨c, s, rfl⟩ := List.exists_cons_of_ne_nil hne
    have hc : c ≠ chr '"' := by simpa using hhead
    simp only [ValueText.text, ValueText.value, List.cons_append] at htake hdrop ⊢
    rw [parseParamValue]
    simp only [if_neg hc, htake, hdrop]
  · simp only [ValueText.text, ValueText.value, List.cons_append, List.append_assoc,
      List.nil_append]
    rw [parseParamValue]
    simp only [if_true, takeQuoted_pairs hv, copyQuoted_pairs hv]

theorem isOws_of_isParamByte {stops : Bytes} {c : UInt8} (h : isParamByte stops c = true) :
    isOws c = false := by
  simp only [isParamByte, Bool.and_eq_true, Bool.not_eq_eq_eq_not, Bool.not_true] at h
  exact h.2

theorem head_name {q : ParamText} : ∀ c ∈ (q.name ++ rest).head?, isOws c = false := by
  intro c hc
  obtain ⟨d, s, hs⟩ := List.exists_cons_of_ne_nil q.name_ne
  have hd : isParamByte [chr '=', chr ';'] d = true :=
    List.all_eq_true.mp q.name_bytes d (by simp [hs])
  obtain rfl : d = c := by simpa [hs] using hc
  exact isOws_of_isParamByte hd

theorem head_valueText {v : ValueText} (hv : v.WellFormed) :
    ∀ c ∈ (v.text ++ rest).head?, isOws c = false := by
  intro c hc
  rcases v with s | s
  · obtain ⟨hne, -, hbytes⟩ := hv
    obtain ⟨d, s, rfl⟩ := List.exists_cons_of_ne_nil hne
    obtain rfl : d = c := by simpa [ValueText.text] using hc
    exact isOws_of_isParamByte (List.all_eq_true.mp hbytes d List.mem_cons_self)
  · obtain rfl : chr '"' = c := by simpa [ValueText.text] using hc
    decide

theorem ngxJsFormParseParam_body (q : ParamText) (hrest : Ends rest) :
    ngxJsFormParseParam (q.body ++ rest) = .ok (q.name, q.value.value, rest) := by
  have hbody : q.body ++ rest =
      q.name ++ (q.gap ++ chr '=' :: (q.gap' ++ (q.value.text ++ rest))) := by
    simp [ParamText.body]
  obtain ⟨htake, hdrop⟩ := takeWhile_bytes q.name_bytes
    (q.gap ++ chr '=' :: (q.gap' ++ (q.value.text ++ rest))) fun c hc => by
      rcases hgap : q.gap with _ | ⟨d, s⟩
      · obtain rfl : chr '=' = c := by simpa [hgap] using hc
        decide
      · obtain rfl : d = c := by simpa [hgap] using hc
        simp [isParamByte, q.gap_ows d (by simp [hgap])]
  have hskip : skipOws (q.gap ++ chr '=' :: (q.gap' ++ (q.value.text ++ rest))) =
      chr '=' :: (q.gap' ++ (q.value.text ++ rest)) :=
    skipOws_append q.gap_ows fun c hc => by
      obtain rfl : chr '=' = c := by simpa using hc
      decide
  have hskip' : skipOws (q.gap' ++ (q.value.text ++ rest)) = q.value.text ++ rest :=
    skipOws_append q.gap'_ows (head_valueText q.wellFormed)
  have hlead : skipOws (q.body ++ rest) = q.body ++ rest := by
    rw [hbody]
    exact skipOws_append allOws_nil head_name
  rw [ngxJsFormParseParam]
  dsimp only
  rw [hlead, hbody, htake, hdrop, hskip]
  split
  · exact absurd ‹_› q.name_ne
  · simp only [if_true, hskip', parseParamValue_text q.wellFormed hrest]
    rfl

theorem ends_texts (params : List ParamText) : Ends (params.flatMap ParamText.text) := by
  rcases params with _ | ⟨q, params⟩
  · simp [Ends]
  · simp [Ends, ParamText.text]

theorem forParams_texts {σ : Type} (malformed : String) (f : σ → Bytes → Bytes → Except Error σ)
    (params : List ParamText) (s : σ) :
    forParams malformed f (params.flatMap ParamText.text) s =
      params.foldlM (fun s q => f s q.name q.value.value) s := by
  induction params generalizing s with
  | nil => rw [List.flatMap_nil, forParams]; rfl
  | cons q params ih =>
    have hends : Ends (q.trail ++ params.flatMap ParamText.text) := by
      rcases htrail : q.trail with _ | ⟨c, t⟩
      · simpa using ends_texts params
      · intro d hd
        obtain rfl : c = d := by simpa using hd
        exact .inl (q.trail_ows c (by simp [htrail]))
    have hread := ngxJsFormParseParam_body q hends
    have hlead : skipOws (q.lead ++ (q.body ++ (q.trail ++ params.flatMap ParamText.text))) =
        q.body ++ (q.trail ++ params.flatMap ParamText.text) :=
      skipOws_append q.lead_ows (by
        rw [ParamText.body]
        simp only [List.append_assoc]
        exact head_name)
    have htrail : skipOws (q.trail ++ params.flatMap ParamText.text) =
        params.flatMap ParamText.text :=
      skipOws_append q.trail_ows fun c hc => by
        rcases params with _ | ⟨q', params⟩
        · simp at hc
        · obtain rfl : chr ';' = c := by simpa [ParamText.text] using hc
          decide
    have htext : (q :: params).flatMap ParamText.text =
        chr ';' :: (q.lead ++ (q.body ++ (q.trail ++ params.flatMap ParamText.text))) := by
      simp [ParamText.text]
    rw [htext, forParams, if_pos rfl, List.foldlM_cons, hlead]
    split
    · rename_i e he
      rw [hread] at he
      simp at he
    rename_i param value r hr
    obtain ⟨rfl, rfl, rfl⟩ : q.name = param ∧ q.value.value = value ∧
        q.trail ++ params.flatMap ParamText.text = r := by
      simpa using hread.symm.trans hr
    rw [htrail]
    simp only [ih]

end Njs.RequestForm
