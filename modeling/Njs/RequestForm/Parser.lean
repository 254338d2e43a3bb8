import Njs.RequestForm.Params
import Njs.Lib.Occurrence

/-!
# The parser of request forms

`ngx_js_parse_form` (`nginx/ngx_js_form.c`): `application/x-www-form-urlencoded` and
`multipart/form-data`. A pointer into the body is the list of the bytes from it on.
-/

namespace Njs.RequestForm

open Text
open Fetch (isOws sameName)

/-! ### Forms -/

/-- `ngx_js_form_entry_t`. -/
structure Entry where
  name : Bytes
  value : Bytes
  filename : Bytes
  isFile : Bool
  deriving DecidableEq

/-- `ngx_js_form_t`. -/
structure Form where
  entries : List Entry
  hasFiles : Bool
  deriving DecidableEq

/-- `NGX_JS_FORM_MAX_BOUNDARY_LEN`. -/
def maxBoundaryLen : ℕ := 200

/-- `NGX_JS_FORM_MAX_PART_HEADERS`. -/
def maxPartHeaders : ℕ := 32

/-- `NGX_JS_FORM_MAX_PART_HEADER_LINE`. -/
def maxPartHeaderLine : ℕ := 4096

/-- `NGX_JS_FORM_MAX_PART_HEADER_SIZE`. -/
def maxPartHeaderSize : ℕ := 16384

/-- `ngx_js_form_find`: the bytes in front of the first occurrence, and those behind it. -/
def ngxJsFormFind (p pattern : Bytes) : Option (Bytes × Bytes) := p.dropInfix? pattern

variable {p boundary : Bytes}

theorem length_ngxJsFormFind_le {pattern l r : Bytes} (h : ngxJsFormFind p pattern = some (l, r)) :
    pattern.length + r.length ≤ p.length := by
  have hlen := Occurrence.length_of_dropInfix? h
  omega

/-- `ngx_js_form_add_entry`, with the number of entries so far. -/
def ngxJsFormAddEntry (maxKeys : ℕ) (form : Form) (count : ℕ) (entry : Entry) :
    Except Error (Form × ℕ) :=
  if count + 1 > maxKeys then .error (.parseError "maxKeys limit exceeded")
  else .ok ({ form with entries := form.entries ++ [entry] }, count + 1)

/-! ### Content-Type -/

/-- `NGX_JS_FORM_URLENCODED` and `NGX_JS_FORM_MULTIPART`. -/
inductive FormType
  | urlencoded
  | multipart
  deriving DecidableEq

/-- What `ngx_js_form_parse_content_type` does with a parameter: it keeps the boundary. -/
def boundaryParam (boundary : Option Bytes) (param value : Bytes) : Except Error (Option Bytes) :=
  if sameName param (lit "boundary") then
    if boundary.isSome then .error (.parseError "duplicate boundary parameter")
    else if value.length = 0 ∨ value.length > maxBoundaryLen then
      .error (.parseError "invalid multipart boundary")
    else .ok (some value)
  else .ok boundary

def formType (mediaType : Bytes) : Option FormType :=
  if sameName mediaType (lit "application/x-www-form-urlencoded") then some .urlencoded
  else if sameName mediaType (lit "multipart/form-data") then some .multipart
  else none

/-- `ngx_js_form_parse_content_type`. A missing header is an empty value. -/
def ngxJsFormParseContentType (contentType : Bytes) : Except Error (FormType × Option Bytes) :=
  if contentType.length = 0 then .error (.typeError "request content type is required")
  else
    let mediaType := contentType.takeWhile (· ≠ chr ';')
    match formType ((skipOws mediaType).rdropWhile isOws) with
    | none => .error (.typeError "unsupported content type")
    | some type => do
      let boundary ← forParams "malformed content type" boundaryParam
        (contentType.dropWhile (· ≠ chr ';')) none
      if type = .multipart ∧ boundary = none then
        .error (.typeError "multipart boundary is required")
      else .ok (type, boundary)

/-! ### The header of a part -/

/-- What the header of a part says: `name`, `is_file` and `filename`. -/
structure Disposition where
  name : Bytes
  isFile : Bool
  filename : Bytes
  deriving DecidableEq

/-- What `ngx_js_form_parse_disposition` does with a parameter, given the name and the file name
it has seen. -/
def dispositionParam (seen : Option Bytes × Option Bytes) (param value : Bytes) :
    Except Error (Option Bytes × Option Bytes) :=
  if sameName param (lit "name") then
    if seen.1.isSome then .error (.parseError "duplicate name parameter")
    else .ok (some value, seen.2)
  else if sameName param (lit "filename") then
    if seen.2.isSome then .error (.parseError "duplicate filename parameter")
    else .ok (seen.1, some value)
  else .ok seen

def ngxJsFormParseDisposition (value : Bytes) : Except Error Disposition :=
  if sameName (value.takeWhile (· ≠ chr ';')) (lit "form-data") then do
    let seen ← forParams "malformed Content-Disposition" dispositionParam
      (value.dropWhile (· ≠ chr ';')) (none, none)
    match seen with
    | (none, _) => .error (.parseError "multipart field name is required")
    | (some name, filename) => .ok ⟨name, filename.isSome, filename.getD []⟩
  else .error (.parseError "unsupported disposition type")

/-- One round of the loop of `ngx_js_form_parse_part_headers`, with the number of lines so far and
the disposition if it was seen. -/
def partHeaderLine (line : Bytes) (headers : ℕ) (seen : Option Disposition) :
    Except Error (Option Disposition) :=
  if line.length > maxPartHeaderLine then .error (.parseError "multipart header line is too long")
  else if headers + 1 > maxPartHeaders then .error (.parseError "too many multipart headers")
  else
    match line.dropWhile (· ≠ chr ':') with
    | [] => .error (.parseError "malformed multipart header")
    | _ :: value =>
      if sameName (line.takeWhile (· ≠ chr ':')) (lit "Content-Disposition") then
        if seen.isSome then .error (.parseError "duplicate Content-Disposition header")
        else do
          let disposition ← ngxJsFormParseDisposition ((skipOws value).rdropWhile isOws)
          .ok (some disposition)
      else .ok seen

/-- The loop of `ngx_js_form_parse_part_headers`. -/
def partHeaderLines (p : Bytes) (headers : ℕ) (seen : Option Disposition) :
    Except Error (Option Disposition) :=
  if p = [] then .ok seen
  else
    match _h : ngxJsFormFind p (lit "\r\n") with
    | none => partHeaderLine p headers seen
    | some (line, p) => do
      let seen ← partHeaderLine line headers seen
      partHeaderLines p (headers + 1) seen
termination_by p.length
decreasing_by
  have hle := length_ngxJsFormFind_le _h
  have hcrlf : (lit "\r\n").length = 2 := by decide
  omega

def ngxJsFormParsePartHeaders (p : Bytes) : Except Error Disposition := do
  match ← partHeaderLines p 0 none with
  | none => .error (.parseError "missing Content-Disposition header")
  | some disposition => .ok disposition

/-! ### Bodies of several parts -/

/-- The loop that looks for the end of a part: it stops at line breaks followed by two hyphens,
and compares what follows with the boundary. -/
def partEnd (boundary scan : Bytes) : Option (Bytes × Bytes) :=
  match _h : ngxJsFormFind scan (lit "\r\n--") with
  | none => none
  | some (before, next) =>
    if boundary <+: next then some (before, next.drop boundary.length)
    else (partEnd boundary next).map fun q => (before ++ lit "\r\n--" ++ q.1, q.2)
termination_by scan.length
decreasing_by
  have hle := length_ngxJsFormFind_le _h
  have hlen : (lit "\r\n--").length = 4 := by decide
  omega

/-- What follows a delimiter: two hyphens behind the last one, else a line break; with the bytes
behind these. -/
def delimiterEnd (p : Bytes) : Except Error (Bool × Bytes) :=
  if lit "--" <+: p then .ok (true, p.drop 2)
  else if lit "\r\n" <+: p then .ok (false, p.drop 2)
  else .error (.parseError "malformed multipart boundary")

def partEntry (disposition : Disposition) (content : Bytes) : Entry :=
  ⟨disposition.name, if disposition.isFile then [] else content, disposition.filename,
    disposition.isFile⟩

/-- `has_files` after a part. -/
def markFiles (form : Form) (disposition : Disposition) : Form :=
  if disposition.isFile then { form with hasFiles := true } else form

/-- One round of the loop of `ngx_js_form_parse_multipart`, up to the end of the next delimiter. -/
def multipartPart (boundary : Bytes) (maxKeys : ℕ) (p : Bytes) (form : Form) (count : ℕ) :
    Except Error (Form × ℕ × Bool × Bytes) :=
  match ngxJsFormFind p (lit "\r\n\r\n") with
  | none => .error (.parseError "missing multipart header separator")
  | some (header, p) =>
    if header.length > maxPartHeaderSize then .error (.parseError "multipart headers are too large")
    else do
      let disposition ← ngxJsFormParsePartHeaders header
      match partEnd boundary p with
      | none => .error (.parseError "truncated multipart body")
      | some (content, p) => do
        let (form, count) ← ngxJsFormAddEntry maxKeys (markFiles form disposition) count
          (partEntry disposition content)
        let (last, p) ← delimiterEnd p
        .ok (form, count, last, p)

theorem length_delimiterEnd_lt {q : Bytes} {last : Bool} (h : delimiterEnd p = .ok (last, q)) :
    q.length < p.length := by
  rw [delimiterEnd] at h
  split_ifs at h with hclose hnext
  · obtain ⟨-, rfl⟩ := Prod.mk.inj (Except.ok.inj h)
    have hle := hclose.length_le
    rw [show (lit "--").length = 2 by decide] at hle
    rw [List.length_drop]
    omega
  · obtain ⟨-, rfl⟩ := Prod.mk.inj (Except.ok.inj h)
    have hle := hnext.length_le
    rw [show (lit "\r\n").length = 2 by decide] at hle
    rw [List.length_drop]
    omega

theorem length_partEnd_le {scan content : Bytes} (h : partEnd boundary scan = some (content, p)) :
    p.length ≤ scan.length := by
  fun_induction partEnd boundary scan generalizing content p with
  | case1 scan hnone => simp at h
  | case2 scan before next hfind hpre =>
    obtain ⟨-, rfl⟩ := Prod.mk.inj (Option.some.inj h)
    have hle := length_ngxJsFormFind_le hfind
    rw [List.length_drop]
    omega
  | case3 scan before next hfind hpre ih =>
    obtain ⟨q, hq, heq⟩ := Option.map_eq_some_iff.mp h
    obtain ⟨-, rfl⟩ := Prod.mk.inj heq
    have hle := length_ngxJsFormFind_le hfind
    have hle' := ih hq
    omega

theorem multipartPart_ok_iff {maxKeys : ℕ} {q : Bytes} {form form' : Form} {count count' : ℕ}
    {last : Bool} :
    multipartPart boundary maxKeys p form count = .ok (form', count', last, q) ↔
      ∃ header p₁ disposition content p₂, ngxJsFormFind p (lit "\r\n\r\n") = some (header, p₁) ∧
        header.length ≤ maxPartHeaderSize ∧
        ngxJsFormParsePartHeaders header = .ok disposition ∧
        partEnd boundary p₁ = some (content, p₂) ∧
        ngxJsFormAddEntry maxKeys (markFiles form disposition) count
          (partEntry disposition content) = .ok (form', count') ∧
        delimiterEnd p₂ = .ok (last, q) := by
  constructor
  · intro h
    rw [multipartPart] at h
    split at h
    · simp at h
    rename_i header p₁ hfind
    split_ifs at h with hlen
    rcases hd : ngxJsFormParsePartHeaders header with e | disposition <;> rw [hd] at h
    · simp [bind, Except.bind] at h
    simp only [bind, Except.bind] at h
    split at h
    · simp at h
    rename_i content p₂ hend
    split at h
    · simp at h
    rename_i added hadd
    split at h
    · simp at h
    rename_i followed hfollow
    obtain ⟨rfl, rfl, rfl⟩ : added.1 = form' ∧ added.2 = count' ∧ followed = (last, q) := by
      simpa using h
    exact ⟨header, p₁, disposition, content, p₂, hfind, by omega, hd, hend, hadd,
      hfollow⟩
  · rintro ⟨header, p₁, disposition, content, p₂, hfind, hlen, hd, hend, hadd, hfollow⟩
    rw [multipartPart, hfind]
    simp only [if_neg (show ¬ header.length > maxPartHeaderSize by omega), hd, bind, Except.bind,
      hend, hadd, hfollow]

theorem length_multipartPart_lt {maxKeys : ℕ} {q : Bytes} {form form' : Form} {count count' : ℕ}
    {last : Bool} (h : multipartPart boundary maxKeys p form count = .ok (form', count', last, q)) :
    q.length < p.length := by
  obtain ⟨header, p₁, disposition, content, p₂, hfind, -, -, hend, -, hfollow⟩ :=
    multipartPart_ok_iff.mp h
  have h₁ := length_ngxJsFormFind_le hfind
  have h₂ := length_partEnd_le hend
  have h₃ := length_delimiterEnd_lt hfollow
  omega

/-- The loop of `ngx_js_form_parse_multipart`; besides the form, what stands behind the last
delimiter. -/
def multipartParts (boundary : Bytes) (maxKeys : ℕ) (p : Bytes) (form : Form) (count : ℕ) :
    Except Error (Form × Bytes) :=
  match _h : multipartPart boundary maxKeys p form count with
  | .error e => .error e
  | .ok (form, count, last, p) =>
    if last then .ok (form, p) else multipartParts boundary maxKeys p form count
termination_by p.length
decreasing_by exact length_multipartPart_lt _h

/-- The body of `ngx_js_form_parse_multipart`; besides the form, what stands behind the last
delimiter. The dash-boundary is a prefix of the close-delimiter. -/
def multipartBody (body boundary : Bytes) (maxKeys : ℕ) : Except Error (Form × Bytes) :=
  let delimiter := lit "--" ++ boundary
  let close := ngxJsFormFind body (delimiter ++ lit "--")
  match ngxJsFormFind body delimiter with
  | none => .error (.parseError "malformed multipart body")
  | some (before, p) =>
    if close.any fun found => found.1.length < before.length then
      .error (.parseError "malformed multipart body")
    else do
      let (last, p) ← delimiterEnd p
      if last then .ok (⟨[], false⟩, p) else multipartParts boundary maxKeys p ⟨[], false⟩ 0

def ngxJsFormParseMultipart (body boundary : Bytes) (maxKeys : ℕ) : Except Error Form :=
  (multipartBody body boundary maxKeys).map Prod.fst

/-! ### Bodies with escapes -/

/-- A digit for `ngx_hextoi`. -/
def hexDigit (ch : UInt8) : Option UInt8 :=
  if chr '0' ≤ ch ∧ ch ≤ chr '9' then some (ch - chr '0')
  else
    let c := ch ||| 0x20
    if chr 'a' ≤ c ∧ c ≤ chr 'f' then some (c - chr 'a' + 10) else none

def ngxJsFormDecodeUrlencoded : Bytes → Except Error Bytes
  | [] => .ok []
  | c :: p =>
    if c = chr '+' then (chr ' ' :: ·) <$> ngxJsFormDecodeUrlencoded p
    else if c = chr '%' then
      match p with
      | a :: b :: p =>
        match hexDigit a, hexDigit b with
        | some m, some n => ((16 * m + n) :: ·) <$> ngxJsFormDecodeUrlencoded p
        | _, _ => .error (.parseError "malformed percent escape")
      | _ => .error (.parseError "malformed percent escape")
    else (c :: ·) <$> ngxJsFormDecodeUrlencoded p

/-- The loop of `ngx_js_form_parse_urlencoded`. -/
def urlencodedFields (maxKeys : ℕ) (p : Bytes) (form : Form) (count : ℕ) : Except Error Form :=
  match p with
  | [] => .ok form
  | c :: q =>
    if c = chr '&' then urlencodedFields maxKeys q form count
    else do
      let field := (c :: q).takeWhile (· ≠ chr '&')
      let name ← ngxJsFormDecodeUrlencoded (field.takeWhile (· ≠ chr '='))
      let value ← ngxJsFormDecodeUrlencoded ((field.dropWhile (· ≠ chr '=')).drop 1)
      let (form, count) ← ngxJsFormAddEntry maxKeys form count ⟨name, value, [], false⟩
      match _h : (c :: q).dropWhile (· ≠ chr '&') with
      | [] => .ok form
      | _ :: rest => urlencodedFields maxKeys rest form count
termination_by p.length
decreasing_by
  · simp
  · have hle := (List.dropWhile_suffix (l := c :: q) (· ≠ chr '&')).length_le
    rw [_h] at hle
    simp only [List.length_cons] at hle ⊢
    omega

def ngxJsFormParseUrlencoded (body : Bytes) (maxKeys : ℕ) : Except Error Form :=
  urlencodedFields maxKeys body ⟨[], false⟩ 0

/-! ### The parser of forms -/

/-- The form that `ngx_js_parse_form` makes. -/
def parsedForm (contentType body : Bytes) (maxKeys : ℕ) : Except Error Form := do
  let (type, boundary) ← ngxJsFormParseContentType contentType
  match type with
  | .urlencoded => ngxJsFormParseUrlencoded body maxKeys
  | .multipart => ngxJsFormParseMultipart body (boundary.getD []) maxKeys

/-- `ngx_js_parse_form`: the result, and what `*form` is afterwards. -/
def ngxJsParseForm (contentType body : Bytes) (maxKeys : ℕ) (form : Option Form) :
    Except Error Unit × Option Form :=
  match parsedForm contentType body maxKeys with
  | .error e => (.error e, form)
  | .ok f => (.ok (), some f)

end Njs.RequestForm
