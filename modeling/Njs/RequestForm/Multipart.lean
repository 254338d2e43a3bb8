import Njs.RequestForm.Written

/-!
# Forms of several parts

Writing parts with a boundary, and reading them again with `ngx_js_parse_form`. A body that is cut
before the end of its last delimiter is refused: what the parser has read once it reads again
when more bytes follow, and in the whole body it reads up to the end of the last delimiter.
-/

namespace Njs.RequestForm

open Text

/-! ### More bytes -/

section More

variable {boundary p q : Bytes} {maxKeys : ℕ}

theorem partEnd_eq_find (boundary scan : Bytes) :
    partEnd boundary scan = ngxJsFormFind scan (lit "\r\n--" ++ boundary) := by
  fun_induction partEnd boundary scan with
  | case1 scan hnone => exact (Occurrence.dropInfix?_eq_none_of_append hnone).symm
  | case2 scan before next hfind hpre =>
    obtain ⟨rest, rfl⟩ := hpre
    rw [List.drop_left]
    exact (Occurrence.dropInfix?_here hfind).symm
  | case3 scan before next hfind hpre ih =>
    have hnext := Occurrence.dropInfix?_next (a := chr '\r') (t := [chr '\n', chr '-', chr '-'])
      (by decide) hfind hpre
    rw [ih]
    exact hnext.symm

theorem delimiterEnd_append {last : Bool} (h : delimiterEnd p = .ok (last, q)) (u : Bytes) :
    delimiterEnd (p ++ u) = .ok (last, q ++ u) := by
  rw [delimiterEnd] at h
  split_ifs at h with hclose hnext
  · obtain ⟨rest, rfl⟩ := hclose
    obtain ⟨rfl, rfl⟩ := Prod.mk.inj (Except.ok.inj h)
    rw [delimiterEnd, if_pos ⟨rest ++ u, by simp⟩]
    rfl
  obtain ⟨rest, rfl⟩ := hnext
  obtain ⟨rfl, rfl⟩ := Prod.mk.inj (Except.ok.inj h)
  rw [delimiterEnd, if_neg, if_pos ⟨rest ++ u, by simp⟩]
  · rfl
  · rintro ⟨v, hv⟩
    have hne : chr '-' ≠ chr '\r' := by decide
    exact absurd (by simpa [lit] using congrArg List.head? hv) hne

theorem multipartPart_append {form form' : Form} {count count' : ℕ} {last : Bool}
    (h : multipartPart boundary maxKeys p form count = .ok (form', count', last, q)) (u : Bytes) :
    multipartPart boundary maxKeys (p ++ u) form count = .ok (form', count', last, q ++ u) := by
  obtain ⟨header, p₁, disposition, content, p₂, hfind, hlen, hd, hend, hadd, hfollow⟩ :=
    multipartPart_ok_iff.mp h
  rw [partEnd_eq_find] at hend
  refine multipartPart_ok_iff.mpr ⟨header, p₁ ++ u, disposition, content, p₂ ++ u,
    Occurrence.dropInfix?_append hfind u, hlen, hd, ?_, hadd, delimiterEnd_append hfollow u⟩
  rw [partEnd_eq_find]
  exact Occurrence.dropInfix?_append hend u

theorem multipartParts_step {form form' : Form} {count count' : ℕ} {last : Bool}
    (h : multipartPart boundary maxKeys p form count = .ok (form', count', last, q)) :
    multipartParts boundary maxKeys p form count =
      if last then .ok (form', q) else multipartParts boundary maxKeys q form' count' := by
  rw [multipartParts]
  split
  · rename_i e he
    rw [h] at he
    simp at he
  · rename_i f c l r hr
    obtain ⟨rfl, rfl, rfl, rfl⟩ : form' = f ∧ count' = c ∧ last = l ∧ q = r := by
      simpa using h.symm.trans hr
    rfl

theorem multipartParts_append {form form' : Form} {count : ℕ}
    (h : multipartParts boundary maxKeys p form count = .ok (form', q)) (u : Bytes) :
    multipartParts boundary maxKeys (p ++ u) form count = .ok (form', q ++ u) := by
  fun_induction multipartParts boundary maxKeys p form count with
  | case1 p form count e he => simp at h
  | case2 p form count f c p' hpart =>
    obtain ⟨rfl, rfl⟩ := Prod.mk.inj (Except.ok.inj h)
    rw [multipartParts_step (multipartPart_append hpart u)]
    rfl
  | case3 p form count f c last p' hpart hlast ih =>
    rw [multipartParts_step (multipartPart_append hpart u), if_neg hlast]
    exact ih h

theorem multipartBody_eq {body before : Bytes}
    (h : ngxJsFormFind body (lit "--" ++ boundary) = some (before, p)) :
    multipartBody body boundary maxKeys = (do
        let (last, p) ← delimiterEnd p
        if last then .ok (⟨[], false⟩, p)
        else multipartParts boundary maxKeys p ⟨[], false⟩ 0) := by
  have hclose : (ngxJsFormFind body (lit "--" ++ boundary ++ lit "--")).any
      (fun found => found.1.length < before.length) = false := by
    rcases hc : ngxJsFormFind body (lit "--" ++ boundary ++ lit "--") with _ | ⟨c, r⟩
    · rfl
    · have hbody := Occurrence.eq_of_dropInfix? hc
      have hle := (Occurrence.dropInfix?_iff.mp h).2 c (lit "--" ++ r) (by rw [hbody]; simp)
      simpa using hle
  rw [multipartBody]
  simp only [h, hclose, Bool.false_eq_true, if_false]

theorem multipartBody_append {body : Bytes} {form : Form}
    (h : multipartBody body boundary maxKeys = .ok (form, q)) (u : Bytes) :
    multipartBody (body ++ u) boundary maxKeys = .ok (form, q ++ u) := by
  rcases hfind : ngxJsFormFind body (lit "--" ++ boundary) with _ | ⟨before, p⟩
  · rw [multipartBody] at h
    simp [hfind] at h
  rw [multipartBody_eq hfind] at h
  rw [multipartBody_eq (Occurrence.dropInfix?_append hfind u)]
  rcases hd : delimiterEnd p with e | ⟨last, p'⟩ <;> rw [hd] at h
  · simp [bind, Except.bind] at h
  rw [delimiterEnd_append hd u]
  simp only [bind, Except.bind] at h ⊢
  rcases last with _ | _
  · exact multipartParts_append h u
  · obtain ⟨rfl, rfl⟩ := Prod.mk.inj (Except.ok.inj h)
    rfl

end More

/-! ### The parts of a form -/

/-- A part: the name of a field, the name of a file if there is one, further headers in front of
and behind the disposition, and the content. -/
structure Part where
  name : Bytes
  filename : Option Bytes
  before : List FurtherHeader
  after : List FurtherHeader
  content : Bytes
  name_noBreak : NoBreak name
  filename_noBreak : ∀ f ∈ filename, NoBreak f

namespace Part

variable (part : Part)

def lines : List Bytes :=
  part.before.map FurtherHeader.line ++
    dispositionLine part.name part.filename :: part.after.map FurtherHeader.line

/-- What is written. -/
def text : Bytes := headerBlock part.lines ++ lit "\r\n\r\n" ++ part.content

/-- What the header says. -/
def disposition : Disposition := ⟨part.name, part.filename.isSome, part.filename.getD []⟩

/-- The entry that is meant: the content of a file is dropped. -/
def entry : Entry :=
  ⟨part.name, if part.filename.isSome then [] else part.content, part.filename.getD [],
    part.filename.isSome⟩

end Part

/-- What follows the first delimiter. -/
def textAfter (boundary : Bytes) : List Part → Bytes
  | [] => lit "--"
  | part :: parts =>
    lit "\r\n" ++ part.text ++ lit "\r\n--" ++ boundary ++ textAfter boundary parts

/-- The body that a list of parts is written as, up to the end of the last delimiter. -/
def multipartText (boundary : Bytes) (parts : List Part) : Bytes :=
  lit "--" ++ boundary ++ textAfter boundary parts

def formOf (parts : List Part) : Form :=
  ⟨parts.map Part.entry, parts.any fun part => part.filename.isSome⟩

/-! ### Reading the parts -/

theorem noBreak_lit {s : String} (hs : ∀ c ∈ lit s, c ≠ chr '\r' ∧ c ≠ chr '\n') :
    NoBreak (lit s) := hs

theorem mem_quote {s : Bytes} {c : UInt8} (hc : c ∈ (ValueText.quote s).text) :
    c = chr '"' ∨ c = chr '\\' ∨ c ∈ s := by
  simp only [ValueText.quote, ValueText.text, List.cons_append, List.mem_cons, List.mem_append,
    List.mem_flatMap, List.mem_map, List.not_mem_nil, or_false] at hc
  rcases hc with rfl | ⟨-, ⟨b, hb, rfl⟩, hc⟩ | rfl
  · exact .inl rfl
  · have hpair : c = chr '\\' ∨ c = b := by
      rw [pairText] at hc
      split_ifs at hc
      · simpa using hc
      · exact .inr (by simpa using hc)
    rcases hpair with rfl | rfl
    · exact .inr (.inl rfl)
    · exact .inr (.inr hb)
  · exact .inl rfl

theorem noBreak_quote {s : Bytes} (hs : NoBreak s) : NoBreak (ValueText.quote s).text := by
  intro c hc
  rcases mem_quote hc with rfl | rfl | hc
  · decide
  · decide
  · exact hs c hc

namespace Part

variable {part : Part}

theorem noBreak_dispositionLine : NoBreak (dispositionLine part.name part.filename) := by
  have hparam : ∀ (name value : Bytes) (hne) (hbytes), NoBreak name → NoBreak value →
      NoBreak (quotedParam name value hne hbytes).text := by
    intro name value hne hbytes hname hvalue
    have htext : (quotedParam name value hne hbytes).text =
        lit "; " ++ (name ++ (lit "=" ++ (ValueText.quote value).text)) := by
      simp [ParamText.text, ParamText.body, quotedParam, lit]
    rw [htext]
    exact (noBreak_lit (forall_mem_of_all rfl)).append
      (hname.append ((noBreak_lit (forall_mem_of_all rfl)).append (noBreak_quote hvalue)))
  have hline : dispositionLine part.name part.filename = lit "Content-Disposition: form-data" ++
        (dispositionParams part.name part.filename).flatMap ParamText.text := by
    simp [dispositionLine, dispositionValue, lit]
  rw [hline]
  refine (noBreak_lit (forall_mem_of_all rfl)).append fun c hc => ?_
  obtain ⟨q, hq, hc⟩ := List.mem_flatMap.mp hc
  rw [dispositionParams, List.mem_cons, List.mem_map] at hq
  rcases hq with rfl | ⟨f, hf, rfl⟩
  · exact hparam _ _ _ _ (noBreak_lit (forall_mem_of_all rfl)) part.name_noBreak c hc
  · exact hparam _ _ _ _ (noBreak_lit (forall_mem_of_all rfl))
      (part.filename_noBreak f (Option.mem_toList.mp hf)) c hc

theorem line_ok : ∀ line ∈ part.lines, NoBreak line ∧ line ≠ [] := by
  have hfurther : ∀ h : FurtherHeader, NoBreak h.line ∧ h.line ≠ [] := by
    intro h
    refine ⟨?_, by simp [FurtherHeader.line]⟩
    have hcolon : NoBreak [chr ':'] := noBreak_lit (s := ":") (forall_mem_of_all rfl)
    simpa [FurtherHeader.line] using h.name_noBreak.append (hcolon.append h.value_noBreak)
  intro line hline
  simp only [lines, List.mem_append, List.mem_cons, List.mem_map] at hline
  rcases hline with ⟨h, -, rfl⟩ | rfl | ⟨h, -, rfl⟩
  · exact hfurther h
  · exact ⟨noBreak_dispositionLine, by simp [dispositionLine]⟩
  · exact hfurther h

theorem ngxJsFormParsePartHeaders_lines (hlimits : WithinLimits part.lines) :
    ngxJsFormParsePartHeaders (headerBlock part.lines) = .ok part.disposition := by
  obtain ⟨hlen, hcount, -⟩ := hlimits
  have hcount' : part.before.length + (part.after.length + 1) ≤ maxPartHeaders := by
    simpa [lines] using hcount
  have hbefore : readLines (part.before.map FurtherHeader.line) 0 none = .ok none :=
    readLines_further (fun h hh => hlen h.line (by simp only [lines]; grind)) (by omega)
  have hline : partHeaderLine (dispositionLine part.name part.filename)
      (0 + (part.before.map FurtherHeader.line).length) none = .ok (some part.disposition) := by
    rw [List.length_map]
    exact partHeaderLine_disposition (hlen _ (by simp [lines])) (by omega)
  have hafter : readLines (part.after.map FurtherHeader.line)
      (0 + (part.before.map FurtherHeader.line).length + 1) (some part.disposition) =
        .ok (some part.disposition) := by
    rw [List.length_map]
    exact readLines_further (fun h hh => hlen h.line (by simp only [lines]; grind)) (by omega)
  rw [ngxJsFormParsePartHeaders, partHeaderLines_headerBlock line_ok, lines, readLines_append,
    hbefore]
  simp only [bind, Except.bind, readLines, hline, hafter]

end Part

theorem delimiterEnd_crlf (rest : Bytes) :
    delimiterEnd (lit "\r\n" ++ rest) = .ok (false, rest) := by
  have hnot : ¬ lit "--" <+: lit "\r\n" ++ rest := by
    rintro ⟨v, hv⟩
    have hne : chr '-' ≠ chr '\r' := by decide
    exact absurd (by simpa [lit] using congrArg List.head? hv) hne
  rw [delimiterEnd, if_neg hnot, if_pos (List.prefix_append _ _)]
  rfl

theorem delimiterEnd_dashes (rest : Bytes) :
    delimiterEnd (lit "--" ++ rest) = .ok (true, rest) := by
  rw [delimiterEnd, if_pos (List.prefix_append _ _)]
  rfl

section Reading

variable {boundary : Bytes} {maxKeys : ℕ}

theorem partEnd_content (hcr : NoBreak boundary) {content : Bytes}
    (hnot : ¬ boundary <:+: content) (rest : Bytes) :
    partEnd boundary (content ++ (lit "\r\n--" ++ boundary) ++ rest) = some (content, rest) := by
  have ha : chr '\r' ∉ lit "\n--" ++ boundary := by
    rw [List.mem_append]
    rintro (h | h)
    · exact absurd h (by decide)
    · exact hcr.cr_notMem h
  have hdel : ¬ chr '\r' :: (lit "\n--" ++ boundary) <:+: content := fun hin =>
    hnot (((List.suffix_append (lit "\r\n--") boundary).isInfix).trans hin)
  rw [partEnd_eq_find]
  exact Occurrence.dropInfix?_of_not_infix ha hdel

theorem multipartPart_text (hcr : NoBreak boundary) {part : Part}
    (hlimits : WithinLimits part.lines) (hnot : ¬ boundary <:+: part.content) (form : Form)
    {count : ℕ} (hcount : count + 1 ≤ maxKeys) {last : Bool} {p q : Bytes}
    (hp : delimiterEnd p = .ok (last, q)) :
    multipartPart boundary maxKeys (part.text ++ (lit "\r\n--" ++ boundary) ++ p) form count =
      .ok (⟨form.entries ++ [part.entry], form.hasFiles || part.filename.isSome⟩, count + 1,
        last, q) := by
  refine multipartPart_ok_iff.mpr ⟨headerBlock part.lines,
    part.content ++ (lit "\r\n--" ++ boundary) ++ p, part.disposition, part.content, p, ?_,
    hlimits.2.2, Part.ngxJsFormParsePartHeaders_lines hlimits, partEnd_content hcr hnot p, ?_, hp⟩
  · have hfind := find_headerBlock (by simp [Part.lines]) (Part.line_ok : ∀ line ∈ part.lines, _)
      (part.content ++ (lit "\r\n--" ++ boundary) ++ p)
    simpa only [Part.text, List.append_assoc] using hfind
  · rw [ngxJsFormAddEntry, if_neg (by omega)]
    rcases hfile : part.filename with _ | f
    · simp [markFiles, partEntry, Part.disposition, Part.entry, hfile]
    · simp [markFiles, partEntry, Part.disposition, Part.entry, hfile]

theorem multipartParts_text (hcr : NoBreak boundary) {part : Part} {parts : List Part}
    (hlimits : ∀ p ∈ part :: parts, WithinLimits p.lines)
    (hnot : ∀ p ∈ part :: parts, ¬ boundary <:+: p.content) {form : Form} {count : ℕ}
    (hcount : count + (parts.length + 1) ≤ maxKeys) (epilogue : Bytes) :
    multipartParts boundary maxKeys
        (part.text ++ (lit "\r\n--" ++ boundary) ++ (textAfter boundary parts ++ epilogue))
        form count =
      .ok (⟨form.entries ++ (part :: parts).map Part.entry,
        form.hasFiles || (part :: parts).any fun part => part.filename.isSome⟩, epilogue) := by
  induction parts generalizing part form count with
  | nil =>
    have hkeys : count + 1 ≤ maxKeys := by omega
    have hread := multipartPart_text hcr (hlimits part List.mem_cons_self)
      (hnot part List.mem_cons_self) form hkeys (delimiterEnd_dashes epilogue)
    rw [textAfter, multipartParts_step hread, if_pos rfl]
    simp
  | cons part' parts ih =>
    rw [List.length_cons] at hcount
    have hkeys : count + 1 ≤ maxKeys := by omega
    have hread := multipartPart_text hcr (hlimits part List.mem_cons_self)
      (hnot part List.mem_cons_self) form hkeys
      (delimiterEnd_crlf
        (part'.text ++ (lit "\r\n--" ++ boundary) ++ (textAfter boundary parts ++ epilogue)))
    have htext : textAfter boundary (part' :: parts) ++ epilogue =
        lit "\r\n" ++ (part'.text ++ (lit "\r\n--" ++ boundary) ++
          (textAfter boundary parts ++ epilogue)) := by
      simp [textAfter]
    rw [htext, multipartParts_step hread, if_neg (by simp)]
    rw [ih (fun p hp => hlimits p (List.mem_cons_of_mem _ hp))
      (fun p hp => hnot p (List.mem_cons_of_mem _ hp)) (by omega)]
    simp [Bool.or_assoc]

theorem multipartBody_text (hcr : NoBreak boundary) {parts : List Part}
    (hlimits : ∀ part ∈ parts, WithinLimits part.lines)
    (hnot : ∀ part ∈ parts, ¬ boundary <:+: part.content) (hcount : parts.length ≤ maxKeys)
    (epilogue : Bytes) :
    multipartBody (multipartText boundary parts ++ epilogue) boundary maxKeys =
      .ok (formOf parts, epilogue) := by
  have hfind : ngxJsFormFind (multipartText boundary parts ++ epilogue) (lit "--" ++ boundary) =
      some ([], textAfter boundary parts ++ epilogue) :=
    Occurrence.dropInfix?_iff.mpr ⟨by simp [multipartText], by simp⟩
  rw [multipartBody_eq hfind]
  rcases parts with _ | ⟨part, parts⟩
  · rw [textAfter, delimiterEnd_dashes]
    rfl
  have htext : textAfter boundary (part :: parts) ++ epilogue =
      lit "\r\n" ++ (part.text ++ (lit "\r\n--" ++ boundary) ++
        (textAfter boundary parts ++ epilogue)) := by
    simp [textAfter]
  rw [htext, delimiterEnd_crlf]
  simp only [bind, Except.bind, Bool.false_eq_true, if_false]
  rw [multipartParts_text hcr hlimits hnot (by simpa [Nat.add_comm] using hcount)]
  simp [formOf]

end Reading

/-! ### The round trip -/

theorem ValueText.mem_text {v : ValueText} {c : UInt8} (hc : c ∈ v.value) : c ∈ v.text := by
  rcases v with s | s
  · exact hc
  obtain ⟨d, hd, rfl⟩ := List.mem_map.mp hc
  have hpair : d.2 ∈ s.flatMap pairText := by
    refine List.mem_flatMap.mpr ⟨d, hd, ?_⟩
    rw [pairText]
    split_ifs <;> simp
  simp [ValueText.text, hpair]

theorem noBreak_boundary {contentType boundary : Bytes} (h : Declares contentType boundary) :
    NoBreak boundary := by
  obtain ⟨hbreak, t, rfl, hone⟩ := h
  intro c hc
  obtain ⟨q, hq, hval⟩ : ∃ q ∈ t.params.filter ParamText.IsBoundary, q.value.value = boundary :=
    List.mem_map.mp (by rw [← ContentTypeText.boundaries, hone]; exact List.mem_singleton_self _)
  refine hbreak c ?_
  have htext : c ∈ q.text := by
    simp [ParamText.text, ParamText.body, ValueText.mem_text (v := q.value) (c := c)
      (by rw [hval]; exact hc)]
  rw [ContentTypeText.text]
  exact List.mem_append_right _ (List.mem_flatMap.mpr ⟨q, (List.mem_filter.mp hq).1, htext⟩)

/-- A form whose headers stay within the limits is read as it was written, whatever follows the
last delimiter; and a body that is cut before the end of the last delimiter is refused. -/
theorem multipart_exact (parts : List Part) (maxKeys : ℕ) (hcount : parts.length ≤ maxKeys)
    (hlimits : ∀ part ∈ parts, WithinLimits part.lines) (boundary : Bytes)
    (hlen : 0 < boundary.length ∧ boundary.length ≤ maxBoundaryLen)
    (hnot : ∀ part ∈ parts, ¬ boundary <:+: part.content) (contentType : Bytes)
    (hdeclares : Declares contentType boundary) (form : Option Form) :
    (∀ epilogue, ngxJsParseForm contentType (multipartText boundary parts ++ epilogue) maxKeys
      form = (.ok (), some (formOf parts))) ∧
    ∀ body, body <+: multipartText boundary parts → body ≠ multipartText boundary parts →
      ∃ e, ngxJsParseForm contentType body maxKeys form = (.error e, form) := by
  have hcr := noBreak_boundary hdeclares
  have hbody : ∀ body, parsedForm contentType body maxKeys =
      (multipartBody body boundary maxKeys).map Prod.fst := by
    intro body
    rw [parsedForm, contentType_of_declares hlen hdeclares]
    rfl
  constructor
  · intro epilogue
    rw [ngxJsParseForm, hbody, multipartBody_text hcr hlimits hnot hcount]
    rfl
  intro body hpre hne
  obtain ⟨u, hu⟩ := hpre
  rcases hread : multipartBody body boundary maxKeys with e | ⟨f, rest⟩
  · refine ⟨e, ?_⟩
    rw [ngxJsParseForm, hbody, hread]
    rfl
  -- what was read is read again in the whole body, which the parser reads to its end
  have hwhole := multipartBody_append hread u
  rw [hu, ← List.append_nil (multipartText boundary parts),
    multipartBody_text hcr hlimits hnot hcount] at hwhole
  have hrest : rest ++ u = [] := ((Prod.mk.inj (Except.ok.inj hwhole)).2).symm
  obtain ⟨-, rfl⟩ := List.append_eq_nil_iff.mp hrest
  exact absurd (by simpa using hu) hne

/-- A value of `Content-Type` that declares a boundary of one letter. -/
theorem declares_letter : Declares (lit "multipart/form-data; boundary=X") (lit "X") :=
  ⟨noBreak_lit (forall_mem_of_all rfl), ⟨[], lit "multipart/form-data", [],
    [⟨lit " ", lit "boundary", [], [], .token (lit "X"), [],
      forall_mem_of_all (l := lit " ") rfl, allOws_nil, allOws_nil, allOws_nil,
      by decide, by decide, ⟨by decide, by decide, by decide⟩⟩],
    allOws_nil, allOws_nil, by decide⟩, by decide, by decide⟩

/-- A field whose content has hyphens behind a line break, and a file. -/
theorem multipart_exact_two : ∃ parts : List Part,
    formOf parts = ⟨[⟨lit "a\"b", lit "1\r\n--2", [], false⟩, ⟨lit "f", [], lit "x.txt", true⟩],
      true⟩ ∧
    (∀ epilogue, ngxJsParseForm (lit "multipart/form-data; boundary=X")
      (multipartText (lit "X") parts ++ epilogue) 2 none = (.ok (), some (formOf parts))) ∧
    ∀ body, body <+: multipartText (lit "X") parts → body ≠ multipartText (lit "X") parts →
      ∃ e, ngxJsParseForm (lit "multipart/form-data; boundary=X") body 2 none =
        (.error e, none) := by
  refine ⟨[⟨lit "a\"b", none, [], [], lit "1\r\n--2", noBreak_lit (forall_mem_of_all rfl), by simp⟩,
    ⟨lit "f", some (lit "x.txt"), [], [], lit "data", noBreak_lit (forall_mem_of_all rfl),
      fun f hf => Option.some.inj hf ▸ noBreak_lit (s := "x.txt") (forall_mem_of_all rfl)⟩], rfl,
    multipart_exact _ 2 (by decide) ?_ (lit "X") (by decide) ?_ _ declares_letter none⟩
  · intro part hpart
    simp only [List.mem_cons, List.not_mem_nil, or_false] at hpart
    rcases hpart with rfl | rfl
    · exact ⟨by decide, by decide, by decide⟩
    · exact ⟨by decide, by decide, by decide⟩
  · intro part hpart
    simp only [List.mem_cons, List.not_mem_nil, or_false] at hpart
    rcases hpart with rfl | rfl
    · decide
    · decide

theorem length_le_quote (s : Bytes) : s.length ≤ (ValueText.quote s).text.length := by
  have hpairs : ∀ s : Bytes, s.length ≤
      ((s.map fun c => (decide (c = chr '"') || decide (c = chr '\\'), c)).flatMap
        pairText).length := by
    intro s
    induction s with
    | nil => simp
    | cons c s ih =>
      have hc : 0 < (pairText (decide (c = chr '"') || decide (c = chr '\\'), c)).length := by
        rw [pairText]
        split_ifs <;> simp
      simp only [List.map_cons, List.flatMap_cons, List.length_append, List.length_cons]
      omega
  have hle := hpairs s
  simp only [ValueText.quote, ValueText.text, List.cons_append, List.length_cons,
    List.length_append]
  omega

theorem multipart_long_name {part : Part} (hname : maxPartHeaderLine < part.name.length)
    (hfurther : part.before = [] ∧ part.after = []) {boundary contentType : Bytes}
    (hlen : 0 < boundary.length ∧ boundary.length ≤ maxBoundaryLen)
    (hdeclares : Declares contentType boundary) (maxKeys : ℕ) (form : Option Form) :
    ∃ e, ngxJsParseForm contentType (multipartText boundary [part]) maxKeys form =
      (.error e, form) := by
  have hline : part.lines = [dispositionLine part.name part.filename] := by
    simp [Part.lines, hfurther]
  have hlong : (dispositionLine part.name part.filename).length > maxPartHeaderLine := by
    have hquote := length_le_quote part.name
    simp only [dispositionLine, dispositionValue, dispositionParams, List.flatMap_cons,
      ParamText.text, ParamText.body, quotedParam, List.length_append, List.length_cons]
    omega
  have hheader : ngxJsFormParsePartHeaders (headerBlock part.lines) =
      .error (.parseError "multipart header line is too long") := by
    rw [ngxJsFormParsePartHeaders, partHeaderLines_headerBlock Part.line_ok, hline, readLines,
      partHeaderLine, if_pos hlong]
    rfl
  have htext : multipartText boundary [part] = lit "--" ++ boundary ++ (lit "\r\n" ++
      (headerBlock part.lines ++ lit "\r\n\r\n" ++
        (part.content ++ (lit "\r\n--" ++ boundary ++ lit "--")))) := by
    simp [multipartText, textAfter, Part.text]
  have hfind : ngxJsFormFind (multipartText boundary [part]) (lit "--" ++ boundary) =
      some ([], lit "\r\n" ++ (headerBlock part.lines ++ lit "\r\n\r\n" ++
        (part.content ++ (lit "\r\n--" ++ boundary ++ lit "--")))) :=
    Occurrence.dropInfix?_iff.mpr ⟨by rw [htext]; simp, by simp⟩
  have hparsed : parsedForm contentType (multipartText boundary [part]) maxKeys =
      (multipartBody (multipartText boundary [part]) boundary maxKeys).map Prod.fst := by
    rw [parsedForm, contentType_of_declares hlen hdeclares]
    rfl
  rcases hread : multipartBody (multipartText boundary [part]) boundary maxKeys with e | f
  · refine ⟨e, ?_⟩
    rw [ngxJsParseForm, hparsed, hread]
    rfl
  -- the first round of the loop would have read the header
  rw [multipartBody_eq hfind, delimiterEnd_crlf] at hread
  simp only [bind, Except.bind, Bool.false_eq_true, if_false] at hread
  rw [multipartParts] at hread
  split at hread
  · simp at hread
  rename_i hpart
  obtain ⟨header, p₁, disposition, -, -, hfirst, -, hd, -⟩ := multipartPart_ok_iff.mp hpart
  have hblock := find_headerBlock (by simp [Part.lines]) (Part.line_ok : ∀ line ∈ part.lines, _)
    (part.content ++ (lit "\r\n--" ++ boundary ++ lit "--"))
  obtain ⟨rfl, -⟩ := Prod.mk.inj (Option.some.inj (hblock.symm.trans hfirst))
  rw [hheader] at hd
  simp at hd

/-- The limits of the parser bind the line with the names too: a long name is refused, although
the further headers stay within the limits. -/
theorem not_multipart_exact_name : ∃ (parts : List Part) (boundary contentType : Bytes),
    parts.length ≤ 1 ∧
    (∀ part ∈ parts, WithinLimits (part.before.map FurtherHeader.line) ∧
      WithinLimits (part.after.map FurtherHeader.line)) ∧
    (0 < boundary.length ∧ boundary.length ≤ maxBoundaryLen) ∧
    (∀ part ∈ parts, ¬ boundary <:+: part.text) ∧ Declares contentType boundary ∧
    ∃ e, ngxJsParseForm contentType (multipartText boundary parts) 1 none = (.error e, none) := by
  let part : Part := ⟨List.replicate 4097 (chr 'a'), none, [], [], [], by
    intro c hc
    obtain rfl := List.eq_of_mem_replicate hc
    decide, by simp⟩
  refine ⟨[part], lit "X", lit "multipart/form-data; boundary=X", by simp, ?_, by decide, ?_,
    declares_letter, multipart_long_name ?_ ⟨rfl, rfl⟩ (by decide) declares_letter 1 none⟩
  · intro p hp
    obtain rfl := List.mem_singleton.mp hp
    refine ⟨⟨by simp [part], by simp [part], ?_⟩, ⟨by simp [part], by simp [part], ?_⟩⟩ <;>
      simp [part, headerBlock]
  · intro p hp hin
    obtain rfl := List.mem_singleton.mp hp
    have hmem : chr 'X' ∈ part.text := hin.subset (by decide)
    have htext : ∀ q : Part, q.filename = none → q.before = [] → q.after = [] → q.content = [] →
        q.text = lit "Content-Disposition: form-data; name=" ++ (ValueText.quote q.name).text ++
          lit "\r\n\r\n" := by
      intro q hfile hbefore hafter hcontent
      simp [Part.text, Part.lines, hfile, hbefore, hafter, hcontent, headerBlock, dispositionLine,
        dispositionValue, dispositionParams, quotedParam, ParamText.text, ParamText.body, lit]
    rw [htext part rfl rfl rfl rfl, List.mem_append, List.mem_append] at hmem
    rcases hmem with (hmem | hmem) | hmem
    · exact absurd hmem (by decide)
    · rcases mem_quote hmem with hq | hq | hq
      · exact absurd hq (by decide)
      · exact absurd hq (by decide)
      · exact absurd (List.eq_of_mem_replicate hq) (by decide)
    · exact absurd hmem (by decide)
  · rw [List.length_replicate, maxPartHeaderLine]
    omega

end Njs.RequestForm
