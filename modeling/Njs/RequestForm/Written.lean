import Njs.RequestForm.Parser

/-!
# Headers as they are written

The values of `Content-Type` that declare a boundary, and the header of a part of a form, with what
the parser reads from them.
-/

namespace Njs.RequestForm

open Text
open Fetch (isOws sameName lower strncaseeq)

/-- A byte string without CR and LF. -/
def NoBreak (s : Bytes) : Prop := ∀ c ∈ s, c ≠ chr '\r' ∧ c ≠ chr '\n'

theorem NoBreak.append {s t : Bytes} (hs : NoBreak s) (ht : NoBreak t) : NoBreak (s ++ t) := by
  intro c hc
  rcases List.mem_append.mp hc with hc | hc
  · exact hs c hc
  · exact ht c hc

variable {s : Bytes}

theorem NoBreak.cr_notMem (hs : NoBreak s) : chr '\r' ∉ s := fun h => (hs _ h).1 rfl

/-! ### Content-Type -/

/-- The value of a header `Content-Type` of a form of several parts. -/
structure ContentTypeText where
  lead : Bytes
  mediaType : Bytes
  gap : Bytes
  params : List ParamText
  lead_ows : AllOws lead
  gap_ows : AllOws gap
  multipart : sameName mediaType (lit "multipart/form-data")

def ParamText.IsBoundary (q : ParamText) : Bool := sameName q.name (lit "boundary")

namespace ContentTypeText

/-- What is written. -/
def text (t : ContentTypeText) : Bytes :=
  t.lead ++ t.mediaType ++ t.gap ++ t.params.flatMap ParamText.text

def boundaries (t : ContentTypeText) : List Bytes :=
  (t.params.filter ParamText.IsBoundary).map fun q => q.value.value

end ContentTypeText

/-- A value of `Content-Type` declares one boundary. -/
def Declares (contentType boundary : Bytes) : Prop :=
  NoBreak contentType ∧ ∃ t : ContentTypeText, t.text = contentType ∧ t.boundaries = [boundary]

theorem mem_of_sameName {t : Bytes} (h : sameName s t = true) (ht : ∀ d ∈ t, lower d ≠ 0) :
    ∀ c ∈ s, ∃ d ∈ t, lower c = lower d := by
  simp only [sameName, Bool.and_eq_true, decide_eq_true_eq] at h
  obtain ⟨hlen, heq⟩ := h
  induction s generalizing t with
  | nil => simp
  | cons c s ih =>
    rcases t with _ | ⟨d, t⟩
    · simp at hlen
    simp only [strncaseeq, Bool.and_eq_true, decide_eq_true_eq, Bool.or_eq_true] at heq
    obtain ⟨hcd, hrest⟩ := heq
    have hrest : strncaseeq s t = true := by
      rcases hrest with hzero | hrest
      · exact absurd (hcd ▸ hzero) (ht d List.mem_cons_self)
      · exact hrest
    have htail := ih (fun e he => ht e (List.mem_cons_of_mem _ he)) (by simpa using hlen) hrest
    intro e he
    rcases List.mem_cons.mp he with rfl | he
    · exact ⟨d, List.mem_cons_self, hcd⟩
    · obtain ⟨f, hf, hef⟩ := htail e he
      exact ⟨f, List.mem_cons_of_mem _ hf, hef⟩

theorem mediaType_bytes (h : sameName s (lit "multipart/form-data") = true) :
    ∀ c ∈ s, c ≠ chr ';' ∧ isOws c = false := by
  intro c hc
  obtain ⟨d, hd, hcd⟩ := mem_of_sameName h (forall_mem_of_all rfl) c hc
  have hnot : ∀ e ∈ lit "multipart/form-data",
      lower e ≠ lower (chr ';') ∧ lower e ≠ lower (chr ' ') ∧ lower e ≠ lower (chr '\t') :=
    forall_mem_of_all rfl
  obtain ⟨hsemi, hsp, htab⟩ := hnot d hd
  refine ⟨fun hc => hsemi (by rw [← hcd, hc]), ?_⟩
  by_contra hows
  simp only [isOws, Bool.or_eq_true, decide_eq_true_eq, Bool.not_eq_false] at hows
  rcases hows with rfl | rfl
  · exact hsp hcd.symm
  · exact htab hcd.symm

theorem length_of_sameName {t : Bytes} (h : sameName s t = true) : s.length = t.length := by
  simp only [sameName, Bool.and_eq_true, decide_eq_true_eq] at h
  exact h.1

theorem formType_of_sameName (h : sameName s (lit "multipart/form-data") = true) :
    formType s = some .multipart := by
  have hnot : sameName s (lit "application/x-www-form-urlencoded") ≠ true := by
    intro h'
    have hlen := (length_of_sameName h).symm.trans (length_of_sameName h')
    exact absurd hlen (by decide)
  rw [formType, if_neg hnot, if_pos h]

theorem rdropWhile_ows {gap : Bytes} (hs : ∀ c ∈ s.getLast?, isOws c = false) (hgap : AllOws gap) :
    (s ++ gap).rdropWhile isOws = s := by
  induction gap using List.reverseRecOn with
  | nil =>
    rw [List.append_nil]
    rcases List.eq_nil_or_concat' s with rfl | ⟨s, c, rfl⟩
    · rfl
    · have hc : ¬ isOws c = true := by simp [hs c (by simp)]
      exact List.rdropWhile_concat_neg _ _ _ hc
  | append_singleton gap c ih =>
    have hc : isOws c = true := hgap c (by simp)
    rw [← List.append_assoc, List.rdropWhile_concat_pos _ _ _ hc]
    exact ih fun d hd => hgap d (by simp [hd])

theorem foldlM_boundaryParam {params : List ParamText} {s : Option Bytes}
    (h : params.filter ParamText.IsBoundary = []) :
    params.foldlM (fun s q => boundaryParam s q.name q.value.value) s = .ok s := by
  induction params with
  | nil => rfl
  | cons q params ih =>
    rw [List.filter_eq_nil_iff] at h
    have hq : ¬ sameName q.name (lit "boundary") = true := h q List.mem_cons_self
    rw [List.foldlM_cons, boundaryParam, if_neg hq]
    exact ih (List.filter_eq_nil_iff.mpr fun q' hq' => h q' (List.mem_cons_of_mem _ hq'))

theorem foldlM_boundaryParam_one {params : List ParamText} {boundary : Bytes}
    (hlen : 0 < boundary.length ∧ boundary.length ≤ maxBoundaryLen)
    (h : (params.filter ParamText.IsBoundary).map (fun q => q.value.value) = [boundary]) :
    params.foldlM (fun s q => boundaryParam s q.name q.value.value) none =
      .ok (some boundary) := by
  induction params with
  | nil => simp at h
  | cons q params ih =>
    rw [List.foldlM_cons, boundaryParam]
    by_cases hq : q.IsBoundary = true
    · rw [List.filter_cons_of_pos hq, List.map_cons, List.cons.injEq, List.map_eq_nil_iff] at h
      obtain ⟨rfl, hrest⟩ := h
      rw [if_pos (show sameName q.name (lit "boundary") = true from hq), if_neg (by simp),
        if_neg (by omega)]
      exact foldlM_boundaryParam hrest
    · rw [List.filter_cons_of_neg hq] at h
      rw [if_neg (show ¬ sameName q.name (lit "boundary") = true from hq)]
      exact ih h

theorem contentType_of_declares {contentType boundary : Bytes}
    (hlen : 0 < boundary.length ∧ boundary.length ≤ maxBoundaryLen)
    (h : Declares contentType boundary) :
    ngxJsFormParseContentType contentType = .ok (.multipart, some boundary) := by
  obtain ⟨-, t, rfl, hone⟩ := h
  have hbytes := mediaType_bytes t.multipart
  have hsemi : ∀ s, AllOws s → ∀ c ∈ s, c ≠ chr ';' := by
    intro s hs c hc heq
    have hows := hs c hc
    rw [heq] at hows
    exact absurd hows (by decide)
  obtain ⟨htake, hdrop⟩ := takeWhile_bytes (f := fun c => decide (c ≠ chr ';'))
    (s := t.lead ++ t.mediaType ++ t.gap)
    (by
      rw [List.all_eq_true]
      intro c hc
      simp only [List.mem_append] at hc
      rcases hc with (hc | hc) | hc
      · simpa using hsemi _ t.lead_ows c hc
      · simpa using (hbytes c hc).1
      · simpa using hsemi _ t.gap_ows c hc)
    (t.params.flatMap ParamText.text)
    (by
      intro c hc
      rcases hparams : t.params with _ | ⟨q, params⟩
      · simp [hparams] at hc
      · obtain rfl : chr ';' = c := by simpa [hparams, ParamText.text] using hc
        simp)
  have hne : t.mediaType ≠ [] := by
    intro hnil
    have hlen := length_of_sameName t.multipart
    rw [hnil] at hlen
    exact absurd hlen (by decide)
  have htrim : (skipOws (t.lead ++ t.mediaType ++ t.gap)).rdropWhile isOws = t.mediaType := by
    rw [List.append_assoc, skipOws_append t.lead_ows, rdropWhile_ows _ t.gap_ows]
    · intro c hc
      exact (hbytes c (List.mem_of_getLast? hc)).2
    · intro c hc
      obtain ⟨d, s, hs⟩ := List.exists_cons_of_ne_nil hne
      obtain rfl : d = c := by simpa [hs] using hc
      exact (hbytes d (by simp [hs])).2
  have hpos : t.text.length ≠ 0 := by
    have hpos := List.length_pos_iff.mpr hne
    simp only [ContentTypeText.text, List.length_append]
    omega
  rw [ngxJsFormParseContentType, if_neg hpos]
  simp only [ContentTypeText.text, htake, hdrop, htrim, formType_of_sameName t.multipart]
  rw [forParams_texts, foldlM_boundaryParam_one hlen hone]
  rfl

/-! ### The header of a part -/

/-- A header of a part other than the disposition. -/
structure FurtherHeader where
  name : Bytes
  value : Bytes
  name_bytes : ∀ c ∈ name, c ≠ chr ':'
  name_noBreak : NoBreak name
  value_noBreak : NoBreak value
  further : sameName name (lit "Content-Disposition") = false

/-- What is written. -/
def FurtherHeader.line (h : FurtherHeader) : Bytes := h.name ++ chr ':' :: h.value

/-- `; name="value"`. -/
def quotedParam (name value : Bytes) (hne : name ≠ [])
    (hbytes : name.all (isParamByte [chr '=', chr ';'])) : ParamText where
  lead := lit " "
  name := name
  gap := []
  gap' := []
  value := .quote value
  trail := []
  lead_ows := forall_mem_of_all (l := lit " ") rfl
  gap_ows := allOws_nil
  gap'_ows := allOws_nil
  trail_ows := allOws_nil
  name_ne := hne
  name_bytes := hbytes
  wellFormed := ValueText.wellFormed_quote value

def dispositionParams (name : Bytes) (filename : Option Bytes) : List ParamText :=
  quotedParam (lit "name") name (by decide) (by decide) ::
    filename.toList.map fun f => quotedParam (lit "filename") f (by decide) (by decide)

def dispositionValue (name : Bytes) (filename : Option Bytes) : Bytes :=
  lit "form-data" ++ (dispositionParams name filename).flatMap ParamText.text

/-- The header `Content-Disposition`. -/
def dispositionLine (name : Bytes) (filename : Option Bytes) : Bytes :=
  lit "Content-Disposition" ++ chr ':' :: chr ' ' :: dispositionValue name filename

/-- The lines of a header, with line breaks between them. -/
def headerBlock : List Bytes → Bytes
  | [] => []
  | [line] => line
  | line :: lines => line ++ lit "\r\n" ++ headerBlock lines

def WithinLimits (lines : List Bytes) : Prop :=
  (∀ line ∈ lines, line.length ≤ maxPartHeaderLine) ∧ lines.length ≤ maxPartHeaders ∧
    (headerBlock lines).length ≤ maxPartHeaderSize

theorem ngxJsFormParseDisposition_value (name : Bytes) (filename : Option Bytes) :
    ngxJsFormParseDisposition (dispositionValue name filename) =
      .ok ⟨name, filename.isSome, filename.getD []⟩ := by
  obtain ⟨htake, hdrop⟩ := takeWhile_bytes (f := fun c => decide (c ≠ chr ';'))
    (s := lit "form-data") (by decide) ((dispositionParams name filename).flatMap ParamText.text)
    (by
      intro c hc
      obtain rfl : chr ';' = c := by simpa [dispositionParams, ParamText.text] using hc
      simp)
  have hname : sameName (lit "name") (lit "name") = true := by decide
  have hfile : sameName (lit "filename") (lit "filename") = true := by decide
  have hother : sameName (lit "filename") (lit "name") = false := by decide
  rw [ngxJsFormParseDisposition, dispositionValue, htake, hdrop, if_pos (by decide),
    forParams_texts]
  rcases filename with _ | f
  · simp [dispositionParams, quotedParam, dispositionParam, hname, bind, Except.bind, pure,
      Except.pure]
  · simp [dispositionParams, quotedParam, dispositionParam, hname, hfile, hother, bind,
      Except.bind, pure, Except.pure]

theorem trim_dispositionValue (name : Bytes) (filename : Option Bytes) :
    (skipOws (chr ' ' :: dispositionValue name filename)).rdropWhile isOws =
      dispositionValue name filename := by
  have hskip : skipOws (chr ' ' :: dispositionValue name filename) =
      dispositionValue name filename :=
    skipOws_append (s := [chr ' ']) (by simp [AllOws, isOws]) fun c hc => by
      obtain rfl : chr 'f' = c := by simpa [dispositionValue, lit] using hc
      decide
  -- the last byte is the closing quote of the last parameter
  have hlast : ∀ (q : ParamText) (v : Bytes), q.value = .quote v → q.trail = [] →
      q.text.getLast? = some (chr '"') := by
    intro q v hv ht
    have htext : q.text = chr ';' :: (q.lead ++ (q.name ++ q.gap ++ [chr '='] ++ q.gap' ++
        chr '"' :: (v.map fun c => (c = chr '"' || c = chr '\\', c)).flatMap pairText)) ++
          [chr '"'] := by
      simp [ParamText.text, ParamText.body, hv, ht, ValueText.quote, ValueText.text]
    rw [htext, List.getLast?_concat]
  have hend : ∀ c ∈ (dispositionValue name filename).getLast?, isOws c = false := by
    intro c hc
    have hquote : (dispositionValue name filename).getLast? = some (chr '"') := by
      rcases filename with _ | f
      · simp [dispositionValue, dispositionParams, List.getLast?_append,
          hlast (quotedParam (lit "name") name _ _) name rfl rfl]
      · simp [dispositionValue, dispositionParams, List.getLast?_append,
          hlast (quotedParam (lit "filename") f _ _) f rfl rfl]
    obtain rfl : chr '"' = c := by simpa [hquote] using hc
    decide
  rw [hskip]
  simpa using rdropWhile_ows hend allOws_nil

theorem partHeaderLine_disposition {name : Bytes} {filename : Option Bytes} {headers : ℕ}
    (hlen : (dispositionLine name filename).length ≤ maxPartHeaderLine)
    (hcount : headers + 1 ≤ maxPartHeaders) :
    partHeaderLine (dispositionLine name filename) headers none =
      .ok (some ⟨name, filename.isSome, filename.getD []⟩) := by
  obtain ⟨htake, hdrop⟩ := takeWhile_bytes (f := fun c => decide (c ≠ chr ':'))
    (s := lit "Content-Disposition") (by decide)
    (chr ':' :: chr ' ' :: dispositionValue name filename) (by simp)
  have hname : sameName (lit "Content-Disposition") (lit "Content-Disposition") = true := by
    decide
  rw [partHeaderLine, if_neg (by omega), if_neg (by omega)]
  simp only [dispositionLine, htake, hdrop, hname, if_true, Option.isSome_none,
    Bool.false_eq_true, if_false, trim_dispositionValue, ngxJsFormParseDisposition_value]
  rfl

theorem partHeaderLine_further {h : FurtherHeader} {headers : ℕ} {seen : Option Disposition}
    (hlen : h.line.length ≤ maxPartHeaderLine) (hcount : headers + 1 ≤ maxPartHeaders) :
    partHeaderLine h.line headers seen = .ok seen := by
  obtain ⟨htake, hdrop⟩ := takeWhile_bytes (f := fun c => decide (c ≠ chr ':')) (s := h.name)
    (by
      rw [List.all_eq_true]
      intro c hc
      simpa using h.name_bytes c hc)
    (chr ':' :: h.value) (by simp)
  rw [partHeaderLine, if_neg (by omega), if_neg (by omega)]
  simp only [FurtherHeader.line, htake, hdrop, h.further, Bool.false_eq_true, if_false]

/-- The lines of a header, one after the other. -/
def readLines : List Bytes → ℕ → Option Disposition → Except Error (Option Disposition)
  | [], _, seen => .ok seen
  | line :: lines, headers, seen => do
    let seen ← partHeaderLine line headers seen
    readLines lines (headers + 1) seen

theorem readLines_append (lines lines' : List Bytes) (headers : ℕ) (seen : Option Disposition) :
    readLines (lines ++ lines') headers seen =
      readLines lines headers seen >>= readLines lines' (headers + lines.length) := by
  induction lines generalizing headers seen with
  | nil => rfl
  | cons line lines ih =>
    rw [List.cons_append, readLines, readLines, bind_assoc]
    congr 1
    funext seen
    rw [ih, List.length_cons, show headers + (lines.length + 1) = headers + 1 + lines.length by
      omega]

theorem readLines_further {hs : List FurtherHeader} {headers : ℕ} {seen : Option Disposition}
    (hlen : ∀ h ∈ hs, h.line.length ≤ maxPartHeaderLine)
    (hcount : headers + hs.length ≤ maxPartHeaders) :
    readLines (hs.map FurtherHeader.line) headers seen = .ok seen := by
  induction hs generalizing headers with
  | nil => rfl
  | cons h hs ih =>
    rw [List.length_cons] at hcount
    rw [List.map_cons, readLines, partHeaderLine_further (hlen h List.mem_cons_self) (by omega)]
    exact ih (fun h' hh' => hlen h' (List.mem_cons_of_mem _ hh')) (by omega)

theorem find_crlf {line : Bytes} (h : NoBreak line) (rest : Bytes) :
    ngxJsFormFind (line ++ lit "\r\n" ++ rest) (lit "\r\n") = some (line, rest) := by
  have hnot : ¬ lit "\r\n" <:+: line := fun hin => h.cr_notMem (hin.subset (by decide))
  exact Occurrence.dropInfix?_of_not_infix (a := chr '\r') (t := [chr '\n']) (by decide) hnot

theorem find_crlf_none {line : Bytes} (h : NoBreak line) :
    ngxJsFormFind line (lit "\r\n") = none := by
  refine Occurrence.dropInfix?_eq_none_iff.mpr fun l r hlr => h.cr_notMem ?_
  rw [hlr]
  simp [lit]

theorem partHeaderLines_headerBlock {lines : List Bytes}
    (hlines : ∀ line ∈ lines, NoBreak line ∧ line ≠ []) (headers : ℕ)
    (seen : Option Disposition) :
    partHeaderLines (headerBlock lines) headers seen = readLines lines headers seen := by
  induction lines generalizing headers seen with
  | nil =>
    rw [headerBlock, partHeaderLines]
    rfl
  | cons line lines ih =>
    obtain ⟨hbreak, hne⟩ := hlines line List.mem_cons_self
    rcases lines with _ | ⟨line', lines⟩
    · rw [headerBlock, partHeaderLines, if_neg hne]
      split
      · rw [readLines]
        rcases partHeaderLine line headers seen with e | seen' <;> rfl
      · rename_i found hfound
        rw [find_crlf_none hbreak] at hfound
        simp at hfound
    have hfind := find_crlf hbreak (headerBlock (line' :: lines))
    have hne' : line ++ lit "\r\n" ++ headerBlock (line' :: lines) ≠ [] := by simp [hne]
    rw [headerBlock, partHeaderLines, if_neg hne']
    · split
      · rename_i hnone
        rw [hfind] at hnone
        simp at hnone
      rename_i l r hfound
      obtain ⟨rfl, rfl⟩ := Prod.mk.inj (Option.some.inj (hfind.symm.trans hfound))
      rw [readLines]
      congr 1
      funext seen'
      exact ih (fun l hl => hlines l (List.mem_cons_of_mem _ hl)) _ _
    · simp

theorem find_headerBlock {lines : List Bytes} (hne : lines ≠ [])
    (hlines : ∀ line ∈ lines, NoBreak line ∧ line ≠ []) (rest : Bytes) :
    ngxJsFormFind (headerBlock lines ++ lit "\r\n\r\n" ++ rest) (lit "\r\n\r\n") =
      some (headerBlock lines, rest) := by
  have hcut : lit "\r\n\r\n" = lit "\r\n" ++ lit "\r\n" := by decide
  induction lines with
  | nil => exact absurd rfl hne
  | cons line lines ih =>
    obtain ⟨hbreak, hline⟩ := hlines line List.mem_cons_self
    rcases lines with _ | ⟨line', lines⟩
    · have htext : headerBlock [line] ++ lit "\r\n\r\n" ++ rest =
          line ++ lit "\r\n" ++ (lit "\r\n" ++ rest) := by
        rw [hcut]
        simp [headerBlock]
      have hhere := Occurrence.dropInfix?_here (find_crlf hbreak (lit "\r\n" ++ rest))
      rw [← hcut] at hhere
      rw [htext]
      exact hhere
    -- the next line is not empty, so the first line break is not the end
    have hfind := find_crlf hbreak (headerBlock (line' :: lines) ++ lit "\r\n\r\n" ++ rest)
    have ih := ih (by simp) fun l hl => hlines l (List.mem_cons_of_mem _ hl)
    have hnot : ¬ lit "\r\n" <+: headerBlock (line' :: lines) ++ lit "\r\n\r\n" ++ rest := by
      obtain ⟨hbreak', hne'⟩ := hlines line' (by simp)
      obtain ⟨c, s, rfl⟩ := List.exists_cons_of_ne_nil hne'
      intro hpre
      obtain ⟨u, hu⟩ := hpre
      have hc : chr '\r' = c := by
        rcases lines with _ | ⟨line'', lines⟩
        · simpa [lit, headerBlock] using congrArg List.head? hu
        · simpa [lit, headerBlock] using congrArg List.head? hu
      exact (hbreak' c List.mem_cons_self).1 hc.symm
    have hnext := Occurrence.dropInfix?_next (a := chr '\r') (t := [chr '\n']) (by decide)
      hfind hnot
    rw [show chr '\r' :: [chr '\n'] ++ lit "\r\n" = lit "\r\n\r\n" by decide] at hnext
    have htext : headerBlock (line :: line' :: lines) ++ lit "\r\n\r\n" ++ rest =
        line ++ lit "\r\n" ++ (headerBlock (line' :: lines) ++ lit "\r\n\r\n" ++ rest) := by
      simp [headerBlock]
    rw [htext]
    refine hnext.trans ?_
    rw [ngxJsFormFind] at ih
    rw [ih]
    rfl

end Njs.RequestForm
