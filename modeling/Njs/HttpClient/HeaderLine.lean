import Njs.HttpClient.StatusLine

/-!
# The parser of header lines

`ngx_js_http_parse_header_line` (`nginx/ngx_js_http.c`) is called once for every line of the header,
and once more for the empty line that ends it. Like the parser of the status line it may be called
again in the middle of a line.
-/

namespace Njs.HttpClient

open Resumable (Verdict feed drive Accepts accepts_append accepts_done accepts_last accepts_more
  accepts_replicate exists_replicate_append not_accepts_fail)
open Text (chr)
open Decimal (isDigitChar)
open Http (isLineChar Eol IsLine isAlnum isNameChar HeaderName HeaderLine StatusLine trimRight)

/-! ### The parser -/

/-- The states of `ngx_js_http_parse_header_line`. -/
inductive HeaderState
  | start
  | name
  | spaceBeforeValue
  | value
  | spaceAfterValue
  | almostDone
  | headerAlmostDone
  deriving DecidableEq

/-- The state of the parser and the position in the buffer. -/
abbrev HeaderPos : Type := HttpParse HeaderState × ℕ

/-- `NGX_OK` after a line, and `NGX_DONE` after the empty line. -/
inductive HeaderRc
  | ok
  | done
  deriving DecidableEq

/-- The labels `done` and `header_done`. -/
def headerDone (hp : HttpParse HeaderState) : HttpParse HeaderState := { hp with state := .start }

def isLetter (ch : UInt8) : Bool :=
  let c := ch ||| 0x20
  chr 'a' ≤ c && c ≤ chr 'z'

/-- The body of the loop of `ngx_js_http_parse_header_line`. -/
def headerByte (s : HeaderPos) (ch : UInt8) : Verdict HeaderPos (HeaderRc × HeaderPos) :=
  let (hp, p) := s
  let next (hp : HttpParse HeaderState) : Verdict HeaderPos (HeaderRc × HeaderPos) :=
    .more (hp, p + 1)
  let ok (hp : HttpParse HeaderState) : Verdict HeaderPos (HeaderRc × HeaderPos) :=
    .done (.ok, headerDone hp, p + 1)
  match hp.state with
  | .start =>
    if ch = chr '\r' then next { hp with headerEnd := some p, state := .headerAlmostDone }
    else if ch = chr '\n' then .done (.done, headerDone { hp with headerEnd := some p }, p + 1)
    else
      let hp := { hp with state := .name, headerNameStart := some p }
      if isLetter ch then next hp else if isDigitChar ch then next hp else .fail
  | .name =>
    if isLetter ch then next hp
    else if ch = chr ':' then next { hp with headerNameEnd := some p, state := .spaceBeforeValue }
    else if ch = chr '-' ∨ ch = chr '_' then next hp
    else if isDigitChar ch then next hp
    else if ch = chr '\r' then
      next { hp with
        headerNameEnd := some p
        headerStart := some p
        headerEnd := some p
        state := .almostDone }
    else if ch = chr '\n' then
      ok { hp with headerNameEnd := some p, headerStart := some p, headerEnd := some p }
    else .fail
  | .spaceBeforeValue =>
    if ch = chr ' ' then next hp
    else if ch = chr '\r' then
      next { hp with headerStart := some p, headerEnd := some p, state := .almostDone }
    else if ch = chr '\n' then ok { hp with headerStart := some p, headerEnd := some p }
    else next { hp with headerStart := some p, state := .value }
  | .value =>
    if ch = chr ' ' then next { hp with headerEnd := some p, state := .spaceAfterValue }
    else if ch = chr '\r' then next { hp with headerEnd := some p, state := .almostDone }
    else if ch = chr '\n' then ok { hp with headerEnd := some p }
    else next hp
  | .spaceAfterValue =>
    if ch = chr ' ' then next hp
    else if ch = chr '\r' then next { hp with state := .almostDone }
    else if ch = chr '\n' then ok hp
    else next { hp with state := .value }
  | .almostDone => if ch = chr '\n' then ok hp else .fail
  | .headerAlmostDone =>
    if ch = chr '\n' then .done (.done, headerDone hp, p + 1) else .fail

/-- `ngx_js_http_parse_header_line`, with the bytes from `b->pos` on. -/
def ngxJsHttpParseHeaderLine (s : HeaderPos) (b : Bytes) :
    Verdict HeaderPos (HeaderRc × HeaderPos) :=
  (feed headerByte s b).1

/-! ### The value -/

variable {hp : HttpParse HeaderState} {p : ℕ} {v : Bytes} {a : HeaderRc × HeaderPos}

theorem accepts_lineAlmostDone (hstate : hp.state = .almostDone) :
    Accepts headerByte (hp, p) v a ↔ v = [0x0a] ∧ (.ok, headerDone hp, p + 1) = a :=
  accepts_last fun b => by
    simp only [headerByte, hstate]
    rfl

theorem accepts_emptyLine (hstate : hp.state = .headerAlmostDone) :
    Accepts headerByte (hp, p) v a ↔ v = [0x0a] ∧ (.done, headerDone hp, p + 1) = a :=
  accepts_last fun b => by
    simp only [headerByte, hstate]
    rfl

theorem headerByte_value (hstate : hp.state = .value) (b : UInt8) : headerByte (hp, p) b =
      if b = 0x20 then .more ({ hp with headerEnd := some p, state := .spaceAfterValue }, p + 1)
      else if b = 0x0d then .more ({ hp with headerEnd := some p, state := .almostDone }, p + 1)
      else if b = 0x0a then .done (.ok, headerDone { hp with headerEnd := some p }, p + 1)
      else .more (hp, p + 1) := by
  simp only [headerByte, hstate]
  rfl

theorem headerByte_spaceAfterValue (hstate : hp.state = .spaceAfterValue) (b : UInt8) :
    headerByte (hp, p) b =
      if b = 0x20 then .more (hp, p + 1)
      else if b = 0x0d then .more ({ hp with state := .almostDone }, p + 1)
      else if b = 0x0a then .done (.ok, headerDone hp, p + 1)
      else .more ({ hp with state := .value }, p + 1) := by
  simp only [headerByte, hstate]
  rfl

theorem accepts_value_or_space : (hp.state = .value →
      (Accepts headerByte (hp, p) v a ↔ ∃ text eol, IsLine v text eol ∧
        (.ok, headerDone { hp with headerEnd := some (p + (trimRight text).length) },
          p + v.length) = a)) ∧
    (hp.state = .spaceAfterValue → (Accepts headerByte (hp, p) v a ↔ ∃ text eol, IsLine v text eol ∧
        (.ok, headerDone { hp with
          headerEnd :=
            if trimRight text = [] then hp.headerEnd else some (p + (trimRight text).length) },
          p + v.length) = a)) := by
  induction v generalizing hp p with
  | nil => simp [Accepts, Http.not_isLine_nil]
  | cons b v ih =>
    have hlen : p + 1 + v.length = p + (b :: v).length := by
      rw [List.length_cons]
      omega
    have hend : ∀ t : Bytes, p + 1 + (trimRight t).length = p + ((trimRight t).length + 1) :=
      fun t => by omega
    constructor
    · intro hstate
      have hstep := headerByte_value (p := p) hstate b
      rcases Http.isLineChar_cases b with rfl | rfl | hb
      · rw [if_neg (by decide), if_neg (by decide), if_pos rfl] at hstep
        rw [accepts_done hstep, Http.exists_isLine_lf]
        exact and_congr_right fun hv => by rw [hv]; rfl
      · rw [if_neg (by decide), if_pos rfl] at hstep
        rw [accepts_more hstep, accepts_lineAlmostDone rfl, Http.exists_isLine_cr]
        exact and_congr_right fun hv => by rw [hv]; rfl
      obtain ⟨hcr, hlf⟩ := Http.ne_of_isLineChar hb
      rw [Http.exists_isLine_cons hb]
      by_cases hspace : b = 0x20
      · rw [if_pos hspace] at hstep
        rw [accepts_more hstep, (@ih _ (p + 1)).2 rfl, ← hlen]
        refine exists₂_congr fun t eol => and_congr_right fun _ => ?_
        rw [trimRight]
        by_cases ht : trimRight t = []
        · simp only [if_pos ht, if_pos (And.intro hspace ht)]
          rfl
        · simp only [if_neg ht, if_neg (fun h : b = 0x20 ∧ _ => ht h.2), hend, List.length_cons]
          rfl
      · rw [if_neg hspace, if_neg hcr, if_neg hlf] at hstep
        rw [accepts_more hstep, (@ih hp (p + 1)).1 hstate, ← hlen]
        refine exists₂_congr fun t eol => and_congr_right fun _ => ?_
        rw [trimRight]
        simp only [if_neg (fun h : b = 0x20 ∧ _ => hspace h.1), hend, List.length_cons]
    · intro hstate
      have hstep := headerByte_spaceAfterValue (p := p) hstate b
      rcases Http.isLineChar_cases b with rfl | rfl | hb
      · rw [if_neg (by decide), if_neg (by decide), if_pos rfl] at hstep
        rw [accepts_done hstep, Http.exists_isLine_lf]
        exact and_congr_right fun hv => by rw [hv]; rfl
      · rw [if_neg (by decide), if_pos rfl] at hstep
        rw [accepts_more hstep, accepts_lineAlmostDone rfl, Http.exists_isLine_cr]
        exact and_congr_right fun hv => by rw [hv]; rfl
      obtain ⟨hcr, hlf⟩ := Http.ne_of_isLineChar hb
      rw [Http.exists_isLine_cons hb]
      by_cases hspace : b = 0x20
      · rw [if_pos hspace] at hstep
        rw [accepts_more hstep, (@ih hp (p + 1)).2 hstate, ← hlen]
        refine exists₂_congr fun t eol => and_congr_right fun _ => ?_
        rw [trimRight]
        by_cases ht : trimRight t = []
        · simp only [if_pos ht, if_pos (And.intro hspace ht), if_true]
        · simp only [if_neg ht, if_neg (fun h : b = 0x20 ∧ _ => ht h.2), hend, List.length_cons,
            List.cons_ne_nil, if_false]
      rw [if_neg hspace, if_neg hcr, if_neg hlf] at hstep
      rw [accepts_more hstep, (@ih _ (p + 1)).1 rfl, ← hlen]
      refine exists₂_congr fun t eol => and_congr_right fun _ => ?_
      rw [trimRight]
      simp only [if_neg (fun h : b = 0x20 ∧ _ => hspace h.1), hend, List.length_cons,
        List.cons_ne_nil, if_false]
      rfl

theorem accepts_value (hstate : hp.state = .value) :
    Accepts headerByte (hp, p) v a ↔ ∃ text eol, IsLine v text eol ∧
      (.ok, headerDone { hp with headerEnd := some (p + (trimRight text).length) },
        p + v.length) = a :=
  accepts_value_or_space.1 hstate

theorem headerByte_spaceBeforeValue (hstate : hp.state = .spaceBeforeValue) (b : UInt8) :
    headerByte (hp, p) b =
      if b = 0x20 then .more (hp, p + 1)
      else if b = 0x0d then
        .more ({ hp with headerStart := some p, headerEnd := some p, state := .almostDone }, p + 1)
      else if b = 0x0a then
        .done (.ok, headerDone { hp with headerStart := some p, headerEnd := some p }, p + 1)
      else .more ({ hp with headerStart := some p, state := .value }, p + 1) := by
  simp only [headerByte, hstate]
  rfl

theorem accepts_spaceBeforeValue (hstate : hp.state = .spaceBeforeValue) :
    Accepts headerByte (hp, p) v a ↔
      ∃ (l : ℕ) (value : Bytes) (r : ℕ) (eol : Bytes), value.all isLineChar = true ∧
        value.head? ≠ some 0x20 ∧ value.getLast? ≠ some 0x20 ∧ (value = [] → r = 0) ∧ Eol eol ∧
        v = List.replicate l 0x20 ++ (value ++ List.replicate r 0x20 ++ eol) ∧
        (.ok, headerDone { hp with
          headerStart := some (p + l)
          headerEnd := some (p + l + value.length) }, p + v.length) = a := by
  have hskip : ∀ q, headerByte (hp, q) 0x20 = .more (hp, q + 1) := fun q => by
    rw [headerByte_spaceBeforeValue hstate, if_pos rfl]
  constructor
  · intro h
    obtain ⟨l, u, rfl, hu⟩ := exists_replicate_append 0x20 v
    rw [accepts_replicate (s := fun q => (hp, q)) hskip] at h
    cases u with
    | nil => exact h.elim
    | cons b u =>
      have hspace : b ≠ 0x20 := by simpa using hu
      have hstep := headerByte_spaceBeforeValue (p := p + l) hstate b
      rw [if_neg hspace] at hstep
      rcases Http.isLineChar_cases b with rfl | rfl | hb
      · rw [if_neg (by decide), if_pos rfl] at hstep
        obtain ⟨rfl, rfl⟩ := (accepts_done hstep).mp h
        exact ⟨l, [], 0, _, rfl, by simp, by simp, fun _ => rfl, .lf, rfl, by
          simp [Nat.add_assoc]⟩
      · rw [if_pos rfl] at hstep
        rw [accepts_more hstep, accepts_lineAlmostDone rfl] at h
        obtain ⟨rfl, rfl⟩ := h
        exact ⟨l, [], 0, _, rfl, by simp, by simp, fun _ => rfl, .crlf, rfl, by
          simp [Nat.add_assoc, headerDone]⟩
      obtain ⟨hcr, hlf⟩ := Http.ne_of_isLineChar hb
      rw [if_neg hcr, if_neg hlf] at hstep
      rw [accepts_more hstep, accepts_value rfl] at h
      obtain ⟨t, eol, hline, rfl⟩ := h
      obtain rfl := hline.eq
      obtain ⟨r, ht, hlast⟩ := Http.exists_eq_trimRight (b :: t)
      have htrim : trimRight (b :: t) = b :: trimRight t := by
        rw [trimRight, if_neg fun h => hspace h.1]
      rw [htrim] at ht hlast
      have hall : (b :: t).all isLineChar = true := by rw [List.all_cons, hb, hline.all]; rfl
      rw [ht, List.all_append, Bool.and_eq_true] at hall
      refine ⟨l, b :: trimRight t, r, eol, hall.1, by simpa using hspace, hlast, by simp,
        hline.ends, by rw [← ht]; rfl, ?_⟩
      have hend : p + l + (b :: trimRight t).length = p + l + 1 + (trimRight t).length := by
        rw [List.length_cons]
        omega
      rw [hend]
      refine congrArg (Prod.mk _) (Prod.ext rfl ?_)
      simp only [List.length_append, List.length_replicate, List.length_cons]
      omega
  · rintro ⟨l, value, r, eol, hall, hhead, hlast, hr, heol, rfl, rfl⟩
    rw [accepts_replicate (s := fun q => (hp, q)) hskip]
    cases value with
    | nil =>
      obtain rfl := hr rfl
      cases heol with
      | lf =>
        have hstep := headerByte_spaceBeforeValue (p := p + l) hstate 0x0a
        rw [if_neg (by decide), if_neg (by decide), if_pos rfl] at hstep
        exact (accepts_done hstep).mpr ⟨rfl, by simp [Nat.add_assoc]⟩
      | crlf =>
        have hstep := headerByte_spaceBeforeValue (p := p + l) hstate 0x0d
        rw [if_neg (by decide), if_pos rfl] at hstep
        refine (accepts_more hstep).mpr ((accepts_lineAlmostDone rfl).mpr ⟨rfl, ?_⟩)
        simp [Nat.add_assoc, headerDone]
    | cons b value =>
      have hspace : b ≠ 0x20 := by simpa using hhead
      rw [List.all_cons, Bool.and_eq_true] at hall
      obtain ⟨hcr, hlf⟩ := Http.ne_of_isLineChar hall.1
      have hstep := headerByte_spaceBeforeValue (p := p + l) hstate b
      rw [if_neg hspace, if_neg hcr, if_neg hlf] at hstep
      have htrim : trimRight (value ++ List.replicate r 0x20) = value := by
        have h := Http.trimRight_append hlast r
        rw [List.cons_append, trimRight, if_neg fun h => hspace h.1] at h
        exact (List.cons.inj h).2
      have hspaces : (value ++ List.replicate r 0x20).all isLineChar = true := by
        simp [hall.2, isLineChar]
      refine (accepts_more hstep).mpr ((accepts_value rfl).mpr
        ⟨value ++ List.replicate r 0x20, eol, ⟨hspaces, heol, rfl⟩, ?_⟩)
      have hend : p + l + (b :: value).length = p + l + 1 + value.length := by
        rw [List.length_cons]
        omega
      rw [htrim, hend]
      refine congrArg (Prod.mk _) (Prod.ext rfl ?_)
      change p + l + 1 + (value ++ List.replicate r 0x20 ++ eol).length =
        p + (List.replicate l 0x20 ++ (b :: value ++ List.replicate r 0x20 ++ eol)).length
      simp only [List.length_append, List.length_replicate, List.length_cons]
      omega

/-! ### The name -/

theorem isAlnum_eq (ch : UInt8) : isAlnum ch = (isLetter ch || isDigitChar ch) := by
  revert ch
  exact Text.forall_byte (by decide)

theorem isNameChar_eq (ch : UInt8) :
    isNameChar ch = (isLetter ch || (ch = 0x2d || ch = 0x5f) || isDigitChar ch) := by
  revert ch
  exact Text.forall_byte (by decide)

theorem isNameChar_ends :
    isNameChar 0x3a = false ∧ isNameChar 0x0d = false ∧ isNameChar 0x0a = false := by
  decide

theorem headerByte_name (hstate : hp.state = .name) (b : UInt8) : headerByte (hp, p) b =
      if isNameChar b then .more (hp, p + 1)
      else if b = 0x3a then
        .more ({ hp with headerNameEnd := some p, state := .spaceBeforeValue }, p + 1)
      else if b = 0x0d then
        .more ({ hp with
          headerNameEnd := some p
          headerStart := some p
          headerEnd := some p
          state := .almostDone }, p + 1)
      else if b = 0x0a then
        .done (.ok, headerDone { hp with
          headerNameEnd := some p
          headerStart := some p
          headerEnd := some p }, p + 1)
      else .fail := by
  simp only [headerByte, hstate]
  rw [isNameChar_eq]
  change (if isLetter b = true then _ else if b = 0x3a then _ else if b = 0x2d ∨ b = 0x5f then _
    else if isDigitChar b = true then _ else if b = 0x0d then _ else if b = 0x0a then _ else _) = _
  by_cases hletter : isLetter b = true
  · simp [hletter]
  by_cases hcolon : b = 0x3a
  · subst hcolon
    rfl
  · by_cases hdash : b = 0x2d ∨ b = 0x5f
    · simp [hletter, hcolon, hdash]
    · by_cases hdigit : isDigitChar b = true
      · simp [hletter, hcolon, hdash, hdigit]
      · simp [hletter, hcolon, hdash, hdigit]

theorem accepts_name (hstate : hp.state = .name) : Accepts headerByte (hp, p) v a ↔
      ∃ cs u, cs.all isNameChar = true ∧ v = cs ++ u ∧ ((∃ w, u = 0x3a :: w ∧ Accepts headerByte
          ({ hp with headerNameEnd := some (p + cs.length), state := .spaceBeforeValue },
            p + cs.length + 1) w a) ∨
        Eol u ∧ (.ok, headerDone { hp with
          headerNameEnd := some (p + cs.length)
          headerStart := some (p + cs.length)
          headerEnd := some (p + cs.length) }, p + v.length) = a) := by
  have hskip : ∀ q b, isNameChar b = true → headerByte (hp, q) b = .more (hp, q + 1) :=
    fun q b hb => by rw [headerByte_name hstate, if_pos hb]
  obtain ⟨hcolon, hcr, hlf⟩ := isNameChar_ends
  constructor
  · intro h
    have hall : (v.takeWhile isNameChar).all isNameChar = true := List.all_takeWhile
    have hhead := Http.head?_dropWhile (p := isNameChar) v
    have hsplit := (List.takeWhile_append_dropWhile (p := isNameChar) (l := v)).symm
    generalize v.takeWhile isNameChar = cs at hall hsplit
    generalize v.dropWhile isNameChar = u at hhead hsplit
    subst hsplit
    rw [accepts_append (s := fun q => (hp, q)) hskip p hall] at h
    refine ⟨cs, u, hall, rfl, ?_⟩
    cases u with
    | nil => exact h.elim
    | cons b u =>
      have hb : ¬ isNameChar b = true := by simpa using hhead b rfl
      have hstep := headerByte_name (p := p + cs.length) hstate b
      rw [if_neg hb] at hstep
      by_cases h₁ : b = 0x3a
      · rw [if_pos h₁] at hstep
        exact .inl ⟨u, by rw [h₁], (accepts_more hstep).mp h⟩
      rw [if_neg h₁] at hstep
      by_cases h₂ : b = 0x0d
      · rw [if_pos h₂] at hstep
        rw [accepts_more hstep, accepts_lineAlmostDone rfl] at h
        obtain ⟨rfl, rfl⟩ := h
        exact .inr ⟨h₂ ▸ .crlf, by simp [Nat.add_assoc, headerDone]⟩
      rw [if_neg h₂] at hstep
      by_cases h₃ : b = 0x0a
      · rw [if_pos h₃] at hstep
        obtain ⟨rfl, rfl⟩ := (accepts_done hstep).mp h
        exact .inr ⟨h₃ ▸ .lf, by simp [Nat.add_assoc]⟩
      · rw [if_neg h₃] at hstep
        exact absurd h (not_accepts_fail hstep)
  · rintro ⟨cs, u, hall, rfl, h⟩
    rw [accepts_append (s := fun q => (hp, q)) hskip p hall]
    rcases h with ⟨w, rfl, h⟩ | ⟨heol, rfl⟩
    · have hstep := headerByte_name (p := p + cs.length) hstate 0x3a
      rw [if_neg (by simp [hcolon]), if_pos rfl] at hstep
      exact (accepts_more hstep).mpr h
    cases heol with
    | lf =>
      have hstep := headerByte_name (p := p + cs.length) hstate 0x0a
      rw [if_neg (by simp [hlf]), if_neg (by decide), if_neg (by decide), if_pos rfl] at hstep
      exact (accepts_done hstep).mpr ⟨rfl, by simp [Nat.add_assoc]⟩
    | crlf =>
      have hstep := headerByte_name (p := p + cs.length) hstate 0x0d
      rw [if_neg (by simp [hcr]), if_neg (by decide), if_pos rfl] at hstep
      refine (accepts_more hstep).mpr ((accepts_lineAlmostDone rfl).mpr ⟨rfl, ?_⟩)
      simp [Nat.add_assoc, headerDone]

/-! ### The line -/

theorem headerByte_start (hstate : hp.state = .start) (b : UInt8) : headerByte (hp, p) b =
      if isAlnum b then .more ({ hp with state := .name, headerNameStart := some p }, p + 1)
      else if b = 0x0d then
        .more ({ hp with headerEnd := some p, state := .headerAlmostDone }, p + 1)
      else if b = 0x0a then .done (.done, headerDone { hp with headerEnd := some p }, p + 1)
      else .fail := by
  simp only [headerByte, hstate]
  rw [isAlnum_eq]
  change (if b = 0x0d then _ else if b = 0x0a then _ else
    if isLetter b = true then _ else if isDigitChar b = true then _ else _) = _
  by_cases hcr : b = 0x0d
  · subst hcr
    rfl
  by_cases hlf : b = 0x0a
  · subst hlf
    rfl
  · by_cases hletter : isLetter b = true
    · simp [hcr, hlf, hletter]
    · by_cases hdigit : isDigitChar b = true
      · simp [hcr, hlf, hletter, hdigit]
      · simp [hcr, hlf, hletter, hdigit]

/-- What is recorded of a header line that begins at the position `p`. -/
def headerRecord (hp : HttpParse HeaderState) (p : ℕ) (name : Bytes) (gap : ℕ) (value : Bytes) :
    HttpParse HeaderState :=
  { hp with
    state := .start
    headerNameStart := some p
    headerNameEnd := some (p + name.length)
    headerStart := some (p + name.length + gap)
    headerEnd := some (p + name.length + gap + value.length) }

theorem accepts_header_iff (hstate : hp.state = .start) : Accepts headerByte (hp, p) v a ↔
      (Eol v ∧ (.done, headerDone { hp with headerEnd := some p }, p + v.length) = a) ∨
      ∃ name gap value, HeaderLine v name gap value ∧
        (.ok, headerRecord hp p name gap value, p + v.length) = a := by
  have hends : isAlnum 0x0d = false ∧ isAlnum 0x0a = false := by decide
  -- The first byte of a name.
  have hname : ∀ {b : UInt8} {u : Bytes} {a' : HeaderRc × HeaderPos}, isAlnum b = true →
      (Accepts headerByte (hp, p) (b :: u) a' ↔ Accepts headerByte
        ({ hp with state := .name, headerNameStart := some p }, p + 1) u a') :=
    fun {b u a'} hb => accepts_more (by rw [headerByte_start hstate, if_pos hb])
  constructor
  · intro h
    cases v with
    | nil => exact h.elim
    | cons b v =>
      by_cases hb : isAlnum b = true
      · rw [hname hb, accepts_name rfl] at h
        obtain ⟨cs, u, hall, rfl, h⟩ := h
        have hheader : HeaderName (b :: cs) := ⟨b, cs, rfl, hb, hall⟩
        have hpos : p + 1 + cs.length = p + (b :: cs).length := by
          rw [List.length_cons]
          omega
        rw [hpos] at h
        rcases h with ⟨w, rfl, h⟩ | ⟨heol, rfl⟩
        · obtain ⟨l, value, r, eol, hvalue, hhead, hlast, hr, heol, rfl, rfl⟩ :=
            (accepts_spaceBeforeValue rfl).mp h
          refine .inr ⟨b :: cs, 1 + l, value, ?_, congrArg (Prod.mk _) (Prod.ext ?_ ?_)⟩
          · have hline := HeaderLine.field hheader hvalue hhead hlast hr heol (l := l)
            simpa only [List.append_assoc, List.cons_append, List.nil_append] using hline
          · have hstart : p + (b :: cs).length + 1 + l = p + (b :: cs).length + (1 + l) := by omega
            rw [hstart]
            rfl
          · simp only [List.length_append, List.length_cons]
            omega
        · refine .inr ⟨b :: cs, 0, [], .bare hheader heol, congrArg (Prod.mk _) (Prod.ext rfl ?_)⟩
          simp only [List.length_append, List.length_cons]
          omega
      · have hstep := headerByte_start (p := p) hstate b
        rw [if_neg hb] at hstep
        by_cases hcr : b = 0x0d
        · rw [if_pos hcr] at hstep
          rw [accepts_more hstep, accepts_emptyLine rfl] at h
          obtain ⟨rfl, rfl⟩ := h
          exact .inl ⟨hcr ▸ .crlf, rfl⟩
        rw [if_neg hcr] at hstep
        by_cases hlf : b = 0x0a
        · rw [if_pos hlf] at hstep
          obtain ⟨rfl, rfl⟩ := (accepts_done hstep).mp h
          exact .inl ⟨hlf ▸ .lf, rfl⟩
        · rw [if_neg hlf] at hstep
          exact absurd h (not_accepts_fail hstep)
  · rintro (⟨heol, rfl⟩ | ⟨name, gap, value, hline, rfl⟩)
    · cases heol with
      | lf =>
        have hstep := headerByte_start (p := p) hstate 0x0a
        rw [if_neg (by simp [hends.2]), if_neg (by decide), if_pos rfl] at hstep
        exact (accepts_done hstep).mpr ⟨rfl, rfl⟩
      | crlf =>
        have hstep := headerByte_start (p := p) hstate 0x0d
        rw [if_neg (by simp [hends.1]), if_pos rfl] at hstep
        exact (accepts_more hstep).mpr ((accepts_emptyLine rfl).mpr ⟨rfl, rfl⟩)
    have hpos : ∀ (c : UInt8) (cs : Bytes), p + 1 + cs.length = p + (c :: cs).length :=
      fun c cs => by
        rw [List.length_cons]
        omega
    cases hline with
    | bare hheader heol =>
      obtain ⟨c, cs, rfl, hc, hall⟩ := hheader
      rw [List.cons_append, hname hc, accepts_name rfl]
      refine ⟨cs, _, hall, rfl, .inr ⟨heol, ?_⟩⟩
      rw [hpos c]
      refine congrArg (Prod.mk _) (Prod.ext rfl ?_)
      simp only [List.length_append, List.length_cons]
      omega
    | @field _ _ eol l r hheader hvalue hhead hlast hr heol =>
      obtain ⟨c, cs, rfl, hc, hall⟩ := hheader
      simp only [List.append_assoc, List.cons_append, List.nil_append]
      rw [hname hc, accepts_name rfl]
      refine ⟨cs, _, hall, rfl, .inl ⟨_, rfl, ?_⟩⟩
      rw [hpos c, accepts_spaceBeforeValue rfl]
      refine ⟨l, value, r, eol, hvalue, hhead, hlast, hr, heol, by simp only [List.append_assoc],
        congrArg (Prod.mk _) (Prod.ext ?_ ?_)⟩
      · have hstart : p + (c :: cs).length + 1 + l = p + (c :: cs).length + (1 + l) := by omega
        rw [hstart]
        rfl
      · simp only [List.length_append, List.length_cons]
        omega

/-! ### Both parsers -/

/-- The bytes between two pointers, when both are set, in order, and inside the buffer. -/
def slice (buf : Bytes) : Option ℕ → Option ℕ → Option Bytes
  | some i, some j => if i ≤ j ∧ j ≤ buf.length then some ((buf.drop i).take (j - i)) else none
  | _, _ => none

theorem slice_append (x y z : Bytes) :
    slice (x ++ (y ++ z)) (some x.length) (some (x.length + y.length)) = some y := by
  rw [slice, if_pos ⟨by omega, by simp⟩, List.drop_left, Nat.add_sub_cancel_left, List.take_left]

theorem slice_statusText {minor code : ℕ} {line pre rest : Bytes} {t : Http.StatusText}
    (h : StatusLine minor code line (some t)) (hne : t.text ++ t.eol ≠ [0x0a]) :
    slice (pre ++ (line ++ rest)) (statusRecord pre.length minor code (some t)).statusText
      (statusRecord pre.length minor code (some t)).statusTextEnd = some t.text := by
  have hline : line = t.before ++ t.text ++ t.eol := by
    cases h
    rfl
  have hstart : (statusRecord pre.length minor code (some t)).statusText =
      some (pre.length + t.before.length) := by
    simp [statusRecord, statusDone, withText, statusHead, HttpParse.init, hne]
  have hend : (statusRecord pre.length minor code (some t)).statusTextEnd =
      some (pre.length + t.before.length + t.text.length) := rfl
  have := slice_append (pre ++ t.before) t.text (t.eol ++ rest)
  rw [hstart, hend, hline]
  simpa only [List.length_append, List.append_assoc] using this

theorem slice_headerLine {hp : HttpParse HeaderState} {line pre rest name value : Bytes} {gap : ℕ}
    (h : HeaderLine line name gap value) :
    slice (pre ++ (line ++ rest)) (headerRecord hp pre.length name gap value).headerNameStart
        (headerRecord hp pre.length name gap value).headerNameEnd = some name ∧
      slice (pre ++ (line ++ rest)) (headerRecord hp pre.length name gap value).headerStart
        (headerRecord hp pre.length name gap value).headerEnd = some value := by
  obtain ⟨mid, tail, hmid, hline⟩ : ∃ mid tail : Bytes, mid.length = gap ∧
      line = name ++ mid ++ value ++ tail := by
    cases h with
    | @bare _ eol => exact ⟨[], eol, rfl, by simp⟩
    | @field _ _ eol l r =>
      exact ⟨[0x3a] ++ List.replicate l 0x20, List.replicate r 0x20 ++ eol, by simp [Nat.add_comm],
        by simp only [List.append_assoc]⟩
  subst hline hmid
  constructor
  · have := slice_append pre name (mid ++ value ++ tail ++ rest)
    simpa only [headerRecord, List.append_assoc] using this
  · have := slice_append (pre ++ name ++ mid) value (tail ++ rest)
    simpa only [headerRecord, List.length_append, List.append_assoc, ← Nat.add_assoc] using this

/-- On buffers that are cut anywhere, the first parser accepts the status lines, and the pointers
that it records delimit the text, or are not set when there is none; the text that is empty before a
bare line feed is left out. The second one accepts the empty line, and the header lines, whose name
and value its pointers delimit. -/
theorem lines_exact (pre : Bytes) (bufs : List Bytes) :
    (((∃ a, drive ngxJsHttpParseStatusLine (HttpParse.init, pre.length) bufs = .done a) ↔
        ∃ minor code line rest text, bufs.flatten = line ++ rest ∧
          StatusLine minor code line text) ∧
      ∀ hp p, drive ngxJsHttpParseStatusLine (HttpParse.init, pre.length) bufs = .done (hp, p) →
        ∃ minor line rest text, bufs.flatten = line ++ rest ∧
          StatusLine minor hp.code line text ∧ p = pre.length + line.length ∧
          hp.httpVersion = ngxJsHttpVersion 1 minor ∧
          (text = none → hp.statusText = none ∧ hp.statusTextEnd = none) ∧
          ∀ t, text = some t → t.text ++ t.eol ≠ [0x0a] →
            slice (pre ++ bufs.flatten) hp.statusText hp.statusTextEnd = some t.text) ∧
    ∀ hp₀ : HttpParse HeaderState,
      ((∃ a, drive ngxJsHttpParseHeaderLine (headerDone hp₀, pre.length) bufs = .done (.done, a)) ↔
        ∃ line rest, bufs.flatten = line ++ rest ∧ Eol line) ∧
      ((∃ a, drive ngxJsHttpParseHeaderLine (headerDone hp₀, pre.length) bufs = .done (.ok, a)) ↔
        ∃ line rest name gap value, bufs.flatten = line ++ rest ∧ HeaderLine line name gap value) ∧
      ∀ hp p, drive ngxJsHttpParseHeaderLine (headerDone hp₀, pre.length) bufs =
          .done (.ok, hp, p) →
        ∃ line rest name gap value, bufs.flatten = line ++ rest ∧
          HeaderLine line name gap value ∧ p = pre.length + line.length ∧
          slice (pre ++ bufs.flatten) hp.headerNameStart hp.headerNameEnd = some name ∧
          slice (pre ++ bufs.flatten) hp.headerStart hp.headerEnd = some value := by
  have hstatus : ∀ a, drive ngxJsHttpParseStatusLine (HttpParse.init, pre.length) bufs = .done a ↔
      ∃ line rest, bufs.flatten = line ++ rest ∧ ∃ minor code text,
        StatusLine minor code line text ∧
          (statusRecord pre.length minor code text, pre.length + line.length) = a := by
    intro a
    rw [show drive ngxJsHttpParseStatusLine (HttpParse.init, pre.length) bufs =
      (feed statusByte (HttpParse.init, pre.length) bufs.flatten).1 from Resumable.drive_feed _ _,
      Resumable.feed_done_iff]
    simp only [accepts_status_iff]
  have hheader : ∀ hp₀ a,
      drive ngxJsHttpParseHeaderLine (headerDone hp₀, pre.length) bufs = .done a ↔
      ∃ line rest, bufs.flatten = line ++ rest ∧
        ((Eol line ∧ (.done, headerDone { headerDone hp₀ with headerEnd := some pre.length },
          pre.length + line.length) = a) ∨
        ∃ name gap value, HeaderLine line name gap value ∧
          (.ok, headerRecord (headerDone hp₀) pre.length name gap value,
            pre.length + line.length) = a) := by
    intro hp₀ a
    rw [show drive ngxJsHttpParseHeaderLine (headerDone hp₀, pre.length) bufs =
      (feed headerByte (headerDone hp₀, pre.length) bufs.flatten).1 from
        Resumable.drive_feed _ _, Resumable.feed_done_iff]
    have haccepts := fun v => @accepts_header_iff (headerDone hp₀) pre.length v a rfl
    simp only [haccepts]
  refine ⟨⟨⟨?_, ?_⟩, ?_⟩, fun hp₀ => ⟨⟨?_, ?_⟩, ⟨?_, ?_⟩, ?_⟩⟩
  · rintro ⟨a, ha⟩
    obtain ⟨line, rest, hsplit, minor, code, text, hline, -⟩ := (hstatus a).mp ha
    exact ⟨minor, code, line, rest, text, hsplit, hline⟩
  · rintro ⟨minor, code, line, rest, text, hsplit, hline⟩
    exact ⟨_, (hstatus _).mpr ⟨line, rest, hsplit, minor, code, text, hline, rfl⟩⟩
  · intro hp p hdone
    obtain ⟨line, rest, hsplit, minor, code, text, hline, heq⟩ := (hstatus _).mp hdone
    obtain ⟨rfl, rfl⟩ := Prod.mk.inj heq
    refine ⟨minor, line, rest, text, hsplit, ?_, rfl, ?_, ?_, ?_⟩
    · cases text <;> exact hline
    · cases text <;> rfl
    · rintro rfl
      exact ⟨rfl, rfl⟩
    · rintro t rfl hne
      rw [hsplit]
      exact slice_statusText hline hne
  · rintro ⟨a, ha⟩
    obtain ⟨line, rest, hsplit, ⟨heol, -⟩ | ⟨name, gap, value, -, heq⟩⟩ := (hheader hp₀ _).mp ha
    · exact ⟨line, rest, hsplit, heol⟩
    · cases heq
  · rintro ⟨line, rest, hsplit, heol⟩
    exact ⟨_, (hheader hp₀ _).mpr ⟨line, rest, hsplit, .inl ⟨heol, rfl⟩⟩⟩
  · rintro ⟨a, ha⟩
    obtain ⟨line, rest, hsplit, ⟨-, heq⟩ | ⟨name, gap, value, hline, -⟩⟩ := (hheader hp₀ _).mp ha
    · cases heq
    · exact ⟨line, rest, name, gap, value, hsplit, hline⟩
  · rintro ⟨line, rest, name, gap, value, hsplit, hline⟩
    exact ⟨_, (hheader hp₀ _).mpr ⟨line, rest, hsplit, .inr ⟨name, gap, value, hline, rfl⟩⟩⟩
  · intro hp p hdone
    obtain ⟨line, rest, hsplit, ⟨-, heq⟩ | ⟨name, gap, value, hline, heq⟩⟩ :=
      (hheader hp₀ _).mp hdone
    · cases heq
    · obtain ⟨rfl, rfl⟩ := Prod.mk.inj (Prod.mk.inj heq).2
      rw [hsplit]
      exact ⟨line, rest, name, gap, value, rfl, hline, rfl, slice_headerLine hline⟩

/-- The parser takes a version with two minor digits. -/
theorem not_lines_exact_version :
    ¬ ∀ (pre : Bytes) (bufs : List Bytes),
      (∃ a, drive ngxJsHttpParseStatusLine (HttpParse.init, pre.length) bufs = .done a) ↔
        ∃ line rest, bufs.flatten = line ++ rest ∧ Http.StrictStatusLine line := by
  intro h
  obtain ⟨line, rest, hsplit, d, a, b, c, text, eol, -, -, -, -, -, -, hline⟩ :=
    (h [] [Text.lit "HTTP/1.10 200\n"]).mp ⟨_, rfl⟩
  have hspace : (line)[8]? = some 0x20 := by
    rcases hline with rfl | rfl <;> rfl
  have hzero : (Text.lit "HTTP/1.10 200\n")[8]? = some 0x30 := rfl
  rw [List.flatten_singleton] at hsplit
  rw [hsplit, List.getElem?_append_left, hspace] at hzero
  · exact absurd hzero (by decide)
  · rcases hline with rfl | rfl <;> simp [Text.lit]

end Njs.HttpClient
