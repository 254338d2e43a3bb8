import Njs.Lib.Resumable
import Njs.Lib.ResponseLines

/-!
# The parser of the status line

`ngx_js_http_parse_status_line` (`nginx/ngx_js_http.c`) reads the buffer of a response byte by byte
and is called again when the buffer holds more. It records pointers into the buffer, which are
offsets here; a pointer that is not set is NULL.
-/

namespace Njs.HttpClient

open Resumable (Verdict feed Accepts accepts_done accepts_last accepts_literal accepts_more
  accepts_replicate exists_replicate_append not_accepts_fail)
open Text (chr lit)
open Decimal (isDigitChar)
open Http (IsLine digitValue decimalFrom SpacedDigits StatusHead StatusLine)

/-! ### The parser -/

/-- `ngx_js_http_parse_t`. The two versions have 16 bits and stay below 1000; the status has three
digits. -/
structure HttpParse (σ : Type) where
  state : σ
  httpMajor : ℕ
  httpMinor : ℕ
  httpVersion : ℕ
  code : ℕ
  statusText : Option ℕ
  statusTextEnd : Option ℕ
  count : ℕ
  headerNameStart : Option ℕ
  headerNameEnd : Option ℕ
  headerStart : Option ℕ
  headerEnd : Option ℕ

/-- The states of `ngx_js_http_parse_status_line`. -/
inductive StatusState
  | start
  | h
  | ht
  | htt
  | http
  | firstMajorDigit
  | majorDigit
  | firstMinorDigit
  | minorDigit
  | status
  | spaceAfterStatus
  | statusText
  | almostDone
  deriving DecidableEq

def HttpParse.init : HttpParse StatusState where
  state := .start
  httpMajor := 0
  httpMinor := 0
  httpVersion := 0
  code := 0
  statusText := none
  statusTextEnd := none
  count := 0
  headerNameStart := none
  headerNameEnd := none
  headerStart := none
  headerEnd := none

def ngxJsHttpVersion (major minor : ℕ) : ℕ := major * 1000 + minor

/-- The state of the parser and the position in the buffer. -/
abbrev StatusPos : Type := HttpParse StatusState × ℕ

/-- The state after the label `done`. -/
def statusDone (hp : HttpParse StatusState) : HttpParse StatusState :=
  { hp with state := .start, httpVersion := ngxJsHttpVersion hp.httpMajor hp.httpMinor }

/-- The body of the loop of `ngx_js_http_parse_status_line`. -/
def statusByte (s : StatusPos) (ch : UInt8) : Verdict StatusPos StatusPos :=
  let (hp, p) := s
  let next (hp : HttpParse StatusState) : Verdict StatusPos StatusPos := .more (hp, p + 1)
  let literal (c : Char) (state : StatusState) : Verdict StatusPos StatusPos :=
    if ch = chr c then next { hp with state } else .fail
  match hp.state with
  | .start => literal 'H' .h
  | .h => literal 'T' .ht
  | .ht => literal 'T' .htt
  | .htt => literal 'P' .http
  | .http => literal '/' .firstMajorDigit
  | .firstMajorDigit =>
    if ch < chr '1' ∨ ch > chr '9' then .fail
    else
      let httpMajor := digitValue ch
      if httpMajor > 1 then .fail else next { hp with httpMajor, state := .majorDigit }
  | .majorDigit =>
    if ch = chr '.' then next { hp with state := .firstMinorDigit }
    else if ¬ isDigitChar ch then .fail
    else
      let httpMajor := hp.httpMajor * 10 + digitValue ch
      if httpMajor > 1 then .fail else next { hp with httpMajor }
  | .firstMinorDigit =>
    if ¬ isDigitChar ch then .fail
    else next { hp with httpMinor := digitValue ch, state := .minorDigit }
  | .minorDigit =>
    if ch = chr ' ' then next { hp with state := .status }
    else if ¬ isDigitChar ch then .fail
    else if hp.httpMinor > 99 then .fail
    else next { hp with httpMinor := hp.httpMinor * 10 + digitValue ch }
  | .status =>
    if ch = chr ' ' then next hp
    else if ¬ isDigitChar ch then .fail
    else
      let hp := { hp with code := hp.code * 10 + digitValue ch, count := hp.count + 1 }
      if hp.count = 3 then next { hp with state := .spaceAfterStatus } else next hp
  | .spaceAfterStatus =>
    if ch = chr ' ' then next { hp with state := .statusText }
    else if ch = chr '.' then next { hp with state := .statusText }
    else if ch = chr '\r' then next hp
    else if ch = chr '\n' then .done (statusDone hp, p + 1)
    else .fail
  | .statusText =>
    if ch = chr '\n' then .done (statusDone { hp with statusTextEnd := some p }, p + 1)
    else
      let hp :=
        if ch = chr '\r' then { hp with statusTextEnd := some p, state := .almostDone } else hp
      next (if hp.statusText = none then { hp with statusText := some p } else hp)
  | .almostDone => if ch = chr '\n' then .done (statusDone hp, p + 1) else .fail

/-- `ngx_js_http_parse_status_line`, with the bytes from `b->pos` on. -/
def ngxJsHttpParseStatusLine (s : StatusPos) (b : Bytes) : Verdict StatusPos StatusPos :=
  (feed statusByte s b).1

/-! ### The end of the line -/

variable {hp : HttpParse StatusState} {p : ℕ} {v : Bytes} {a : StatusPos}

theorem accepts_almostDone (hstate : hp.state = .almostDone) :
    Accepts statusByte (hp, p) v a ↔ v = [0x0a] ∧ (statusDone hp, p + 1) = a :=
  accepts_last fun b => by
    simp only [statusByte, hstate]
    rfl

theorem statusByte_statusText (hstate : hp.state = .statusText) (b : UInt8) : statusByte (hp, p) b =
      if b = 0x0a then .done (statusDone { hp with statusTextEnd := some p }, p + 1)
      else if b = 0x0d then
        .more ({ hp with
          statusText := hp.statusText.or (some p)
          statusTextEnd := some p
          state := .almostDone }, p + 1)
      else .more ({ hp with statusText := hp.statusText.or (some p) }, p + 1) := by
  obtain ⟨state, major, minor, version, code, start, stop, count, n, n', h, h'⟩ := hp
  obtain rfl : state = .statusText := hstate
  change (if b = 0x0a then _ else _) = _
  by_cases hlf : b = 0x0a
  · rw [if_pos hlf, if_pos hlf]
  rw [if_neg hlf, if_neg hlf]
  by_cases hcr : b = 0x0d
  · subst hcr
    cases start <;> rfl
  · have hcr' : ¬ b = chr '\r' := hcr
    simp only [if_neg hcr, if_neg hcr']
    cases start <;> rfl

/-- What is recorded of a text at the position `p`. Its start is missing when there is no byte
between it and a line feed. -/
def withText (hp : HttpParse StatusState) (p : ℕ) (text eol : Bytes) : HttpParse StatusState :=
  { hp with
    statusText := hp.statusText.or (if text ++ eol = [0x0a] then none else some p)
    statusTextEnd := some (p + text.length) }

theorem accepts_statusText (hstate : hp.state = .statusText) : Accepts statusByte (hp, p) v a ↔
      ∃ text eol, IsLine v text eol ∧ (statusDone (withText hp p text eol), p + v.length) = a := by
  induction v generalizing hp p with
  | nil => simp [Accepts, Http.not_isLine_nil]
  | cons b v ih =>
    have hstep := statusByte_statusText (p := p) hstate b
    rcases Http.isLineChar_cases b with rfl | rfl | hb
    · rw [if_pos rfl] at hstep
      rw [accepts_done hstep, Http.exists_isLine_lf]
      refine and_congr_right fun hv => ?_
      subst hv
      simp [withText]
    · rw [if_neg (by decide), if_pos rfl] at hstep
      rw [accepts_more hstep, accepts_almostDone rfl, Http.exists_isLine_cr]
      refine and_congr_right fun hv => ?_
      subst hv
      rfl
    obtain ⟨hcr, hlf⟩ := Http.ne_of_isLineChar hb
    rw [if_neg hlf, if_neg hcr] at hstep
    have htext : ∀ t eol,
        withText { hp with statusText := hp.statusText.or (some p) } (p + 1) t eol =
          withText hp p (b :: t) eol := by
      intro t eol
      have hne : ¬ b :: t ++ eol = [0x0a] := fun h => hlf (List.cons.inj h).1
      simp only [withText, if_neg hne, Option.or_assoc, Option.some_or, List.length_cons,
        Nat.add_assoc, Nat.add_comm 1]
    have hrest := @ih { hp with statusText := hp.statusText.or (some p) } (p + 1) hstate
    rw [accepts_more hstep, hrest, Http.exists_isLine_cons hb]
    simp only [htext, List.length_cons, Nat.add_assoc, Nat.add_comm 1]

/-! ### The status -/

theorem statusByte_spaceAfterStatus (hstate : hp.state = .spaceAfterStatus) (b : UInt8) :
    statusByte (hp, p) b =
      if b = 0x20 ∨ b = 0x2e then .more ({ hp with state := .statusText }, p + 1)
      else if b = 0x0d then .more (hp, p + 1)
      else if b = 0x0a then .done (statusDone hp, p + 1)
      else .fail := by
  obtain ⟨state, major, minor, version, code, start, stop, count, n, n', h, h'⟩ := hp
  obtain rfl : state = .spaceAfterStatus := hstate
  change (if b = 0x20 then _ else if b = 0x2e then _ else _) = _
  by_cases hspace : b = 0x20
  · rw [if_pos hspace, if_pos (Or.inl hspace)]
  · by_cases hdot : b = 0x2e
    · rw [if_neg hspace, if_pos hdot, if_pos (Or.inr hdot)]
    · rw [if_neg hspace, if_neg hdot, if_neg (not_or.mpr ⟨hspace, hdot⟩)]
      rfl

theorem accepts_spaceAfterStatus (hstate : hp.state = .spaceAfterStatus) :
    Accepts statusByte (hp, p) v a ↔
      ∃ k, v = List.replicate k 0x0d ++ [0x0a] ∧ (statusDone hp, p + v.length) = a ∨
        ∃ sep u, (sep = 0x20 ∨ sep = 0x2e) ∧ v = List.replicate k 0x0d ++ sep :: u ∧
          Accepts statusByte ({ hp with state := .statusText }, p + k + 1) u a := by
  have hskip : ∀ q, statusByte (hp, q) 0x0d = .more (hp, q + 1) := fun q => by
    rw [statusByte_spaceAfterStatus hstate, if_neg (by decide), if_pos rfl]
  constructor
  · intro h
    obtain ⟨k, u, rfl, hu⟩ := exists_replicate_append 0x0d v
    rw [accepts_replicate (s := fun q => (hp, q)) hskip] at h
    cases u with
    | nil => exact h.elim
    | cons b u =>
      have hstep := statusByte_spaceAfterStatus (p := p + k) hstate b
      by_cases hsep : b = 0x20 ∨ b = 0x2e
      · rw [if_pos hsep] at hstep
        exact ⟨k, .inr ⟨b, u, hsep, rfl, (accepts_more hstep).mp h⟩⟩
      rw [if_neg hsep, if_neg (by simpa using hu)] at hstep
      by_cases hlf : b = 0x0a
      · rw [if_pos hlf] at hstep
        obtain ⟨rfl, rfl⟩ := (accepts_done hstep).mp h
        exact ⟨k, .inl ⟨by rw [hlf], by simp [Nat.add_assoc]⟩⟩
      · rw [if_neg hlf] at hstep
        exact absurd h (not_accepts_fail hstep)
  · rintro ⟨k, ⟨rfl, rfl⟩ | ⟨sep, u, hsep, rfl, h⟩⟩
    · have hstep := statusByte_spaceAfterStatus (p := p + k) hstate 0x0a
      rw [if_neg (by decide), if_neg (by decide), if_pos rfl] at hstep
      rw [accepts_replicate (s := fun q => (hp, q)) hskip, accepts_done hstep]
      exact ⟨rfl, by simp [Nat.add_assoc]⟩
    · have hstep := statusByte_spaceAfterStatus (p := p + k) hstate sep
      rw [if_pos hsep] at hstep
      rwa [accepts_replicate (s := fun q => (hp, q)) hskip, accepts_more hstep]

/-! ### The numbers -/

theorem statusByte_status (hstate : hp.state = .status) (b : UInt8) : statusByte (hp, p) b =
      if b = 0x20 then .more (hp, p + 1)
      else if isDigitChar b then
        .more ({ hp with
          code := 10 * hp.code + digitValue b
          count := hp.count + 1
          state := if hp.count + 1 = 3 then .spaceAfterStatus else .status }, p + 1)
      else .fail := by
  obtain ⟨state, major, minor, version, code, start, stop, count, n, n', h, h'⟩ := hp
  obtain rfl : state = .status := hstate
  change (if b = 0x20 then _ else _) = _
  by_cases hspace : b = 0x20
  · rw [if_pos hspace, if_pos hspace]
  rw [if_neg hspace, if_neg hspace]
  by_cases hdigit : isDigitChar b = true
  · rw [if_pos hdigit, if_neg (not_not.mpr hdigit), Nat.mul_comm 10]
    by_cases hcount : count + 1 = 3
    · simp only [if_pos hcount]
    · simp only [if_neg hcount]
  · rw [if_neg hdigit, if_pos hdigit]

theorem accepts_status {k : ℕ} (hstate : hp.state = .status) (hcount : hp.count + (k + 1) = 3) :
    Accepts statusByte (hp, p) v a ↔
      ∃ cs code u, SpacedDigits (k + 1) hp.code cs code ∧ v = cs ++ u ∧ Accepts statusByte
          ({ hp with state := .spaceAfterStatus, count := 3, code }, p + cs.length) u a := by
  induction v generalizing hp p k with
  | nil =>
    constructor
    · exact fun h => h.elim
    · rintro ⟨cs, code, u, -, hv, h⟩
      obtain ⟨-, rfl⟩ := List.append_eq_nil_iff.mp hv.symm
      exact h.elim
  | cons b v ih =>
    have hlen : ∀ cs : Bytes, p + 1 + cs.length = p + (b :: cs).length := fun cs => by
      rw [List.length_cons]
      omega
    have hstep := statusByte_status (p := p) hstate b
    by_cases hspace : b = 0x20
    · have hdigit : isDigitChar b = false := by rw [hspace]; decide
      rw [if_pos hspace] at hstep
      rw [accepts_more hstep, ih hstate hcount]
      constructor
      · rintro ⟨cs, code, u, hcs, rfl, h⟩
        rw [hlen] at h
        exact ⟨b :: cs, code, u, hspace ▸ .space hcs, rfl, h⟩
      rintro ⟨cs, code, u, hcs, hv, h⟩
      cases hcs with
      | space hcs =>
        obtain ⟨-, rfl⟩ := List.cons.inj hv
        exact ⟨_, code, u, hcs, rfl, by rwa [hlen, hspace]⟩
      | digit hc hcs =>
        obtain ⟨rfl, -⟩ := List.cons.inj hv
        rw [hdigit] at hc
        cases hc
    · rw [if_neg hspace] at hstep
      by_cases hdigit : isDigitChar b = true
      · rw [if_pos hdigit] at hstep
        rw [accepts_more hstep]
        have hsplit : Accepts statusByte ({ hp with
              code := 10 * hp.code + digitValue b
              count := hp.count + 1
              state := if hp.count + 1 = 3 then .spaceAfterStatus else .status }, p + 1) v a ↔
            ∃ cs code u, SpacedDigits k (10 * hp.code + digitValue b) cs code ∧ v = cs ++ u ∧
              Accepts statusByte
                ({ hp with state := .spaceAfterStatus, count := 3, code }, p + 1 + cs.length)
                u a := by
          cases k with
          | zero =>
            have hthree : hp.count + 1 = 3 := hcount
            rw [if_pos hthree, hthree]
            constructor
            · exact fun h => ⟨[], _, v, .nil, rfl, h⟩
            · rintro ⟨cs, code, u, hcs, rfl, h⟩
              cases hcs
              exact h
          | succ k =>
            have hthree : hp.count + 1 ≠ 3 := by omega
            rw [if_neg hthree]
            exact @ih { hp with
              code := 10 * hp.code + digitValue b
              count := hp.count + 1
              state := .status } (p + 1) k rfl (by simp only; omega)
        rw [hsplit]
        constructor
        · rintro ⟨cs, code, u, hcs, rfl, h⟩
          rw [hlen] at h
          exact ⟨b :: cs, code, u, .digit hdigit hcs, rfl, h⟩
        rintro ⟨cs, code, u, hcs, hv, h⟩
        cases hcs with
        | space hcs =>
          obtain ⟨rfl, -⟩ := List.cons.inj hv
          exact absurd rfl hspace
        | digit hc hcs =>
          obtain ⟨rfl, rfl⟩ := List.cons.inj hv
          exact ⟨_, code, u, hcs, rfl, by rwa [hlen]⟩
      · rw [if_neg hdigit] at hstep
        constructor
        · exact fun h => absurd h (not_accepts_fail hstep)
        rintro ⟨cs, code, u, hcs, hv, -⟩
        cases hcs with
        | space hcs => exact absurd (List.cons.inj hv).1 hspace
        | digit hc hcs =>
          obtain ⟨rfl, -⟩ := List.cons.inj hv
          exact absurd hc hdigit

theorem statusByte_minorDigit (hstate : hp.state = .minorDigit) (b : UInt8) : statusByte (hp, p) b =
      if b = 0x20 then .more ({ hp with state := .status }, p + 1)
      else if isDigitChar b ∧ hp.httpMinor ≤ 99 then
        .more ({ hp with httpMinor := 10 * hp.httpMinor + digitValue b }, p + 1)
      else .fail := by
  obtain ⟨state, major, minor, version, code, start, stop, count, n, n', h, h'⟩ := hp
  obtain rfl : state = .minorDigit := hstate
  change (if b = 0x20 then _ else _) = _
  by_cases hspace : b = 0x20
  · rw [if_pos hspace, if_pos hspace]
  rw [if_neg hspace, if_neg hspace, Nat.mul_comm 10]
  by_cases hdigit : isDigitChar b = true
  · rw [if_neg (not_not.mpr hdigit)]
    change (if minor > 99 then _ else _) = _
    by_cases hminor : minor > 99
    · rw [if_pos hminor, if_neg fun h => absurd h.2 (by simpa using hminor)]
    · rw [if_neg hminor, if_pos ⟨hdigit, by simpa using hminor⟩]
  · rw [if_pos hdigit, if_neg fun h => hdigit h.1]

theorem accepts_minorDigit (hstate : hp.state = .minorDigit) (hminor : hp.httpMinor < 1000) :
    Accepts statusByte (hp, p) v a ↔
      ∃ ds minor u, decimalFrom hp.httpMinor ds = some minor ∧ minor < 1000 ∧ v = ds ++ 0x20 :: u ∧
        Accepts statusByte
          ({ hp with state := .status, httpMinor := minor }, p + ds.length + 1) u a := by
  induction v generalizing hp p with
  | nil => simp [Accepts]
  | cons b v ih =>
    have hstep := statusByte_minorDigit (p := p) hstate b
    by_cases hspace : b = 0x20
    · have hdigit : isDigitChar b = false := by rw [hspace]; decide
      rw [if_pos hspace] at hstep
      rw [accepts_more hstep]
      constructor
      · exact fun h => ⟨[], _, v, rfl, hminor, by rw [hspace]; rfl, h⟩
      rintro ⟨ds, minor, u, hds, hlt, hv, h⟩
      cases ds with
      | nil =>
        cases hds
        obtain ⟨-, rfl⟩ := List.cons.inj hv
        exact h
      | cons c ds =>
        obtain ⟨rfl, -⟩ := List.cons.inj hv
        simp [decimalFrom, hdigit] at hds
    · rw [if_neg hspace] at hstep
      by_cases hdigit : isDigitChar b = true ∧ hp.httpMinor ≤ 99
      · have hvalue : digitValue b < 10 := by
          have := hdigit.1
          simp only [isDigitChar, Bool.and_eq_true, decide_eq_true_iff,
            UInt8.le_iff_toNat_le] at this
          have h57 : (57 : UInt8).toNat = 57 := rfl
          rw [digitValue]
          omega
        rw [if_pos hdigit] at hstep
        have hrest := @ih { hp with httpMinor := 10 * hp.httpMinor + digitValue b } (p + 1) hstate
          (by simp only; omega)
        have hlen : ∀ ds : Bytes, p + 1 + ds.length + 1 = p + (b :: ds).length + 1 := fun ds => by
          rw [List.length_cons]
          omega
        rw [accepts_more hstep, hrest]
        constructor
        · rintro ⟨ds, minor, u, hds, hlt, rfl, h⟩
          rw [hlen] at h
          exact ⟨b :: ds, minor, u, by rw [decimalFrom, if_pos hdigit.1]; exact hds, hlt, rfl, h⟩
        rintro ⟨ds, minor, u, hds, hlt, hv, h⟩
        cases ds with
        | nil => exact absurd (List.cons.inj hv).1 hspace
        | cons c ds =>
          obtain ⟨rfl, rfl⟩ := List.cons.inj hv
          rw [decimalFrom, if_pos hdigit.1] at hds
          exact ⟨ds, minor, u, hds, hlt, rfl, by rwa [hlen]⟩
      · rw [if_neg hdigit] at hstep
        constructor
        · exact fun h => absurd h (not_accepts_fail hstep)
        rintro ⟨ds, minor, u, hds, hlt, hv, -⟩
        cases ds with
        | nil => exact absurd (List.cons.inj hv).1 hspace
        | cons c ds =>
          obtain ⟨rfl, -⟩ := List.cons.inj hv
          rw [decimalFrom] at hds
          split_ifs at hds with hc
          have hge := Http.decimalFrom_ge hds
          exact absurd ⟨hc, by omega⟩ hdigit

/-! ### The line -/

theorem statusByte_firstMajorDigit (hstate : hp.state = .firstMajorDigit) (b : UInt8) :
    statusByte (hp, p) b =
      if b = 0x31 then .more ({ hp with httpMajor := 1, state := .majorDigit }, p + 1)
      else .fail := by
  obtain ⟨state, major, minor, version, code, start, stop, count, n, n', h, h'⟩ := hp
  obtain rfl : state = .firstMajorDigit := hstate
  change (if b < 0x31 ∨ b > 0x39 then _ else if digitValue b > 1 then _ else _) = _
  by_cases hone : b = 0x31
  · subst hone
    rfl
  rw [if_neg hone]
  split_ifs with hrange hbig
  · rfl
  · rfl
  · refine absurd (UInt8.toNat_inj.mp ?_) hone
    rw [not_or, UInt8.not_lt, UInt8.le_iff_toNat_le] at hrange
    have h49 : (0x31 : UInt8).toNat = 49 := rfl
    rw [digitValue] at hbig
    omega

theorem statusByte_majorDigit (hstate : hp.state = .majorDigit) (hmajor : hp.httpMajor = 1)
    (b : UInt8) :
    statusByte (hp, p) b =
      if b = 0x2e then .more ({ hp with state := .firstMinorDigit }, p + 1) else .fail := by
  obtain ⟨state, major, minor, version, code, start, stop, count, n, n', h, h'⟩ := hp
  obtain rfl : state = .majorDigit := hstate
  obtain rfl : major = 1 := hmajor
  change (if b = 0x2e then _ else _) = _
  by_cases hdot : b = 0x2e
  · rw [if_pos hdot, if_pos hdot]
  rw [if_neg hdot, if_neg hdot]
  by_cases hdigit : isDigitChar b = true
  · rw [if_neg (not_not.mpr hdigit)]
    change (if 1 * 10 + digitValue b > 1 then _ else _) = _
    exact if_pos (by omega)
  · rw [if_pos hdigit]

def statusHead (minor code : ℕ) : HttpParse StatusState :=
  { HttpParse.init with httpMajor := 1, httpMinor := minor, code, count := 3 }

theorem accepts_version : Accepts statusByte (HttpParse.init, p) v a ↔ ∃ u, v = lit "HTTP/1." ++ u ∧
        Accepts statusByte
          ({ HttpParse.init with httpMajor := 1, state := .firstMinorDigit }, p + 7) u a := by
  let atState (major : ℕ) (state : StatusState) (q : ℕ) : StatusPos :=
    ({ HttpParse.init with httpMajor := major, state }, q)
  have h₀ : ∀ b, statusByte (atState 0 .start p) b =
      if b = 0x48 then .more (atState 0 .h (p + 1)) else .fail := fun b => rfl
  have h₁ : ∀ b, statusByte (atState 0 .h (p + 1)) b =
      if b = 0x54 then .more (atState 0 .ht (p + 2)) else .fail := fun b => rfl
  have h₂ : ∀ b, statusByte (atState 0 .ht (p + 2)) b =
      if b = 0x54 then .more (atState 0 .htt (p + 3)) else .fail := fun b => rfl
  have h₃ : ∀ b, statusByte (atState 0 .htt (p + 3)) b =
      if b = 0x50 then .more (atState 0 .http (p + 4)) else .fail := fun b => rfl
  have h₄ : ∀ b, statusByte (atState 0 .http (p + 4)) b =
      if b = 0x2f then .more (atState 0 .firstMajorDigit (p + 5)) else .fail := fun b => rfl
  have h₅ : ∀ b, statusByte (atState 0 .firstMajorDigit (p + 5)) b =
      if b = 0x31 then .more (atState 1 .majorDigit (p + 6)) else .fail :=
    statusByte_firstMajorDigit rfl
  have h₆ : ∀ b, statusByte (atState 1 .majorDigit (p + 6)) b =
      if b = 0x2e then .more (atState 1 .firstMinorDigit (p + 7)) else .fail :=
    statusByte_majorDigit rfl rfl
  have hlit : lit "HTTP/1." = [0x48, 0x54, 0x54, 0x50, 0x2f, 0x31, 0x2e] := by decide
  change Accepts statusByte (atState 0 .start p) v a ↔ _
  simp only [accepts_literal h₀, accepts_literal h₁,
    accepts_literal h₂, accepts_literal h₃, accepts_literal h₄,
    accepts_literal h₅, accepts_literal h₆, hlit]
  constructor
  · rintro ⟨_, rfl, _, rfl, _, rfl, _, rfl, _, rfl, _, rfl, u, rfl, h⟩
    exact ⟨u, rfl, h⟩
  · rintro ⟨u, rfl, h⟩
    exact ⟨_, rfl, _, rfl, _, rfl, _, rfl, _, rfl, _, rfl, u, rfl, h⟩

theorem statusByte_firstMinorDigit (hstate : hp.state = .firstMinorDigit) (b : UInt8) :
    statusByte (hp, p) b = if isDigitChar b then
        .more ({ hp with httpMinor := digitValue b, state := .minorDigit }, p + 1)
      else .fail := by
  obtain ⟨state, major, minor, version, code, start, stop, count, n, n', h, h'⟩ := hp
  obtain rfl : state = .firstMinorDigit := hstate
  change (if ¬ isDigitChar b = true then _ else _) = _
  rw [ite_not]

theorem accepts_head : Accepts statusByte (HttpParse.init, p) v a ↔
      ∃ minor code ds cs u, ds ≠ [] ∧ decimalFrom 0 ds = some minor ∧ minor < 1000 ∧
        SpacedDigits 3 0 cs code ∧ v = lit "HTTP/1." ++ ds ++ [0x20] ++ cs ++ u ∧
        Accepts statusByte ({ statusHead minor code with state := .spaceAfterStatus },
          p + (lit "HTTP/1." ++ ds ++ [0x20] ++ cs).length) u a := by
  have hseven : (lit "HTTP/1.").length = 7 := rfl
  have hlen : ∀ (c : UInt8) (ds cs : Bytes), p + 7 + 1 + ds.length + 1 + cs.length =
      p + (lit "HTTP/1." ++ (c :: ds) ++ [0x20] ++ cs).length := by
    intro c ds cs
    simp only [List.length_append, List.length_cons, List.length_nil, hseven]
    omega
  -- The first digit of the minor version, its other digits, and the status.
  have hminor : ∀ u, Accepts statusByte
      ({ HttpParse.init with httpMajor := 1, state := .firstMinorDigit }, p + 7) u a ↔
      ∃ c ds minor w, isDigitChar c = true ∧ decimalFrom (digitValue c) ds = some minor ∧
        minor < 1000 ∧ u = c :: ds ++ 0x20 :: w ∧ Accepts statusByte
          ({ statusHead minor 0 with count := 0, state := .status },
            p + 7 + 1 + ds.length + 1) w a := by
    intro u
    cases u with
    | nil => simp [Accepts]
    | cons c u =>
      have hstep := @statusByte_firstMinorDigit
        { HttpParse.init with httpMajor := 1, state := .firstMinorDigit } (p + 7) rfl c
      by_cases hc : isDigitChar c = true
      · rw [if_pos hc] at hstep
        have hlt := Http.digitValue_lt hc
        rw [accepts_more hstep, accepts_minorDigit rfl (by simp only; omega)]
        constructor
        · rintro ⟨ds, minor, w, hds, hminor, rfl, h⟩
          exact ⟨c, ds, minor, w, hc, hds, hminor, rfl, h⟩
        · rintro ⟨_, ds, minor, w, -, hds, hminor, hu, h⟩
          obtain ⟨rfl, rfl⟩ := List.cons.inj hu
          exact ⟨ds, minor, w, hds, hminor, rfl, h⟩
      · rw [if_neg hc] at hstep
        constructor
        · exact fun h => absurd h (not_accepts_fail hstep)
        · rintro ⟨_, ds, minor, w, hc', -, -, hu, -⟩
          obtain ⟨rfl, -⟩ := List.cons.inj hu
          exact absurd hc' hc
  rw [accepts_version]
  simp only [hminor]
  constructor
  · rintro ⟨_, rfl, c, ds, minor, w, hc, hds, hlt, rfl, h⟩
    obtain ⟨cs, code, u, hcs, rfl, hrest⟩ := (accepts_status (k := 2) rfl rfl).mp h
    refine ⟨minor, code, c :: ds, cs, u, by simp, ?_, hlt, hcs, by simp, ?_⟩
    · rw [decimalFrom, if_pos hc]
      simpa using hds
    · rw [hlen c] at hrest
      exact hrest
  rintro ⟨minor, code, ds, cs, u, hne, hds, hlt, hcs, rfl, h⟩
  obtain ⟨c, ds, rfl⟩ := List.exists_cons_of_ne_nil hne
  rw [decimalFrom] at hds
  split_ifs at hds with hc
  refine ⟨c :: ds ++ 0x20 :: (cs ++ u), by simp, c, ds, minor, cs ++ u, hc, by simpa using hds,
    hlt, rfl, (accepts_status (k := 2) rfl rfl).mpr ⟨cs, code, u, hcs, rfl, ?_⟩⟩
  rw [hlen c]
  exact h

/-- What is recorded of a status line that begins at the position `p`. -/
def statusRecord (p minor code : ℕ) : Option Http.StatusText → HttpParse StatusState
  | none => statusDone (statusHead minor code)
  | some t => statusDone (withText (statusHead minor code) (p + t.before.length) t.text t.eol)

theorem accepts_status_iff : Accepts statusByte (HttpParse.init, p) v a ↔
      ∃ minor code text, StatusLine minor code v text ∧
        (statusRecord p minor code text, p + v.length) = a := by
  rw [accepts_head]
  constructor
  · rintro ⟨minor, code, ds, cs, u, hne, hds, hlt, hcs, rfl, h⟩
    obtain ⟨k, ⟨rfl, rfl⟩ | ⟨sep, w, hsep, rfl, htail⟩⟩ := (accepts_spaceAfterStatus rfl).mp h
    · refine ⟨minor, code, none, ?_, Prod.ext rfl ?_⟩
      · rw [← List.append_assoc]
        exact .plain ⟨ds, cs, k, hne, hds, hlt, hcs, rfl⟩
      · simp only [List.length_append]
        omega
    obtain ⟨text, eol, hline, rfl⟩ := (accepts_statusText rfl).mp htail
    obtain rfl := hline.eq
    have hhead : StatusHead minor code
        (lit "HTTP/1." ++ ds ++ [0x20] ++ cs ++ List.replicate k 0x0d) :=
      ⟨ds, cs, k, hne, hds, hlt, hcs, rfl⟩
    refine ⟨minor, code,
      some ⟨lit "HTTP/1." ++ ds ++ [0x20] ++ cs ++ List.replicate k 0x0d ++ [sep], text, eol⟩,
      ?_, Prod.ext ?_ ?_⟩
    · have := StatusLine.text hhead hsep hline.all hline.ends
      simpa only [List.append_assoc, List.cons_append, List.nil_append] using this
    · refine congrArg (fun q => statusDone (withText (statusHead minor code) q text eol)) ?_
      simp only [List.length_append, List.length_replicate, List.length_cons, List.length_nil]
      omega
    · simp only [List.length_append, List.length_replicate, List.length_cons, List.length_nil]
      omega
  · rintro ⟨minor, code, text, hline, rfl⟩
    cases hline with
    | plain hhead =>
      obtain ⟨ds, cs, k, hne, hds, hlt, hcs, rfl⟩ := hhead
      refine ⟨minor, code, ds, cs, List.replicate k 0x0d ++ [0x0a], hne, hds, hlt, hcs,
        by rw [List.append_assoc _ (List.replicate k 0x0d)], ?_⟩
      refine (accepts_spaceAfterStatus rfl).mpr ⟨k, .inl ⟨rfl, Prod.ext rfl ?_⟩⟩
      simp only [List.length_append]
      omega
    | @text head text eol sep hhead hsep htext heol =>
      obtain ⟨ds, cs, k, hne, hds, hlt, hcs, rfl⟩ := hhead
      refine ⟨minor, code, ds, cs, List.replicate k 0x0d ++ sep :: (text ++ eol), hne, hds, hlt,
        hcs, by simp only [List.append_assoc, List.cons_append, List.nil_append], ?_⟩
      refine (accepts_spaceAfterStatus rfl).mpr ⟨k, .inr ⟨sep, text ++ eol, hsep, rfl, ?_⟩⟩
      refine (accepts_statusText rfl).mpr ⟨text, eol, ⟨htext, heol, rfl⟩, Prod.ext ?_ ?_⟩
      · refine congrArg (fun q => statusDone (withText (statusHead minor code) q text eol)) ?_
        simp only [List.length_append, List.length_replicate, List.length_cons, List.length_nil]
        omega
      · simp only [List.length_append, List.length_replicate, List.length_cons, List.length_nil]
        omega

end Njs.HttpClient
