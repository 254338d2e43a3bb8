import Njs.Date.Calendar
import Njs.Lib.Decimal
import Njs.Lib.Text

/-!
# Strings that are dates

`Date.parse` reads three formats. A pointer is the list of the characters from it on.
-/

namespace Njs.Date

open Text (chr)

/-! ### The code -/

/-- The loop of `njs_date_number_parse`. -/
def numberLoop (n : ℤ) (size : ℕ) : Bytes → Option (ℤ × Bytes)
  | [] => none
  | c :: p =>
    let c := c - chr '0'
    if c > 9 then none
    else
      let n := n * 10 + c.toNat
      let size := (size + (2 ^ 64 - 1)) % 2 ^ 64
      if size = 0 then some (n, p) else numberLoop n size p

def njsDateNumberParse (p : Bytes) (size : ℕ) : Option (ℤ × Bytes) := numberLoop 0 size p

def njsDateTimeParse (tm : Fields) (p : Bytes) : Option (Fields × Bytes) := do
  let (hr, p) ← njsDateNumberParse p 2
  if p.head? ≠ some (chr ':') then none
  else
    let (min, p) ← njsDateNumberParse p.tail 2
    let tm := { tm with hr := hr, min := min }
    if p = [] then return (tm, p)
    else if p.head? ≠ some (chr ':') then none
    else
      let (sec, p) ← njsDateNumberParse p.tail 2
      return ({ tm with sec := sec }, p)

/-- `njs_date_utc_offset_parse`, which is `-1` for what is no offset. -/
def njsDateUtcOffsetParse (start : Bytes) : ℤ :=
  if 2 < start.length ∧ (start.head? = some (chr '+') ∨ start.head? = some (chr '-')) then
    match njsDateNumberParse start.tail 2 with
    | none => -1
    | some (hour, p) =>
      if hour > 23 then -1
      else
        match njsDateNumberParse (if p.head? = some (chr ':') then p.tail else p) 2 with
        | none => -1
        | some (min, _) =>
          if min > 59 then -1
          else if start.head? = some (chr '-') then -(hour * 60 + min)
          else hour * 60 + min
  else -1

def njsDateGmtoffParse (start : Bytes) : ℤ :=
  if 4 < start.length ∧ (start.head? = some (chr '+') ∨ start.head? = some (chr '-')) then
    match njsDateNumberParse start.tail 2 with
    | none => -1
    | some (hour, p) =>
      match njsDateNumberParse p 2 with
      | none => -1
      | some (min, _) =>
        if start.head? = some (chr '-') then -(hour * 60 + min) else hour * 60 + min
  else -1

def njsDateSkipWeekDay : Bytes → Option Bytes
  | [] => none
  | c :: p => if c = chr ' ' then some (c :: p) else njsDateSkipWeekDay p

def njsDateSkipSpaces : Bytes → Option Bytes
  | [] => none
  | c :: p => if c = chr ' ' then some (p.dropWhile (· = chr ' ')) else none

def monthNames : List Bytes :=
  ["Jan", "Feb", "Mar", "Apr", "May", "Jun", "Jul", "Aug", "Sep", "Oct", "Nov", "Dec"].map Text.lit

def njsDateMonthParse (p : Bytes) : ℤ :=
  if 2 < p.length then
    match monthNames.idxOf? (p.take 3) with
    | none => -1
    | some month => month
  else -1

section

variable (tzOffset : ℤ → ℤ)

/-- What follows the time in the ISO format. -/
def fractionParse (tm : Fields) (p : Bytes) (utc : Bool) : Option ℤ :=
  if p = [] then njsMakeDate tzOffset tm (!utc)
  else if p.head? ≠ some (chr '.') then none
  else do
    let p := p.tail
    let msLength := (p.takeWhile fun c => chr '0' ≤ c ∧ c ≤ chr '9').length
    let (msec, _) ← njsDateNumberParse p (min msLength 3)
    let msec := if msLength = 1 then msec * 100 else if msLength = 2 then msec * 10 else msec
    let p := p.drop msLength
    if p = [] then njsMakeDate tzOffset { tm with msec := msec } (!utc)
    else
      let utcOff := njsDateUtcOffsetParse p
      if utcOff = -1 then none
      else njsMakeDate tzOffset { tm with msec := msec + -utcOff * 60000 } false

/-- What follows the `T` in the ISO format. -/
def timeParse (tm : Fields) (p : Bytes) : Option ℤ := do
  let (p, utc) := if p.getLast? = some (chr 'Z') then (p.dropLast, true) else (p, false)
  let (tm, p) ← njsDateTimeParse tm p
  fractionParse tzOffset tm p utc

/-- What follows the year in the ISO format, where there is something. -/
def dayParse (tm : Fields) (p : Bytes) : Option ℤ :=
  if p.head? ≠ some (chr '-') then none
  else do
    let (mon, p) ← njsDateNumberParse p.tail 2
    let tm := { tm with mon := mon - 1 }
    if p = [] then njsMakeDate tzOffset tm false
    else if p.head? ≠ some (chr '-') then none
    else
      let (day, p) ← njsDateNumberParse p.tail 2
      let tm := { tm with day := day }
      if p = [] then njsMakeDate tzOffset tm false
      else if p.head? ≠ some (chr 'T') then none
      else timeParse tzOffset tm p.tail

def initial : Fields := ⟨0, 0, 1, 0, 0, 0, 0, 0⟩

/-- What follows the first four digits in the ISO format. -/
def isoParse (string : Bytes) (yr : ℤ) (next : Bytes) : Option ℤ :=
  let tm := { initial with yr := yr }
  if next = [] then njsMakeDate tzOffset tm false
  else if next.head? ≠ some (chr '-') then do
    let (ext, next) ← njsDateNumberParse next 2
    let yr := yr * 100 + ext
    if string.head? = some (chr '-') ∧ yr = 0 then none
    else
      let tm := { tm with yr := if string.head? = some (chr '-') then -yr else yr }
      if next = [] then njsMakeDate tzOffset tm false
      else dayParse tzOffset tm next
  else dayParse tzOffset tm next

/-- What follows the year in the other formats: the fields, and what is left of the string. -/
def clockParse (tm : Fields) (p : Bytes) : Option (Fields × Bytes) :=
  if p = [] then some (tm, [])
  else do
    let p ← njsDateSkipSpaces p
    if p = [] then return (tm, [])
    else
      let (tm, p) ← njsDateTimeParse tm p
      if p = [] then return (tm, [])
      else return (tm, ← njsDateSkipSpaces p)

def njsDateRfc2822StringParse (day : ℤ) (p : Bytes) : Option ℤ := do
  let p ← njsDateSkipSpaces p
  let mon := njsDateMonthParse p
  if mon < 0 then none
  else
    let p ← njsDateSkipSpaces (p.drop 3)
    let (yr, p) ← njsDateNumberParse p 4
    let (tm, p) ← clockParse { initial with yr := yr, mon := mon, day := day } p
    if p = [] then njsMakeDate tzOffset { tm with msec := -0 * 60000 } false
    else if p.length ≤ 2 then none
    else
      let gmtoff := if p.take 3 = Text.lit "GMT" ∨ p.take 3 = Text.lit "UTC" then 0
        else njsDateGmtoffParse p
      if gmtoff = -1 then none else njsMakeDate tzOffset { tm with msec := -gmtoff * 60000 } false

def njsDateJsStringParse (mon : ℤ) (p : Bytes) : Option ℤ := do
  let p ← njsDateSkipSpaces p
  let (day, p) ← njsDateNumberParse p 2
  let p ← njsDateSkipSpaces p
  let (yr, p) ← njsDateNumberParse p 4
  let (tm, p) ← clockParse { initial with yr := yr, mon := mon, day := day } p
  if p = [] then njsMakeDate tzOffset tm false
  else if 2 < p.length ∧ p.take 3 = Text.lit "GMT" then
    let gmtoff := njsDateGmtoffParse (p.drop 3)
    if gmtoff = -1 then none else njsMakeDate tzOffset { tm with msec := -gmtoff * 60000 } false
  else none

/-- A pass of the loop over the other formats. -/
def formatParse (p : Bytes) (otherwise : Option ℤ) : Option ℤ :=
  match njsDateNumberParse p 2 with
  | some (day, next) => njsDateRfc2822StringParse tzOffset day next
  | none =>
    let mon := njsDateMonthParse p
    if 0 ≤ mon then njsDateJsStringParse tzOffset mon (p.drop 3) else otherwise

/-- `njs_date_string_parse`. Not a number is none. -/
def njsDateStringParse (string : Bytes) : Option ℤ :=
  if string = [] then none
  else
    let sign : Bool := string.head? = some (chr '+') ∨ string.head? = some (chr '-')
    let p := if sign then string.tail else string
    match njsDateNumberParse p 4 with
    | some (yr, next) => isoParse tzOffset string yr next
    | none =>
      if sign then none
      else formatParse tzOffset p (do
        let p ← njsDateSkipWeekDay p
        let p ← njsDateSkipSpaces p
        formatParse tzOffset p none)

end

/-! ### Numbers -/

def text (ds : List ℕ) : Bytes := ds.map fun d => UInt8.ofNat (48 + d)

theorem digit_sub {d : ℕ} (hd : d < 10) : (UInt8.ofNat (48 + d) - chr '0').toNat = d := by
  rw [UInt8.toNat_sub, UInt8.toNat_ofNat', show (chr '0').toNat = 48 from rfl]
  omega

theorem not_lt_digit {d : ℕ} (hd : d < 10) : ¬UInt8.ofNat (48 + d) - chr '0' > 9 := by
  rw [gt_iff_lt, UInt8.lt_iff_toNat_lt, digit_sub hd, show (9 : UInt8).toNat = 9 from rfl]
  omega

theorem ofDigits_cons (d : ℕ) (ds : List ℕ) :
    Decimal.ofDigits (d :: ds) = d * 10 ^ ds.length + Decimal.ofDigits ds := by
  rw [← List.singleton_append, Decimal.ofDigits_append]
  simp [Decimal.ofDigits]

theorem numberLoop_digits {d : ℕ} {ds : List ℕ} (hds : ∀ e ∈ d :: ds, e < 10)
    (hlength : (d :: ds).length < 2 ^ 64) (n : ℤ) (rest : Bytes) :
    numberLoop n (d :: ds).length (text (d :: ds) ++ rest) =
      some (n * 10 ^ (d :: ds).length + Decimal.ofDigits (d :: ds), rest) := by
  induction ds generalizing d n with
  | nil =>
    have hd := hds d List.mem_cons_self
    have hsize : ([d].length + (2 ^ 64 - 1)) % 2 ^ 64 = 0 := by
      rw [List.length_singleton]
      norm_num
    rw [text, List.map_cons, List.cons_append, numberLoop]
    dsimp only
    rw [if_neg (not_lt_digit hd), digit_sub hd, if_pos hsize, ofDigits_cons]
    simp
  | cons e ds ih =>
    have hd := hds d List.mem_cons_self
    have hmore : (e :: ds).length ≠ 0 := Nat.succ_ne_zero _
    have hsize : ((d :: e :: ds).length + (2 ^ 64 - 1)) % 2 ^ 64 = (e :: ds).length := by
      simp only [List.length_cons] at hlength ⊢
      omega
    have hrest := ih (fun f hf => hds f (List.mem_cons_of_mem d hf))
      (by simp only [List.length_cons] at hlength ⊢; omega) (n * 10 + d)
    rw [text, List.map_cons, List.cons_append, numberLoop]
    dsimp only
    rw [if_neg (not_lt_digit hd), digit_sub hd, hsize, if_neg hmore, ← text, hrest, ofDigits_cons d]
    refine congrArg (fun v => some (v, rest)) ?_
    rw [List.length_cons (a := d), pow_succ]
    push_cast
    ring

theorem njsDateNumberParse_digits {ds : List ℕ} (hds : ∀ d ∈ ds, d < 10) (hpos : ds ≠ [])
    (hlength : ds.length < 2 ^ 64) (rest : Bytes) :
    njsDateNumberParse (text ds ++ rest) ds.length = some ((Decimal.ofDigits ds : ℤ), rest) := by
  obtain _ | ⟨d, ds⟩ := ds
  · exact absurd rfl hpos
  · rw [njsDateNumberParse, numberLoop_digits hds hlength, zero_mul, zero_add]

theorem njsDateNumberParse_padded {w n : ℕ} (hw : 0 < w) (hw' : w < 2 ^ 64) (hn : n < 10 ^ w)
    (rest : Bytes) :
    njsDateNumberParse (text (Decimal.padded w n) ++ rest) w = some ((n : ℤ), rest) := by
  have hlength := Decimal.length_padded hw hn
  have hparse := @njsDateNumberParse_digits (Decimal.padded w n)
    (fun _ => Decimal.lt_of_mem_padded) (by
      intro hnil
      rw [hnil, List.length_nil] at hlength
      omega) (by rw [hlength]; exact hw') rest
  rwa [hlength, Decimal.ofDigits_padded] at hparse

theorem njsDateNumberParse_other {c : UInt8} (hc : 9 < c - chr '0') (p : Bytes) (size : ℕ) :
    njsDateNumberParse (c :: p) size = none := by
  rw [njsDateNumberParse, numberLoop]
  exact if_pos hc

end Njs.Date
