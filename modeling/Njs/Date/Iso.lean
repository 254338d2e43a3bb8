import Njs.Date.Parse

/-!
# Strings of the ECMAScript format

The format has dates that may end with the year or the month, with or without a time of day and a
time zone. A time zone is read only after a fraction of a second, a time of day only after a day,
and the zone of one minute behind is taken for an error.
-/

namespace Njs.Date

open Gregorian (yearStart monthStart monthLength)
open Text (chr)
open Decimal (digits_ne_nil length_padded lt_of_mem_padded ofDigits ofDigits_append ofDigits_lt
  ofDigits_padded ofDigits_replicate_zero ofDigits_take padded)

/-! ### The format -/

/-- A year of four digits, or of six digits with a sign. -/
inductive Year
  | four (y : ℕ)
  | six (negative : Bool) (y : ℕ)

def Year.value : Year → ℤ
  | .four y => y
  | .six negative y => if negative then -y else y

def Year.text : Year → Bytes
  | .four y => Date.text (padded 4 y)
  | .six negative y => (if negative then chr '-' else chr '+') :: Date.text (padded 6 y)

/-- Zero has no minus sign. -/
def Year.Ok : Year → Prop
  | .four y => y < 10 ^ 4
  | .six negative y => y < 10 ^ 6 ∧ (negative = true → y ≠ 0)

def two (n : ℕ) : Bytes := text (padded 2 n)

/-- A date, of which the day or the month may be missing. The first month is 1. -/
inductive IsoDate
  | year (y : Year)
  | month (y : Year) (m : ℕ)
  | day (y : Year) (m d : ℕ)

def IsoDate.text : IsoDate → Bytes
  | .year y => y.text
  | .month y m => y.text ++ chr '-' :: two m
  | .day y m d => y.text ++ chr '-' :: two m ++ chr '-' :: two d

/-- The days since 1970. -/
def IsoDate.number : IsoDate → ℤ
  | .year y => yearStart y.value
  | .month y m => yearStart y.value + monthStart y.value (m - 1)
  | .day y m d => yearStart y.value + monthStart y.value (m - 1) + (d - 1)

def IsoDate.Ok : IsoDate → Prop
  | .year y => y.Ok
  | .month y m => y.Ok ∧ 1 ≤ m ∧ m ≤ 12
  | .day y m d => y.Ok ∧ (1 ≤ m ∧ m ≤ 12) ∧ 1 ≤ d ∧ (d : ℤ) ≤ monthLength y.value (m - 1)

def IsoDate.IsDay : IsoDate → Prop
  | .year _ => False
  | .month _ _ => False
  | .day _ _ _ => True

instance : DecidablePred IsoDate.IsDay
  | .year _ => isFalse id
  | .month _ _ => isFalse id
  | .day _ _ _ => isTrue trivial

/-- A time of day, of which the seconds or their fraction may be missing. -/
structure Clock where
  hr : ℕ
  min : ℕ
  /-- The seconds and the digits of their fraction. -/
  sec : Option (ℕ × Option (List ℕ))

namespace Clock

def fractionText : Option (List ℕ) → Bytes
  | none => []
  | some ds => chr '.' :: text ds

def secText : Option (ℕ × Option (List ℕ)) → Bytes
  | none => []
  | some (s, fraction) => chr ':' :: two s ++ fractionText fraction

def text (c : Clock) : Bytes := two c.hr ++ chr ':' :: two c.min ++ secText c.sec

def seconds (c : Clock) : ℕ := (c.sec.map Prod.fst).getD 0

def digits (c : Clock) : List ℕ := (c.sec.bind Prod.snd).getD []

/-- The milliseconds of the fraction; what is left of it is cut off. -/
def milliseconds (c : Clock) : ℕ := ofDigits c.digits * 1000 / 10 ^ c.digits.length

def HasFraction (c : Clock) : Prop := c.digits ≠ []

instance (c : Clock) : Decidable c.HasFraction := inferInstanceAs (Decidable (_ ≠ _))

/-- The day may end with 24 hours. -/
structure Ok (c : Clock) : Prop where
  time : (c.hr < 24 ∧ c.min < 60 ∧ c.seconds < 60) ∨
    (c.hr = 24 ∧ c.min = 0 ∧ c.seconds = 0 ∧ ∀ d ∈ c.digits, d = 0)
  digits : ∀ d ∈ c.digits, d < 10
  fraction : ∀ s ds, c.sec = some (s, some ds) → ds ≠ []

def value (c : Clock) : ℤ := ((c.hr * 60 + c.min) * 60 + c.seconds) * 1000 + c.milliseconds

end Clock

/-- A time zone: none, that of UTC, or an offset. -/
inductive Zone
  | unnamed
  | utc
  | offset (negative : Bool) (hr min : ℕ)

namespace Zone

def text : Zone → Bytes
  | .unnamed => []
  | .utc => [chr 'Z']
  | .offset negative hr min =>
    (if negative then chr '-' else chr '+') :: two hr ++ chr ':' :: two min

def minutes : Zone → ℤ
  | .offset negative hr min => if negative then -(hr * 60 + min) else hr * 60 + min
  | _ => 0

def Ok : Zone → Prop
  | .offset _ hr min => hr < 24 ∧ min < 60
  | _ => True

end Zone

/-- A string of the format. -/
structure Iso where
  date : IsoDate
  time : Option (Clock × Zone)

namespace Iso

def text (iso : Iso) : Bytes :=
  match iso.time with
  | none => iso.date.text
  | some (clock, zone) => iso.date.text ++ chr 'T' :: (clock.text ++ zone.text)

structure Ok (iso : Iso) : Prop where
  date : iso.date.Ok
  time : ∀ clock zone, iso.time = some (clock, zone) → clock.Ok ∧ zone.Ok

/-- The milliseconds since 1970 by the clocks of the zone. -/
def reading (iso : Iso) : ℤ :=
  iso.date.number * 86400000 + (iso.time.map fun t => t.1.value).getD 0

end Iso

/-! ### What a string denotes -/

/-- A number of milliseconds as a time value, if it is in range. -/
def clip (t : ℤ) : Option ℤ := if maxTime < |t| then none else some t

variable (tzOffset : ℤ → ℤ)

def Shows (u reading : ℤ) : Prop := u - tzOffset u * 60000 = reading

/-- The instant that decides which offset a local reading has: the first one that shows it, or, if
the clocks skip it, the last one that shows the latest reading before. -/
def LocalInstant (reading u : ℤ) : Prop :=
  (Shows tzOffset u reading ∧ ∀ v < u, ¬Shows tzOffset v reading) ∨
    ((∀ v, ¬Shows tzOffset v reading) ∧ ∃ before < reading,
      (Shows tzOffset u before ∧ ∀ v > u, ¬Shows tzOffset v before) ∧
        ∀ skipped, before < skipped → skipped < reading → ∀ v, ¬Shows tzOffset v skipped)

/-- A string has a time value, or none if that is not in range. -/
def Iso.Denotes (iso : Iso) (r : Option ℤ) : Prop :=
  match iso.time with
  | none => r = clip iso.reading
  | some (_, .unnamed) =>
    ∃ u, LocalInstant tzOffset iso.reading u ∧ r = clip (iso.reading + tzOffset u * 60000)
  | some (_, zone) => r = clip (iso.reading - zone.minutes * 60000)

/-- What is made of a string. -/
def Iso.result (iso : Iso) : Option ℤ :=
  match iso.time with
  | none => clip iso.reading
  | some (clock, zone) =>
    if iso.date.IsDay then
      match zone with
      | .unnamed =>
        if maxTime < |iso.reading| then none
        else clip (iso.reading + tzOffset iso.reading * 60000)
      | .utc => clip iso.reading
      | .offset negative hr min =>
        if clock.HasFraction ∧ (Zone.offset negative hr min).minutes ≠ -1 then
          clip (iso.reading - (Zone.offset negative hr min).minutes * 60000)
        else none
    else none

/-- The strings that are read as they should be: dates; with a time those with a day, and of these
with an offset those that also have a fraction of a second, unless the offset is that of one minute
behind. A local time is in range and has the offset of the instant that has its number in UTC.
Others are read so if they have no time value. -/
def Iso.Reads (iso : Iso) : Prop :=
  match iso.time with
  | none => True
  | some (_, .unnamed) => ∃ u, LocalInstant tzOffset iso.reading u ∧
      ((iso.date.IsDay ∧ |iso.reading| ≤ maxTime ∧ tzOffset u = tzOffset iso.reading) ∨
        (maxTime < |iso.reading + tzOffset u * 60000| ∧ (iso.date.IsDay → |iso.reading| ≤ maxTime →
            maxTime < |iso.reading + tzOffset iso.reading * 60000|)))
  | some (_, .utc) => iso.date.IsDay ∨ maxTime < |iso.reading|
  | some (clock, .offset negative hr min) =>
    (iso.date.IsDay ∧ clock.HasFraction ∧ ¬(negative = true ∧ hr = 0 ∧ min = 1)) ∨
      maxTime < |iso.reading - (Zone.offset negative hr min).minutes * 60000|

/-! ### Fields -/

variable {tzOffset} {tm : Fields}

theorem njsTimeclip_eq (t : ℤ) : njsTimeclip t = clip t := by
  have hiff : maxTime < |t| ↔ t < -8640000000000000 ∨ 8640000000000000 < t := by
    rw [lt_abs, maxTime]
    omega
  rw [njsTimeclip, clip, if_congr hiff rfl rfl]

theorem year_in_range {d : Gregorian.Date} {c : ℤ} (hc : -86400000 ≤ c) (hc' : c ≤ 172800000)
    (ht : |d.number * 86400000 + c| ≤ maxTime) : ¬(d.year < minYear ∨ maxYear < d.year) := by
  obtain ⟨hlow, hhigh⟩ := d.in_year
  rw [abs_le, maxTime] at ht
  rintro (hyear | hyear)
  · have hstart := Gregorian.yearStart_le (show d.year + 1 ≤ minYear by omega)
    have hfirst : yearStart minYear = -100000109 := rfl
    omega
  · have hstart := Gregorian.yearStart_le (show maxYear + 1 ≤ d.year by omega)
    have hlast : yearStart (maxYear + 1) = 100000110 := rfl
    omega

theorem njsMakeDate_date {d : Gregorian.Date} (hyr : tm.yr = d.year) (hmon : tm.mon = d.month)
    (hday : tm.day = d.day) (hclock : -86400000 ≤ tm.clock) (hclock' : tm.clock ≤ 172800000)
    (isLocal : Bool) : njsMakeDate tzOffset tm isLocal =
      if maxTime < |d.number * 86400000 + tm.clock| then none
      else if isLocal then
        clip (d.number * 86400000 + tm.clock + tzOffset (d.number * 86400000 + tm.clock) * 60000)
      else clip (d.number * 86400000 + tm.clock) := by
  have hrange : (⟨d.year, d.month, d.day, 0, 0, 0, 0, 0⟩ : Fields).InRange := by
    refine ⟨Int.natCast_nonneg _, Int.ofNat_lt.2 d.month_lt, d.day_pos, d.day_le, ?_, ?_, ?_, ?_,
      ?_, ?_, ?_, ?_⟩ <;> norm_num
  have hmake := njsMakeDay_eq hrange
  have hdate : hrange.date = d := Gregorian.Date.ext rfl (Int.toNat_natCast _) rfl
  rw [hdate] at hmake
  rw [njsMakeDate, hyr, hmon, hday, hmake]
  have htime : ((tm.hr * 60 + tm.min) * 60 + tm.sec) * 1000 + tm.msec + d.number * 86400000 =
      d.number * 86400000 + tm.clock := Int.add_comm _ _
  generalize hreading : d.number * 86400000 + tm.clock = reading at htime ⊢
  have hyear : |reading| ≤ maxTime → ¬(d.year < minYear ∨ maxYear < d.year) := by
    rw [← hreading]
    exact year_in_range hclock hclock'
  by_cases hout : d.year < minYear ∨ maxYear < d.year
  · rw [if_pos hout, if_pos (not_le.1 fun hle => hyear hle hout)]
  have hiff : maxTime < |reading| ↔ reading < -8640000000000000 ∨ 8640000000000000 < reading := by
    rw [lt_abs, maxTime]
    omega
  rw [if_neg hout]
  dsimp only
  rw [htime, if_congr hiff.symm rfl rfl, njsTimeclip_eq]
  split_ifs <;> rfl

/-! ### Reading -/

theorem two_parse {n : ℕ} (hn : n < 100) (rest : Bytes) :
    njsDateNumberParse (two n ++ rest) 2 = some ((n : ℤ), rest) :=
  njsDateNumberParse_padded (by decide) (by norm_num) hn rest

variable {ds : List ℕ} {negative : Bool}

theorem text_ne_nil (h : ds ≠ []) : text ds ≠ [] := fun hnil =>
  h (List.map_eq_nil_iff.1 hnil)

theorem two_ne_nil (n : ℕ) : two n ≠ [] := by
  refine text_ne_nil fun hnil => ?_
  have hdigits := digits_ne_nil n
  rw [padded, List.append_eq_nil_iff] at hnil
  exact hdigits hnil.2

theorem digit_between {d : ℕ} (hd : d < 10) :
    chr '0' ≤ UInt8.ofNat (48 + d) ∧ UInt8.ofNat (48 + d) ≤ chr '9' := by
  have hnat : (UInt8.ofNat (48 + d)).toNat = 48 + d := by
    rw [UInt8.toNat_ofNat']
    omega
  rw [UInt8.le_iff_toNat_le, UInt8.le_iff_toNat_le, hnat, show (chr '0').toNat = 48 from rfl,
    show (chr '9').toNat = 57 from rfl]
  omega

theorem of_mem_text (hds : ∀ d ∈ ds, d < 10) {c : UInt8} (hc : c ∈ text ds) :
    chr '0' ≤ c ∧ c ≤ chr '9' := by
  obtain ⟨d, hd, rfl⟩ := List.mem_map.1 hc
  exact digit_between (hds d hd)

theorem of_mem_two {n : ℕ} {c : UInt8} (hc : c ∈ two n) : chr '0' ≤ c ∧ c ≤ chr '9' :=
  of_mem_text (fun _ => lt_of_mem_padded) hc

theorem not_digit_of_lt {c : UInt8} (hc : chr '9' < c ∨ c < chr '0') :
    ¬(chr '0' ≤ c ∧ c ≤ chr '9') := by
  rw [UInt8.lt_iff_toNat_lt, UInt8.lt_iff_toNat_lt] at hc
  rw [UInt8.le_iff_toNat_le, UInt8.le_iff_toNat_le]
  omega

theorem milliseconds_eq (hds : ∀ d ∈ ds, d < 10) (hne : ds ≠ []) :
    (if ds.length = 1 then (ofDigits (ds.take 3) : ℤ) * 100
      else if ds.length = 2 then (ofDigits (ds.take 3) : ℤ) * 10
      else ofDigits (ds.take 3)) = (ofDigits ds * 1000 / 10 ^ ds.length : ℕ) := by
  have hpos := List.length_pos_iff.2 hne
  by_cases hone : ds.length = 1
  · rw [if_pos hone, List.take_of_length_le (by omega), hone]
    omega
  rw [if_neg hone]
  by_cases htwo : ds.length = 2
  · rw [if_pos htwo, List.take_of_length_le (by omega), htwo]
    omega
  · rw [if_neg htwo, ofDigits_take hds]
    obtain ⟨k, hk⟩ : ∃ k, ds.length = k + 3 := ⟨ds.length - 3, by omega⟩
    rw [hk, Nat.add_sub_cancel, pow_add, show (1000 : ℕ) = 10 ^ 3 from rfl,
      Nat.mul_div_mul_right _ _ (by norm_num)]

theorem fraction_digits (hds : ∀ d ∈ ds, d < 10) {rest : Bytes}
    (hrest : ∀ c, rest.head? = some c → ¬(chr '0' ≤ c ∧ c ≤ chr '9')) :
    (text ds ++ rest).takeWhile (fun c => decide (chr '0' ≤ c ∧ c ≤ chr '9')) = text ds := by
  rw [List.takeWhile_append_of_pos fun c hc => decide_eq_true (of_mem_text hds hc)]
  obtain _ | ⟨c, rest⟩ := rest
  · rw [List.takeWhile_nil, List.append_nil]
  · rw [List.takeWhile_cons_of_neg (by simpa using hrest c rfl), List.append_nil]

theorem length_text (ds : List ℕ) : (text ds).length = ds.length := List.length_map _

theorem fractionParse_digits (hds : ∀ d ∈ ds, d < 10) (hne : ds ≠ []) {rest : Bytes}
    (hrest : ∀ c, rest.head? = some c → ¬(chr '0' ≤ c ∧ c ≤ chr '9')) (utc : Bool) :
    fractionParse tzOffset tm (chr '.' :: (text ds ++ rest)) utc =
      let tm := { tm with msec := (ofDigits ds * 1000 / 10 ^ ds.length : ℕ) }
      if rest = [] then njsMakeDate tzOffset tm (!utc)
      else if njsDateUtcOffsetParse rest = -1 then none
      else njsMakeDate tzOffset
        { tm with msec := tm.msec + -njsDateUtcOffsetParse rest * 60000 } false := by
  have hpos := List.length_pos_iff.2 hne
  have htake : (ds.take 3).length = min ds.length 3 := by
    rw [List.length_take, Nat.min_comm]
  have hparse : njsDateNumberParse (text ds ++ rest) (min ds.length 3) =
      some ((ofDigits (ds.take 3) : ℤ), text (ds.drop 3) ++ rest) := by
    have hfirst := @njsDateNumberParse_digits (ds.take 3)
      (fun d hd => hds d (List.mem_of_mem_take hd))
      (fun hnil => by rw [hnil, List.length_nil] at htake; omega)
      (by rw [htake]; omega) (text (ds.drop 3) ++ rest)
    rwa [← List.append_assoc, text, text, ← List.map_append, List.take_append_drop, htake]
      at hfirst
  rw [fractionParse, if_neg (List.cons_ne_nil _ _), List.head?_cons, if_neg (not_not.2 rfl),
    List.tail_cons]
  dsimp only
  rw [fraction_digits hds hrest, length_text, hparse]
  simp only [Option.bind_eq_bind, Option.bind_some]
  rw [milliseconds_eq hds hne, List.drop_left' (length_text ds)]

/-! ### The time of day -/

theorem length_two {n : ℕ} (hn : n < 100) : (two n).length = 2 := by
  rw [two, length_text, length_padded (by norm_num) hn]

theorem njsDateUtcOffsetParse_offset {hr min : ℕ} (hok : (Zone.offset negative hr min).Ok) :
    njsDateUtcOffsetParse (Zone.offset negative hr min).text =
      (Zone.offset negative hr min).minutes := by
  obtain ⟨hhr, hmin⟩ := hok
  have hlength : 2 < (two hr ++ chr ':' :: two min).length + 1 := by
    rw [List.length_append, length_two (by omega)]
    omega
  have hminutes := two_parse (n := min) (by omega) []
  rw [List.append_nil] at hminutes
  have hhours : ¬(hr : ℤ) > 23 := by omega
  have hminutes' : ¬(min : ℤ) > 59 := by omega
  obtain _ | _ := negative
  · rw [Zone.text, Zone.minutes, if_neg Bool.false_ne_true, if_neg Bool.false_ne_true,
      njsDateUtcOffsetParse, if_pos ⟨hlength, Or.inl rfl⟩, List.cons_append, List.tail_cons,
      two_parse (by omega)]
    dsimp only
    rw [if_neg hhours, List.head?_cons, if_pos rfl, List.tail_cons, hminutes]
    dsimp only
    rw [if_neg hminutes', List.head?_cons, if_neg (by decide)]
  rw [Zone.text, Zone.minutes, if_pos rfl, if_pos rfl, njsDateUtcOffsetParse,
    if_pos ⟨hlength, Or.inr rfl⟩, List.cons_append, List.tail_cons, two_parse (by omega)]
  dsimp only
  rw [if_neg hhours, List.head?_cons, if_pos rfl, List.tail_cons, hminutes]
  dsimp only
  rw [if_neg hminutes', List.head?_cons, if_pos rfl]

theorem head?_offset (negative : Bool) (hr min : ℕ) :
    (Zone.offset negative hr min).text.head? = some (if negative then chr '-' else chr '+') := rfl

def clockFields (tm : Fields) (c : Clock) : Fields :=
  { tm with hr := c.hr, min := c.min, sec := c.seconds }

namespace Clock

variable {clock : Clock}

theorem Ok.bounds (hok : clock.Ok) : clock.hr < 100 ∧ clock.min < 100 ∧ clock.seconds < 100 := by
  obtain ⟨htime, -, -⟩ := hok
  omega

def rest (c : Clock) : Bytes := fractionText (c.sec.bind Prod.snd)

end Clock

theorem njsDateTimeParse_text {clock : Clock} (hok : clock.Ok) (htm : tm.sec = 0) {rest : Bytes}
    (hrest : rest.head? ≠ some (chr ':')) :
    njsDateTimeParse tm (clock.text ++ rest) =
      if clock.sec = none ∧ rest ≠ [] then none
      else some (clockFields tm clock, clock.rest ++ rest) := by
  obtain ⟨hhr, hmin, hsec⟩ := hok.bounds
  obtain ⟨hr, min, sec⟩ := clock
  rw [njsDateTimeParse, Clock.text, List.append_assoc, List.append_assoc, two_parse hhr]
  simp only [Option.bind_eq_bind, Option.bind_some, Option.pure_def]
  rw [List.cons_append, List.head?_cons, if_neg (not_not.2 rfl), List.tail_cons, two_parse hmin,
    Option.bind_some]
  dsimp only
  obtain _ | ⟨s, fraction⟩ := sec
  · rw [Clock.secText, List.nil_append, Clock.rest]
    by_cases hnil : rest = []
    · rw [if_pos hnil, if_neg fun h => h.2 hnil, hnil, clockFields, Clock.seconds]
      simp only [Option.map_none, Option.getD_none, Nat.cast_zero, ← htm, Option.bind_none]
      rfl
    · rw [if_neg hnil, if_pos hrest, if_pos ⟨rfl, hnil⟩]
  · have hs : s < 100 := hsec
    rw [Clock.secText, List.append_assoc, List.cons_append, if_neg (List.cons_ne_nil _ _),
      List.head?_cons, if_neg (not_not.2 rfl), List.tail_cons, two_parse hs, Option.bind_some,
      if_neg fun h => Option.some_ne_none _ h.1]
    rfl

theorem getLast?_digits {ds : Bytes} (hne : ds ≠ []) (hds : ∀ c ∈ ds, chr '0' ≤ c ∧ c ≤ chr '9')
    (p : Bytes) : (p ++ ds).getLast? ≠ some (chr 'Z') := by
  rw [List.getLast?_append_of_ne_nil p hne]
  intro hlast
  exact not_digit_of_lt (Or.inl (by decide)) (hds _ (List.mem_of_getLast? hlast))

theorem getLast?_two {n : ℕ} (p : Bytes) : (p ++ two n).getLast? ≠ some (chr 'Z') :=
  getLast?_digits (two_ne_nil n) (fun _ => of_mem_two) p

theorem getLast?_clock {clock : Clock} (hok : clock.Ok) : clock.text.getLast? ≠ some (chr 'Z') := by
  obtain ⟨-, hdigits, hfraction⟩ := hok
  obtain ⟨hr, min, sec⟩ := clock
  rw [Clock.text]
  obtain _ | ⟨s, _ | ds⟩ := sec
  · rw [Clock.secText, List.append_nil, ← List.singleton_append, ← List.append_assoc]
    exact getLast?_two _
  · rw [Clock.secText, Clock.fractionText, List.append_nil, ← List.singleton_append (l := two s),
      ← List.append_assoc]
    exact getLast?_two _
  · rw [Clock.secText, Clock.fractionText, ← List.singleton_append (l := text ds),
      ← List.append_assoc, ← List.append_assoc]
    exact getLast?_digits (text_ne_nil (hfraction s ds rfl)) (fun _ => of_mem_text hdigits) _

theorem getLast?_offset {hr min : ℕ} (p : Bytes) :
    (p ++ (Zone.offset negative hr min).text).getLast? ≠ some (chr 'Z') := by
  rw [Zone.text, ← List.singleton_append (l := two min), ← List.append_assoc, ← List.append_assoc]
  exact getLast?_two _

def timeFields (tm : Fields) (c : Clock) : Fields :=
  { clockFields tm c with msec := c.milliseconds }

/-- The fields of a time of day in a zone that is ahead of UTC. -/
def offsetFields (tm : Fields) (c : Clock) (minutes : ℤ) : Fields :=
  { clockFields tm c with msec := c.milliseconds + -minutes * 60000 }

theorem timeFields_of_not_hasFraction {clock : Clock} (htm : tm.msec = 0)
    (hno : ¬clock.HasFraction) : timeFields tm clock = clockFields tm clock := by
  have hzero : clock.milliseconds = 0 := by
    rw [Clock.milliseconds, not_not.1 hno]
    rfl
  rw [timeFields, hzero, Nat.cast_zero, ← htm]
  rfl

theorem Clock.rest_of_hasFraction {clock : Clock} (hhas : clock.HasFraction) :
    clock.rest = chr '.' :: Date.text clock.digits := by
  obtain ⟨hr, min, _ | ⟨s, _ | ds⟩⟩ := clock
  · exact absurd rfl hhas
  · exact absurd rfl hhas
  · rfl

theorem Clock.rest_of_not_hasFraction {clock : Clock} (hok : clock.Ok)
    (hno : ¬clock.HasFraction) : clock.rest = [] := by
  obtain ⟨hr, min, _ | ⟨s, _ | ds⟩⟩ := clock
  · rfl
  · rfl
  · exact absurd (not_not.1 hno) (hok.fraction s ds rfl)

theorem fractionParse_rest {clock : Clock} (hok : clock.Ok) (htm : tm.msec = 0) (utc : Bool) :
    fractionParse tzOffset (clockFields tm clock) (clock.rest ++ []) utc =
      njsMakeDate tzOffset (timeFields tm clock) (!utc) := by
  have hnil : ∀ c, ([] : Bytes).head? = some c → ¬(chr '0' ≤ c ∧ c ≤ chr '9') := fun c hc =>
    absurd hc.symm (Option.some_ne_none c)
  by_cases hhas : clock.HasFraction
  · rw [Clock.rest_of_hasFraction hhas, List.cons_append, fractionParse_digits hok.digits hhas hnil]
    exact if_pos rfl
  · rw [Clock.rest_of_not_hasFraction hok hhas, timeFields_of_not_hasFraction htm hhas]
    exact if_pos rfl

theorem fractionParse_offset {clock : Clock} (hok : clock.Ok) {hr min : ℕ}
    (hzone : (Zone.offset negative hr min).Ok) :
    fractionParse tzOffset (clockFields tm clock)
        (clock.rest ++ (Zone.offset negative hr min).text) false =
      if clock.HasFraction ∧ (Zone.offset negative hr min).minutes ≠ -1 then
        njsMakeDate tzOffset (offsetFields tm clock (Zone.offset negative hr min).minutes) false
      else none := by
  have hhead := head?_offset negative hr min
  have hne : (Zone.offset negative hr min).text ≠ [] := List.cons_ne_nil _ _
  by_cases hhas : clock.HasFraction
  · have hdigit : ∀ c, (Zone.offset negative hr min).text.head? = some c →
        ¬(chr '0' ≤ c ∧ c ≤ chr '9') := by
      rintro c hc
      obtain rfl := Option.some.inj (hhead.symm.trans hc)
      refine not_digit_of_lt (Or.inr ?_)
      obtain _ | _ := negative <;> decide
    rw [Clock.rest_of_hasFraction hhas, List.cons_append,
      fractionParse_digits hok.digits hhas hdigit]
    dsimp only
    rw [if_neg hne, njsDateUtcOffsetParse_offset hzone]
    by_cases hminus : (Zone.offset negative hr min).minutes = -1
    · rw [if_pos hminus, if_neg fun h => h.2 hminus]
    · rw [if_neg hminus, if_pos ⟨hhas, hminus⟩]
      rfl
  · have hdot : (Zone.offset negative hr min).text.head? ≠ some (chr '.') := by
      rw [hhead]
      obtain _ | _ := negative <;> decide
    rw [if_neg fun h => hhas h.1, Clock.rest_of_not_hasFraction hok hhas, List.nil_append,
      fractionParse, if_neg hne, if_pos hdot]

def timeResult (tzOffset : ℤ → ℤ) (tm : Fields) (clock : Clock) : Zone → Option ℤ
  | .unnamed => njsMakeDate tzOffset (timeFields tm clock) true
  | .utc => njsMakeDate tzOffset (timeFields tm clock) false
  | .offset negative hr min =>
    if clock.HasFraction ∧ (Zone.offset negative hr min).minutes ≠ -1 then
      njsMakeDate tzOffset (offsetFields tm clock (Zone.offset negative hr min).minutes) false
    else none

theorem timeParse_text {clock : Clock} {zone : Zone} (hok : clock.Ok) (hzone : zone.Ok)
    (hsec : tm.sec = 0) (hmsec : tm.msec = 0) :
    timeParse tzOffset tm (clock.text ++ zone.text) = timeResult tzOffset tm clock zone := by
  have hend : njsDateTimeParse tm (clock.text ++ []) =
      some (clockFields tm clock, clock.rest ++ []) := by
    have hnil : ([] : Bytes).head? ≠ some (chr ':') := (Option.some_ne_none _).symm
    rw [njsDateTimeParse_text hok hsec hnil, if_neg fun h => h.2 rfl]
  rw [timeParse]
  obtain _ | _ | ⟨negative, hr, min⟩ := zone
  · rw [Zone.text, if_neg (by rw [List.append_nil]; exact getLast?_clock hok)]
    dsimp only
    rw [hend]
    exact fractionParse_rest hok hmsec false
  · rw [Zone.text, if_pos List.getLast?_concat, List.dropLast_concat]
    dsimp only
    rw [← List.append_nil clock.text, hend]
    exact fractionParse_rest hok hmsec true
  have hcolon : (Zone.offset negative hr min).text.head? ≠ some (chr ':') := by
    rw [head?_offset]
    obtain _ | _ := negative <;> decide
  rw [if_neg (getLast?_offset _)]
  dsimp only
  rw [njsDateTimeParse_text hok hsec hcolon]
  by_cases hnone : clock.sec = none
  · have hno : ¬clock.HasFraction := by
      rw [Clock.HasFraction, Clock.digits, hnone]
      exact not_not.2 rfl
    rw [if_pos ⟨hnone, List.cons_ne_nil _ _⟩, timeResult, if_neg fun h => hno h.1]
    rfl
  · rw [if_neg fun h => hnone h.1]
    exact fractionParse_offset hok hzone

/-! ### The date -/

theorem dayParse_time {p : Bytes} : dayParse tzOffset tm (chr 'T' :: p) = none :=
  if_pos (by rw [List.head?_cons]; decide)

theorem dayParse_month {m : ℕ} (hm : m < 100) (rest : Bytes) :
    dayParse tzOffset tm (chr '-' :: (two m ++ rest)) =
      if rest = [] then njsMakeDate tzOffset { tm with mon := m - 1 } false
      else if rest.head? ≠ some (chr '-') then none
      else (njsDateNumberParse rest.tail 2).bind fun (day, p) =>
        if p = [] then njsMakeDate tzOffset { tm with mon := m - 1, day := day } false
        else if p.head? ≠ some (chr 'T') then none
        else timeParse tzOffset { tm with mon := m - 1, day := day } p.tail := by
  rw [dayParse, List.head?_cons, if_neg (not_not.2 rfl), List.tail_cons, two_parse hm]
  rfl

theorem dayParse_day {m d : ℕ} (hm : m < 100) (hd : d < 100) (rest : Bytes) :
    dayParse tzOffset tm (chr '-' :: (two m ++ chr '-' :: (two d ++ rest))) =
      if rest = [] then njsMakeDate tzOffset { tm with mon := m - 1, day := d } false
      else if rest.head? ≠ some (chr 'T') then none
      else timeParse tzOffset { tm with mon := m - 1, day := d } rest.tail := by
  rw [dayParse_month hm, if_neg (List.cons_ne_nil _ _), List.head?_cons, if_neg (not_not.2 rfl),
    List.tail_cons, two_parse hd]
  rfl

theorem text_append (ds es : List ℕ) : text (ds ++ es) = text ds ++ text es := List.map_append

theorem njsDateNumberParse_time (p : Bytes) (size : ℕ) :
    njsDateNumberParse (chr 'T' :: p) size = none := njsDateNumberParse_other (by decide) p size

theorem sign_of_digits (hds : ∀ d ∈ ds, d < 10) (rest : Bytes) (hne : ds ≠ []) :
    (text ds ++ rest).head? ≠ some (chr '+') ∧ (text ds ++ rest).head? ≠ some (chr '-') := by
  obtain _ | ⟨d, ds⟩ := ds
  · exact absurd rfl hne
  have hdigit := digit_between (hds d List.mem_cons_self)
  constructor <;>
  · intro hhead
    rw [text, List.map_cons, List.cons_append, List.head?_cons] at hhead
    rw [Option.some.inj hhead] at hdigit
    exact not_digit_of_lt (Or.inr (by decide)) hdigit

theorem njsDateStringParse_unsigned {string next : Bytes} {yr : ℤ} (hne : string ≠ [])
    (hsign : string.head? ≠ some (chr '+') ∧ string.head? ≠ some (chr '-'))
    (hparse : njsDateNumberParse string 4 = some (yr, next)) :
    njsDateStringParse tzOffset string = isoParse tzOffset string yr next := by
  rw [njsDateStringParse, if_neg hne]
  dsimp only
  rw [decide_eq_false (not_or.2 hsign), if_neg Bool.false_ne_true, hparse]

theorem njsDateStringParse_signed {string next : Bytes} {yr : ℤ} (hne : string ≠ [])
    (hsign : string.head? = some (chr '+') ∨ string.head? = some (chr '-'))
    (hparse : njsDateNumberParse string.tail 4 = some (yr, next)) :
    njsDateStringParse tzOffset string = isoParse tzOffset string yr next := by
  rw [njsDateStringParse, if_neg hne]
  dsimp only
  rw [decide_eq_true hsign, if_pos rfl, hparse]

def afterYear (tzOffset : ℤ → ℤ) (yr : ℤ) (rest : Bytes) : Option ℤ :=
  if rest = [] then njsMakeDate tzOffset { initial with yr := yr } false
  else dayParse tzOffset { initial with yr := yr } rest

theorem padded_ne_nil {w n : ℕ} (hw : 0 < w) (hn : n < 10 ^ w) : padded w n ≠ [] := by
  intro hnil
  have hlength := length_padded hw hn
  rw [hnil, List.length_nil] at hlength
  omega

theorem njsDateStringParse_four {y : ℕ} (hy : (Year.four y).Ok) {rest : Bytes}
    (hrest : rest = [] ∨ rest.head? = some (chr '-') ∨ rest.head? = some (chr 'T')) :
    njsDateStringParse tzOffset ((Year.four y).text ++ rest) = afterYear tzOffset y rest := by
  have hne := padded_ne_nil (by norm_num) hy
  rw [Year.text, njsDateStringParse_unsigned
      (fun hnil => text_ne_nil hne (List.append_eq_nil_iff.1 hnil).1)
      (sign_of_digits (fun _ => lt_of_mem_padded) rest hne)
      (njsDateNumberParse_padded (by norm_num) (by norm_num) hy rest), isoParse, afterYear]
  obtain rfl | hrest | hrest := hrest
  · rfl
  · rw [hrest, if_neg (not_not.2 rfl)]
  obtain _ | ⟨c, p⟩ := rest
  · exact absurd hrest.symm (Option.some_ne_none _)
  · obtain rfl := Option.some.inj hrest
    rw [if_neg (List.cons_ne_nil _ _), if_neg (List.cons_ne_nil _ _), List.head?_cons,
      if_pos (by decide), njsDateNumberParse_time, dayParse_time]
    exact Option.bind_none _

theorem njsDateStringParse_six {y : ℕ} (hy : (Year.six negative y).Ok) (rest : Bytes) :
    njsDateStringParse tzOffset ((Year.six negative y).text ++ rest) =
      afterYear tzOffset (Year.six negative y).value rest := by
  obtain ⟨hy, hzero⟩ := hy
  generalize hds : padded 6 y = ds
  have hlength : ds.length = 6 := by
    rw [← hds, length_padded (by norm_num) hy]
  have hdigits : ∀ d ∈ ds, d < 10 := by
    rw [← hds]
    exact fun _ => lt_of_mem_padded
  have hfront : (ds.take 4).length = 4 := by
    rw [List.length_take]
    omega
  have hback : (ds.drop 4).length = 2 := by
    rw [List.length_drop]
    omega
  have hvalue : ofDigits (ds.take 4) * 100 + ofDigits (ds.drop 4) = y := by
    have happend := ofDigits_append (ds.take 4) (ds.drop 4)
    rw [List.take_append_drop, ← hds, ofDigits_padded, hds, hback] at happend
    omega
  have hfour : njsDateNumberParse (text ds ++ rest) 4 =
      some ((ofDigits (ds.take 4) : ℤ), text (ds.drop 4) ++ rest) := by
    have hparse := njsDateNumberParse_digits (fun d hd => hdigits d (List.mem_of_mem_take hd))
      (List.ne_nil_of_length_eq_add_one hfront) (by omega) (text (ds.drop 4) ++ rest)
    rwa [← List.append_assoc, ← text_append, List.take_append_drop, hfront] at hparse
  have hext : njsDateNumberParse (text (ds.drop 4) ++ rest) 2 =
      some ((ofDigits (ds.drop 4) : ℤ), rest) := by
    have hparse := njsDateNumberParse_digits (fun d hd => hdigits d (List.mem_of_mem_drop hd))
      (List.ne_nil_of_length_eq_add_one hback) (by omega) rest
    rwa [hback] at hparse
  have hnext : text (ds.drop 4) ++ rest ≠ [] := fun hnil =>
    text_ne_nil (List.ne_nil_of_length_eq_add_one hback) (List.append_eq_nil_iff.1 hnil).1
  have hminus := (sign_of_digits (fun d hd => hdigits d (List.mem_of_mem_drop hd)) rest
    (List.ne_nil_of_length_eq_add_one hback)).2
  have hyear : (ofDigits (ds.take 4) : ℤ) * 100 + ofDigits (ds.drop 4) = y := by
    exact_mod_cast hvalue
  have hsign : (if negative then chr '-' else chr '+') = chr '+' ∨
      (if negative then chr '-' else chr '+') = chr '-' := by
    obtain _ | _ := negative
    · exact Or.inl rfl
    · exact Or.inr rfl
  rw [Year.text, hds, List.cons_append, njsDateStringParse_signed (List.cons_ne_nil _ _)
      (hsign.imp (congrArg some) (congrArg some)) hfour]
  rw [isoParse, if_neg hnext, if_pos hminus, hext]
  simp only [Option.bind_eq_bind, Option.bind_some]
  rw [hyear, List.head?_cons, afterYear, Year.value]
  obtain _ | _ := negative
  · have hplus : ¬some (if false = true then chr '-' else chr '+') = some (chr '-') := by decide
    rw [if_neg fun h => hplus h.1, if_neg hplus, if_neg Bool.false_ne_true]
  · have hpos : ¬(y : ℤ) = 0 := by exact_mod_cast hzero rfl
    rw [if_neg fun h => hpos h.2, if_pos rfl]
    rfl

theorem njsDateStringParse_year {y : Year} (hy : y.Ok) {rest : Bytes}
    (hrest : rest = [] ∨ rest.head? = some (chr '-') ∨ rest.head? = some (chr 'T')) :
    njsDateStringParse tzOffset (y.text ++ rest) = afterYear tzOffset y.value rest := by
  obtain y | ⟨negative, y⟩ := y
  · exact njsDateStringParse_four hy hrest
  · exact njsDateStringParse_six hy rest

/-! ### The string -/

def dateFields : IsoDate → Fields
  | .year y => { initial with yr := y.value }
  | .month y m => { initial with yr := y.value, mon := m - 1 }
  | .day y m d => { initial with yr := y.value, mon := m - 1, day := d }

theorem dateFields_date {date : IsoDate} (hok : date.Ok) :
    ∃ d : Gregorian.Date, (dateFields date).yr = d.year ∧ (dateFields date).mon = d.month ∧
      (dateFields date).day = d.day ∧ d.number = date.number := by
  have hlast (y : ℤ) (m : ℕ) : 1 ≤ monthLength y m := Gregorian.monthLength_pos y m
  obtain y | ⟨y, m⟩ | ⟨y, m, d⟩ := date
  · refine ⟨⟨y.value, 0, 1, by norm_num, by norm_num, hlast _ _⟩, rfl, rfl, rfl, ?_⟩
    rw [Gregorian.Date.number, IsoDate.number, monthStart]
    ring
  · obtain ⟨-, hm, hm'⟩ := hok
    refine ⟨⟨y.value, m - 1, 1, by omega, by norm_num, hlast _ _⟩, rfl, ?_, rfl, ?_⟩
    · exact (Int.ofNat_sub hm).symm
    · rw [Gregorian.Date.number, IsoDate.number]
      ring
  · obtain ⟨-, ⟨hm, hm'⟩, hd, hd'⟩ := hok
    refine ⟨⟨y.value, m - 1, d, by omega, by exact_mod_cast hd, hd'⟩, rfl, ?_, rfl, rfl⟩
    exact (Int.ofNat_sub hm).symm

theorem monthLength_lt (y : ℤ) (m : ℕ) : monthLength y m < 100 := by
  rw [monthLength]
  split_ifs <;> norm_num

theorem ofDigits_zero (hds : ∀ d ∈ ds, d = 0) : ofDigits ds = 0 := by
  rw [List.eq_replicate_of_mem hds, ofDigits_replicate_zero]

namespace Clock

variable {clock : Clock}

theorem Ok.milliseconds_lt (hok : clock.Ok) : clock.milliseconds < 1000 := by
  rw [milliseconds, Nat.div_lt_iff_lt_mul (Nat.pow_pos (by norm_num)), Nat.mul_comm]
  exact Nat.mul_lt_mul_of_pos_left (ofDigits_lt hok.digits) (by norm_num)

theorem value_nonneg (clock : Clock) : 0 ≤ clock.value := by
  rw [value]
  omega

theorem Ok.value_le (hok : clock.Ok) : clock.value ≤ 86400000 := by
  have hlt := hok.milliseconds_lt
  rw [value]
  obtain ⟨hhr, hmin, hsec⟩ | ⟨hhr, hmin, hsec, hzero⟩ := hok.time
  · omega
  · have hnone : clock.milliseconds = 0 := by
      rw [milliseconds, ofDigits_zero hzero, zero_mul, Nat.zero_div]
    omega

end Clock

theorem clip_of_le {t : ℤ} (ht : |t| ≤ maxTime) : clip t = some t := if_neg (not_lt.2 ht)

theorem clip_of_lt {t : ℤ} (ht : maxTime < |t|) : clip t = none := if_pos ht

theorem clip_twice (t : ℤ) : (if maxTime < |t| then none else clip t) = clip t := by
  by_cases ht : maxTime < |t|
  · rw [if_pos ht, clip_of_lt ht]
  · rw [if_neg ht]

theorem njsMakeDate_utc (tm : Fields) {date : IsoDate} (hok : date.Ok)
    (hyr : tm.yr = (dateFields date).yr) (hmon : tm.mon = (dateFields date).mon)
    (hday : tm.day = (dateFields date).day) (hclock : -86400000 ≤ tm.clock)
    (hclock' : tm.clock ≤ 172800000) :
    njsMakeDate tzOffset tm false = clip (date.number * 86400000 + tm.clock) := by
  obtain ⟨d, hd, hd', hd'', hnumber⟩ := dateFields_date hok
  rw [njsMakeDate_date (hyr.trans hd) (hmon.trans hd') (hday.trans hd'') hclock hclock', hnumber,
    if_neg Bool.false_ne_true, clip_twice]

theorem njsMakeDate_local (tm : Fields) {date : IsoDate} (hok : date.Ok)
    (hyr : tm.yr = (dateFields date).yr) (hmon : tm.mon = (dateFields date).mon)
    (hday : tm.day = (dateFields date).day) (hclock : -86400000 ≤ tm.clock)
    (hclock' : tm.clock ≤ 172800000) :
    njsMakeDate tzOffset tm true =
      if maxTime < |date.number * 86400000 + tm.clock| then none
      else clip (date.number * 86400000 + tm.clock +
        tzOffset (date.number * 86400000 + tm.clock) * 60000) := by
  obtain ⟨d, hd, hd', hd'', hnumber⟩ := dateFields_date hok
  rw [njsMakeDate_date (hyr.trans hd) (hmon.trans hd') (hday.trans hd'') hclock hclock', hnumber]
  rfl

theorem njsDateStringParse_date {date : IsoDate} (hok : date.Ok) :
    njsDateStringParse tzOffset date.text = njsMakeDate tzOffset (dateFields date) false := by
  obtain y | ⟨y, m⟩ | ⟨y, m, d⟩ := date
  · have hyear := @njsDateStringParse_year tzOffset y hok [] (Or.inl rfl)
    rw [List.append_nil] at hyear
    exact hyear
  · obtain ⟨hy, hm⟩ := hok
    have hmonth := @dayParse_month tzOffset { initial with yr := y.value } m (by omega) []
    rw [List.append_nil] at hmonth
    rw [IsoDate.text, njsDateStringParse_year hy (Or.inr (Or.inl rfl)), afterYear,
      if_neg (List.cons_ne_nil _ _), hmonth]
    rfl
  · obtain ⟨hy, hm, hd, hd'⟩ := hok
    have hlast := monthLength_lt y.value (m - 1)
    have hday := @dayParse_day tzOffset { initial with yr := y.value } m d (by omega) (by omega) []
    rw [List.append_nil] at hday
    rw [IsoDate.text, List.append_assoc, njsDateStringParse_year hy (Or.inr (Or.inl rfl)),
      afterYear, List.cons_append, if_neg (List.cons_ne_nil _ _), hday]
    rfl

theorem njsDateStringParse_time {date : IsoDate} (hok : date.Ok) (p : Bytes) :
    njsDateStringParse tzOffset (date.text ++ chr 'T' :: p) =
      if date.IsDay then timeParse tzOffset (dateFields date) p else none := by
  obtain y | ⟨y, m⟩ | ⟨y, m, d⟩ := date
  · have hno : ¬(IsoDate.year y).IsDay := id
    rw [IsoDate.text, njsDateStringParse_year hok (Or.inr (Or.inr rfl)), afterYear,
      if_neg (List.cons_ne_nil _ _), dayParse_time, if_neg hno]
  · obtain ⟨hy, hm⟩ := hok
    have hno : ¬(IsoDate.month y m).IsDay := id
    rw [IsoDate.text, List.append_assoc, List.cons_append,
      njsDateStringParse_year hy (Or.inr (Or.inl rfl)), afterYear, if_neg (List.cons_ne_nil _ _),
      dayParse_month (by omega), if_neg (List.cons_ne_nil _ _), List.head?_cons,
      if_pos (by decide), if_neg hno]
  obtain ⟨hy, hm, hd, hd'⟩ := hok
  have hlast := monthLength_lt y.value (m - 1)
  have hday : (IsoDate.day y m d).IsDay := trivial
  rw [IsoDate.text, List.append_assoc, List.append_assoc, List.cons_append, List.cons_append,
    njsDateStringParse_year hy (Or.inr (Or.inl rfl)), afterYear, if_neg (List.cons_ne_nil _ _),
    dayParse_day (by omega) (by omega), if_neg (List.cons_ne_nil _ _), List.head?_cons,
    if_neg (not_not.2 rfl), if_pos hday]
  rfl

theorem timeFields_clock (date : IsoDate) (clock : Clock) :
    (timeFields (dateFields date) clock).clock = clock.value := rfl

theorem offsetFields_clock (date : IsoDate) (clock : Clock) (minutes : ℤ) :
    (offsetFields (dateFields date) clock minutes).clock = clock.value - minutes * 60000 := by
  rw [Fields.clock, Clock.value]
  dsimp only [offsetFields, clockFields]
  ring

theorem dateFields_time (date : IsoDate) :
    (dateFields date).sec = 0 ∧ (dateFields date).msec = 0 ∧ (dateFields date).clock = 0 := by
  obtain y | ⟨y, m⟩ | ⟨y, m, d⟩ := date <;> exact ⟨rfl, rfl, rfl⟩

theorem Zone.Ok.minutes_lt {zone : Zone} (hok : zone.Ok) :
    -1440 < zone.minutes ∧ zone.minutes < 1440 := by
  obtain _ | _ | ⟨negative, hr, min⟩ := zone
  · exact ⟨by norm_num [minutes], by norm_num [minutes]⟩
  · exact ⟨by norm_num [minutes], by norm_num [minutes]⟩
  · obtain ⟨hhr, hmin⟩ := hok
    rw [minutes]
    split_ifs <;> constructor <;> omega

theorem njsDateStringParse_text {iso : Iso} (hok : iso.Ok) :
    njsDateStringParse tzOffset iso.text = iso.result tzOffset := by
  obtain ⟨hdate, htime⟩ := hok
  obtain ⟨date, _ | ⟨clock, zone⟩⟩ := iso
  · have hclock := (dateFields_time date).2.2
    rw [Iso.text, Iso.result, njsDateStringParse_date hdate, njsMakeDate_utc _ hdate rfl rfl rfl
      (by rw [hclock]; norm_num) (by rw [hclock]; norm_num), hclock]
    rfl
  obtain ⟨hclock, hzone⟩ := htime clock zone rfl
  obtain ⟨hsec, hmsec, -⟩ := dateFields_time date
  have hvalue := timeFields_clock date clock
  have hle := hclock.value_le
  have hnonneg := clock.value_nonneg
  rw [Iso.text, Iso.result, njsDateStringParse_time hdate]
  dsimp only
  by_cases hday : date.IsDay
  · rw [if_pos hday, if_pos hday, timeParse_text hclock hzone hsec hmsec]
    obtain _ | _ | ⟨negative, hr, min⟩ := zone
    · rw [timeResult, njsMakeDate_local (timeFields (dateFields date) clock) hdate rfl rfl rfl
        (by omega) (by omega), hvalue]
      rfl
    · rw [timeResult, njsMakeDate_utc (timeFields (dateFields date) clock) hdate rfl rfl rfl
        (by omega) (by omega), hvalue]
      rfl
    rw [timeResult]
    dsimp only
    by_cases hread : clock.HasFraction ∧ (Zone.offset negative hr min).minutes ≠ -1
    · obtain ⟨hlow, hhigh⟩ := hzone.minutes_lt
      have hshift := offsetFields_clock date clock (Zone.offset negative hr min).minutes
      rw [if_pos hread, if_pos hread, njsMakeDate_utc (offsetFields (dateFields date) clock _)
        hdate rfl rfl rfl (by omega) (by omega), hshift, ← Int.add_sub_assoc]
      rfl
    · rw [if_neg hread, if_neg hread]
  · rw [if_neg hday, if_neg hday]

/-! ### The strings that are read as they should be -/

theorem clip_eq_none_iff {t : ℤ} : clip t = none ↔ maxTime < |t| := by
  by_cases ht : maxTime < |t|
  · exact iff_of_true (clip_of_lt ht) ht
  · exact iff_of_false (by rw [clip, if_neg ht]; exact Option.some_ne_none _) ht

theorem clip_eq_clip_iff {s t : ℤ} : clip s = clip t ↔ s = t ∨ (maxTime < |s| ∧ maxTime < |t|) := by
  by_cases hs : maxTime < |s|
  · rw [clip_of_lt hs, eq_comm, clip_eq_none_iff]
    refine ⟨fun ht => Or.inr ⟨hs, ht⟩, ?_⟩
    rintro (rfl | ⟨-, ht⟩)
    · exact hs
    · exact ht
  by_cases ht : maxTime < |t|
  · rw [clip_of_lt ht, clip_eq_none_iff]
    refine iff_of_false hs ?_
    rintro (rfl | ⟨hs', -⟩)
    · exact hs ht
    · exact hs hs'
  · rw [clip_of_le (not_lt.1 hs), clip_of_le (not_lt.1 ht), Option.some_inj]
    exact ⟨Or.inl, fun h => h.resolve_right fun h' => hs h'.1⟩

theorem minutes_ne_iff {hr min : ℕ} :
    (Zone.offset negative hr min).minutes ≠ -1 ↔ ¬(negative = true ∧ hr = 0 ∧ min = 1) := by
  rw [Zone.minutes]
  obtain _ | _ := negative
  · rw [if_neg Bool.false_ne_true]
    exact iff_of_true (by omega) fun h => Bool.false_ne_true h.1
  rw [if_pos rfl, not_iff_not]
  constructor
  · intro h
    exact ⟨rfl, by omega, by omega⟩
  · rintro ⟨-, rfl, rfl⟩
    rfl

/-- Just these strings have the time value that is returned. -/
theorem denotes_iff {iso : Iso} (hok : iso.Ok) :
    iso.Denotes tzOffset (njsDateStringParse tzOffset iso.text) ↔ iso.Reads tzOffset := by
  rw [njsDateStringParse_text hok]
  obtain ⟨date, _ | ⟨clock, _ | _ | ⟨negative, hr, min⟩⟩⟩ := iso
  · exact iff_of_true rfl trivial
  · rw [Iso.Denotes, Iso.Reads, Iso.result]
    dsimp only
    generalize Iso.reading ⟨date, some (clock, Zone.unnamed)⟩ = reading
    refine exists_congr fun u => and_congr_right fun _ => ?_
    by_cases hday : date.IsDay
    · rw [if_pos hday]
      by_cases hreading : maxTime < |reading|
      · rw [if_pos hreading, eq_comm, clip_eq_none_iff]
        refine ⟨fun h => Or.inr ⟨h, fun _ hle => absurd hreading (not_lt.2 hle)⟩, ?_⟩
        rintro (⟨-, hle, -⟩ | ⟨h, -⟩)
        · exact absurd hreading (not_lt.2 hle)
        · exact h
      have hle := not_lt.1 hreading
      rw [if_neg hreading, clip_eq_clip_iff]
      constructor
      · rintro (heq | ⟨hout, hout'⟩)
        · exact Or.inl ⟨hday, hle, by omega⟩
        · exact Or.inr ⟨hout', fun _ _ => hout⟩
      · rintro (⟨-, -, heq⟩ | ⟨hout, hout'⟩)
        · rw [heq]
          exact Or.inl rfl
        · exact Or.inr ⟨hout' hday hle, hout⟩
    · rw [if_neg hday, eq_comm, clip_eq_none_iff]
      refine ⟨fun h => Or.inr ⟨h, fun hday' => absurd hday' hday⟩, ?_⟩
      rintro (⟨hday', -⟩ | ⟨h, -⟩)
      · exact absurd hday' hday
      · exact h
  · rw [Iso.Denotes, Iso.Reads, Iso.result]
    dsimp only
    rw [show Zone.utc.minutes = 0 from rfl, zero_mul, sub_zero]
    by_cases hday : date.IsDay
    · rw [if_pos hday]
      exact iff_of_true rfl (Or.inl hday)
    · rw [if_neg hday, eq_comm, clip_eq_none_iff, or_iff_right hday]
  · rw [Iso.Denotes, Iso.Reads, Iso.result]
    dsimp only
    rw [← minutes_ne_iff]
    by_cases hday : date.IsDay
    · rw [if_pos hday]
      by_cases hread : clock.HasFraction ∧ (Zone.offset negative hr min).minutes ≠ -1
      · rw [if_pos hread]
        exact iff_of_true rfl (Or.inl ⟨hday, hread⟩)
      · rw [if_neg hread, eq_comm, clip_eq_none_iff, or_iff_right fun h => hread h.2]
    · rw [if_neg hday, eq_comm, clip_eq_none_iff, or_iff_right fun h => hday h.1]

/-- The string `2011-06-24T06:01:02.625+01:15`. -/
def withFraction : Iso :=
  ⟨.day (.four 2011) 6 24, some (⟨6, 1, some (2, some [6, 2, 5])⟩, .offset false 1 15)⟩

/-- The string `2011-06-24T06:01:02+01:15`. -/
def withoutFraction : Iso :=
  ⟨.day (.four 2011) 6 24, some (⟨6, 1, some (2, none)⟩, .offset false 1 15)⟩

theorem day_ok : (IsoDate.day (.four 2011) 6 24).Ok := by
  refine ⟨?_, ?_, ?_, ?_⟩
  · exact Nat.lt_of_sub_pos (Nat.zero_lt_succ _)
  · exact ⟨by norm_num, by norm_num⟩
  · norm_num
  · exact (by norm_num : (24 : ℤ) ≤ 30)

theorem withFraction_ok : withFraction.Ok where
  date := day_ok
  time clock zone htime := by
    obtain ⟨rfl, rfl⟩ := Prod.mk.inj (Option.some.inj htime)
    refine ⟨⟨Or.inl ⟨by norm_num, by norm_num, by decide⟩, by decide, ?_⟩, by norm_num, by norm_num⟩
    rintro s ds hsec
    obtain ⟨-, hds⟩ := Prod.mk.inj (Option.some.inj hsec)
    rw [← Option.some.inj hds]
    exact List.cons_ne_nil _ _

theorem withoutFraction_ok : withoutFraction.Ok where
  date := day_ok
  time clock zone htime := by
    obtain ⟨rfl, rfl⟩ := Prod.mk.inj (Option.some.inj htime)
    refine ⟨⟨Or.inl ⟨by norm_num, by norm_num, by decide⟩, ?_, ?_⟩, by norm_num, by norm_num⟩
    · exact fun d hd => absurd hd List.not_mem_nil
    · rintro s ds hsec
      exact absurd (Prod.mk.inj (Option.some.inj hsec)).2.symm (Option.some_ne_none _)

theorem denotes_withFraction :
    withFraction.Denotes (fun _ => 0) (njsDateStringParse (fun _ => 0) withFraction.text) :=
  (denotes_iff withFraction_ok).2
    (Or.inl ⟨trivial, List.cons_ne_nil _ _, fun h => Bool.false_ne_true h.1⟩)

theorem not_denotes_withoutFraction : withoutFraction.Ok ∧ ¬withoutFraction.Denotes (fun _ => 0)
      (njsDateStringParse (fun _ => 0) withoutFraction.text) := by
  refine ⟨withoutFraction_ok, ?_⟩
  have hreading : clip (withoutFraction.reading - 75 * 60000) = some 1308890762000 := by decide
  have hnone : withoutFraction.result (fun _ => 0) = none := rfl
  rw [njsDateStringParse_text withoutFraction_ok, hnone]
  exact fun h => Option.some_ne_none _ (hreading.symm.trans h.symm)

end Njs.Date
