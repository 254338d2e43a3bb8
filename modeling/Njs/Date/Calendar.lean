import Mathlib.Algebra.Order.Group.Abs
import Mathlib.Algebra.Order.Group.Int
import Njs.Lib.Gregorian

/-!
# Time values and calendar fields

A date is kept as milliseconds since 1970. The year is estimated from the days and corrected in
steps of one.
-/

namespace Njs.Date

open Gregorian (yearStart yearLength monthStart monthLength)

/-! ### The code -/

def njsMod (a b : ℤ) : ℤ :=
  let m := a.tmod b
  m + (if m < 0 then 1 else 0) * b

def njsFloorDiv (a b : ℤ) : ℤ :=
  let m := a.tmod b
  (a - (m + (if m < 0 then 1 else 0) * b)).tdiv b

/-- `njs_timeclip`, of a whole number of milliseconds. Not a number is none. -/
def njsTimeclip (time : ℤ) : Option ℤ :=
  if time < -8640000000000000 ∨ 8640000000000000 < time then none else some time

def njsDaysInYear (y : ℤ) : ℤ :=
  365 + (if y.tmod 4 = 0 then 1 else 0) - (if y.tmod 100 = 0 then 1 else 0) +
    if y.tmod 400 = 0 then 1 else 0

def njsDaysFromYear (y : ℤ) : ℤ :=
  365 * (y - 1970) + njsFloorDiv (y - 1969) 4 - njsFloorDiv (y - 1901) 100 +
    njsFloorDiv (y - 1601) 400

/-- The table `month_days`, of which `njs_make_day` and `njs_destruct_date` each have a copy. -/
def monthDays : List ℤ := [31, 28, 31, 30, 31, 30, 31, 31, 30, 31, 30, 31]

def minYear : ℤ := -271821

def maxYear : ℤ := 275760

/-- `njs_make_day`. Numbers of days are exact in floating point. -/
def njsMakeDay (yr month date : ℤ) : Option ℤ :=
  if yr < minYear ∨ maxYear < yr ∨ month < minYear * 12 ∨ maxYear * 12 < month ∨
      date < minYear * 12 * 366 ∨ maxYear * 12 * 366 < date then none
  else
    let mn := njsMod month 12
    let ym := yr + (month - mn).tdiv 12
    let addMonth (days : ℤ) (i : ℕ) : ℤ :=
      let md := monthDays.getD i 0
      let md := if i = 1 then md + (njsDaysInYear ym - 365) else md
      days + md
    let days := (List.range mn.toNat).foldl addMonth (njsDaysFromYear ym)
    some (days + date - 1)

/-- The loop of `njs_year_from_days`: the year and the days in it, unless it goes on. -/
def yearLoop (d : ℤ) : ℕ → ℤ → Option (ℤ × ℤ)
  | 0, _ => none
  | passes + 1, y =>
    let d1 := d - njsDaysFromYear y
    if d1 < 0 then yearLoop d passes (y - 1)
    else if d1 < njsDaysInYear y then some (y, d1) else yearLoop d passes (y + 1)

def njsYearFromDays (passes : ℕ) (days : ℤ) : Option (ℤ × ℤ) :=
  yearLoop days passes (njsFloorDiv (days * 10000) 3652425 + 1970)

/-- The fields of a date. -/
@[ext]
structure Fields where
  yr : ℤ
  mon : ℤ
  day : ℤ
  hr : ℤ
  min : ℤ
  sec : ℤ
  msec : ℤ
  wday : ℤ
  deriving DecidableEq

/-- `njs_make_date`, where `tzOffset` is `njs_tz_offset`. -/
def njsMakeDate (tzOffset : ℤ → ℤ) (tm : Fields) (isLocal : Bool) : Option ℤ :=
  match njsMakeDay tm.yr tm.mon tm.day with
  | none => none
  | some days =>
    let time := ((tm.hr * 60 + tm.min) * 60 + tm.sec) * 1000 + tm.msec
    let time := time + days * 86400000
    if time < -8640000000000000 ∨ 8640000000000000 < time then none
    else njsTimeclip (if isLocal then time + tzOffset time * 60000 else time)

/-- The loop over the months of `njs_destruct_date`: the month and the days in it. -/
def monthLoop (y : ℤ) : ℕ → ℕ → ℤ → ℕ × ℤ
  | 0, i, days => (i, days)
  | passes + 1, i, days =>
    let md := monthDays.getD i 0
    let md := if i = 1 then md + (njsDaysInYear y - 365) else md
    if days < md then (i, days) else monthLoop y passes (i + 1) (days - md)

/-- `njs_destruct_date`, unless the search for the year goes on. -/
def njsDestructDate (tzOffset : ℤ → ℤ) (passes : ℕ) (time : Option ℤ) (isLocal : Bool) :
    Option Fields :=
  let time := match time with
    | none => 0
    | some time => if isLocal then time - tzOffset time * 60000 else time
  let h := njsMod time 86400000
  let days := (time - h).tdiv 86400000
  let ms := h.tmod 1000
  let h := (h - ms).tdiv 1000
  let s := h.tmod 60
  let h := (h - s).tdiv 60
  let m := h.tmod 60
  let h := (h - m).tdiv 60
  let wd := njsMod (days + 4) 7
  match njsYearFromDays passes days with
  | none => none
  | some (y, days) =>
    let (i, days) := monthLoop y 11 0 days
    some ⟨y, i, days + 1, h, m, s, ms, wd⟩

/-! ### Division and years -/

theorem njsMod_eq (a : ℤ) {b : ℤ} (hb : 0 < b) : njsMod a b = a % b := by
  have hmod := Int.emod_lt_of_pos a hb
  have hnonneg := Int.emod_nonneg a (Int.ne_of_gt hb)
  rw [njsMod, Int.tmod_eq_emod]
  have habs : (b.natAbs : ℤ) = b := Int.natAbs_of_nonneg (Int.le_of_lt hb)
  split_ifs with h hneg hneg
  · omega
  · omega
  · omega
  · omega

theorem sub_emod_tdiv (a : ℤ) {b : ℤ} (hb : 0 < b) : (a - a % b).tdiv b = a / b := by
  have hdvd : a - a % b = b * (a / b) := by
    have := Int.mul_ediv_add_emod a b
    omega
  rw [hdvd, Int.mul_tdiv_cancel_left _ (Int.ne_of_gt hb)]

theorem njsFloorDiv_eq (a : ℤ) {b : ℤ} (hb : 0 < b) : njsFloorDiv a b = a / b := by
  have hmod := njsMod_eq a hb
  rw [njsMod] at hmod
  rw [njsFloorDiv, hmod, sub_emod_tdiv a hb]

theorem njsDaysInYear_eq (y : ℤ) : njsDaysInYear y = yearLength y := by
  have hdvd : ∀ b : ℤ, y.tmod b = 0 ↔ y % b = 0 := fun b => by
    rw [← Int.dvd_iff_tmod_eq_zero, Int.dvd_iff_emod_eq_zero]
  simp only [njsDaysInYear, hdvd]
  unfold yearLength Gregorian.IsLeap
  split_ifs
  all_goals omega

theorem njsDaysFromYear_eq (y : ℤ) : njsDaysFromYear y = yearStart y := by
  rw [njsDaysFromYear, njsFloorDiv_eq _ (by decide), njsFloorDiv_eq _ (by decide),
    njsFloorDiv_eq _ (by decide), yearStart]

theorem yearLoop_done {d y : ℤ} (hlow : yearStart y ≤ d) (hhigh : d < yearStart (y + 1))
    (passes : ℕ) : yearLoop d (passes + 1) y = some (y, d - yearStart y) := by
  rw [Gregorian.yearStart_succ] at hhigh
  rw [yearLoop, njsDaysFromYear_eq, njsDaysInYear_eq, if_neg (by omega), if_pos (by omega)]

theorem yearLoop_late {d y : ℤ} (h : d < yearStart y) (passes : ℕ) :
    yearLoop d (passes + 1) y = yearLoop d passes (y - 1) := by
  rw [yearLoop, njsDaysFromYear_eq, if_pos (by omega)]

theorem yearLoop_early {d y : ℤ} (h : yearStart (y + 1) ≤ d) (passes : ℕ) :
    yearLoop d (passes + 1) y = yearLoop d passes (y + 1) := by
  rw [Gregorian.yearStart_succ] at h
  have hpos := Gregorian.yearLength_pos y
  rw [yearLoop, njsDaysFromYear_eq, njsDaysInYear_eq, if_neg (by omega), if_neg (by omega)]

theorem njsYearFromDays_eq (days : ℤ) {passes : ℕ} (hpasses : 2 ≤ passes) :
    ∃ y, njsYearFromDays passes days = some (y, days - yearStart y) ∧ yearStart y ≤ days ∧
      days < yearStart (y + 1) := by
  obtain ⟨k, rfl⟩ : ∃ k, passes = k + 1 + 1 := ⟨passes - 2, by omega⟩
  obtain ⟨hback, hforth⟩ := Gregorian.estimate_near days
  rw [njsYearFromDays, njsFloorDiv_eq _ (by decide)]
  generalize days * 10000 / 3652425 + 1970 = y at hback hforth ⊢
  by_cases hlow : yearStart y ≤ days
  · by_cases hhigh : days < yearStart (y + 1)
    · exact ⟨y, yearLoop_done hlow hhigh _, hlow, hhigh⟩
    · have hforth : days < yearStart (y + 1 + 1) := by rwa [Int.add_assoc]
      have hlow := Int.not_lt.1 hhigh
      rw [yearLoop_early hlow]
      exact ⟨y + 1, yearLoop_done hlow hforth _, hlow, hforth⟩
  · have hhigh := Int.not_le.1 hlow
    have hnext : days < yearStart (y - 1 + 1) := by rwa [Int.sub_add_cancel]
    rw [yearLoop_late hhigh]
    exact ⟨y - 1, yearLoop_done hback hnext _, hback, hnext⟩

/-! ### Months -/

theorem monthDays_leap (y : ℤ) {i : ℕ} (hi : i < 12) :
    (if i = 1 then monthDays.getD i 0 + (njsDaysInYear y - 365) else monthDays.getD i 0) =
      monthLength y i := by
  rw [njsDaysInYear_eq, monthLength, yearLength]
  split_ifs with h hleap hshort
  · subst h
    rfl
  · subst h
    rfl
  · obtain rfl | rfl | rfl | rfl := hshort
    all_goals rfl
  · have hlong : i = 0 ∨ i = 2 ∨ i = 4 ∨ i = 6 ∨ i = 7 ∨ i = 9 ∨ i = 11 := by omega
    obtain rfl | rfl | rfl | rfl | rfl | rfl | rfl := hlong
    all_goals rfl

/-- The months of `njs_make_day`. -/
theorem foldl_months (y start : ℤ) {m : ℕ} (hm : m ≤ 12) :
    (List.range m).foldl (fun days i => days +
      if i = 1 then monthDays.getD i 0 + (njsDaysInYear y - 365) else monthDays.getD i 0) start =
      start + monthStart y m := by
  induction m with
  | zero => exact (Int.add_zero start).symm
  | succ m ih =>
    rw [List.range_succ, List.foldl_append, ih (by omega), List.foldl_cons, List.foldl_nil,
      monthDays_leap y (by omega), monthStart, Int.add_assoc]

theorem monthLoop_eq (y : ℤ) {passes i : ℕ} (hpasses : i + passes = 11) {days : ℤ}
    (hnonneg : 0 ≤ days) (hdays : monthStart y i + days < yearLength y) :
    ∃ m d, monthLoop y passes i days = (m, d) ∧ m < 12 ∧ 0 ≤ d ∧ d < monthLength y m ∧
      monthStart y m + d = monthStart y i + days := by
  induction passes generalizing i days with
  | zero =>
    obtain rfl : i = 11 := hpasses
    have htwelve : monthStart y 11 + monthLength y 11 = yearLength y :=
      Gregorian.monthStart_twelve y
    exact ⟨11, days, rfl, by decide, hnonneg, by omega, rfl⟩
  | succ passes ih =>
    rw [monthLoop, monthDays_leap y (by omega)]
    split_ifs with h
    · exact ⟨i, days, rfl, by omega, hnonneg, h, rfl⟩
    · obtain ⟨m, d, heq, hm, hd, hd', hsum⟩ := @ih (i + 1) (by omega)
        (days - monthLength y i) (by omega) (by rw [monthStart]; omega)
      rw [monthStart] at hsum
      exact ⟨m, d, heq, hm, hd, hd', by omega⟩

/-! ### Fields -/

/-- Fields in range, whatever the day of the week. -/
structure Fields.InRange (tm : Fields) : Prop where
  mon_nonneg : 0 ≤ tm.mon
  mon_lt : tm.mon < 12
  day_pos : 1 ≤ tm.day
  day_le : tm.day ≤ monthLength tm.yr tm.mon.toNat
  hr_nonneg : 0 ≤ tm.hr
  hr_lt : tm.hr < 24
  min_nonneg : 0 ≤ tm.min
  min_lt : tm.min < 60
  sec_nonneg : 0 ≤ tm.sec
  sec_lt : tm.sec < 60
  msec_nonneg : 0 ≤ tm.msec
  msec_lt : tm.msec < 1000

def Fields.InRange.date {tm : Fields} (h : tm.InRange) : Gregorian.Date where
  year := tm.yr
  month := tm.mon.toNat
  day := tm.day
  month_lt := (Int.toNat_lt h.mon_nonneg).2 h.mon_lt
  day_pos := h.day_pos
  day_le := h.day_le

/-- The milliseconds of the day. -/
def Fields.clock (tm : Fields) : ℤ := ((tm.hr * 60 + tm.min) * 60 + tm.sec) * 1000 + tm.msec

/-- The time value of fields, however large. -/
def Fields.InRange.instant {tm : Fields} (h : tm.InRange) : ℤ :=
  h.date.number * 86400000 + tm.clock

def maxTime : ℤ := 8640000000000000

theorem clipped_eq (time : ℤ) : (if time < -8640000000000000 ∨ 8640000000000000 < time then none
    else njsTimeclip time) = if maxTime < |time| then none else some time := by
  have hiff : maxTime < |time| ↔ time < -8640000000000000 ∨ 8640000000000000 < time := by
    rw [lt_abs, maxTime]
    omega
  rw [njsTimeclip, if_congr hiff rfl rfl]
  split_ifs
  · rfl
  · rfl

variable {tm : Fields}

theorem Fields.InRange.clock_nonneg (h : tm.InRange) : 0 ≤ tm.clock := by
  have := h.hr_nonneg
  have := h.min_nonneg
  have := h.sec_nonneg
  have := h.msec_nonneg
  rw [clock]
  omega

theorem Fields.InRange.clock_lt (h : tm.InRange) : tm.clock < 86400000 := by
  have := h.hr_lt
  have := h.min_lt
  have := h.sec_lt
  have := h.msec_lt
  rw [clock]
  omega

theorem njsMakeDay_eq (h : tm.InRange) : njsMakeDay tm.yr tm.mon tm.day =
    if tm.yr < minYear ∨ maxYear < tm.yr then none else some h.date.number := by
  have hmon := h.mon_nonneg
  have hmon' := h.mon_lt
  have hday := h.day_pos
  have hday' : tm.day ≤ 31 := by
    refine h.day_le.trans ?_
    unfold monthLength
    split_ifs
    all_goals decide
  rw [njsMakeDay, njsMod_eq _ (by decide), Int.emod_eq_of_lt hmon hmon']
  dsimp only
  rw [Int.sub_self, Int.zero_tdiv, Int.add_zero, foldl_months _ _ (by omega), njsDaysFromYear_eq]
  refine if_congr ?_ rfl (congrArg some ?_)
  · rw [minYear, maxYear]
    omega
  · rw [Gregorian.Date.number]
    exact Int.add_sub_assoc _ _ _

theorem Fields.InRange.year_in_range (h : tm.InRange) (ht : |h.instant| ≤ maxTime) :
    ¬(tm.yr < minYear ∨ maxYear < tm.yr) := by
  obtain ⟨hlow, hhigh⟩ : yearStart tm.yr ≤ h.date.number ∧
      h.date.number < yearStart (tm.yr + 1) := h.date.in_year
  have hnonneg := h.clock_nonneg
  have hlt := h.clock_lt
  rw [abs_le, instant, maxTime] at ht
  rintro (hyear | hyear)
  · have hstart := Gregorian.yearStart_le (show tm.yr + 1 ≤ minYear by omega)
    have hfirst : yearStart minYear = -100000109 := rfl
    omega
  · have hstart := Gregorian.yearStart_le (show maxYear + 1 ≤ tm.yr by omega)
    have hlast : yearStart (maxYear + 1) = 100000110 := rfl
    omega

theorem njsMakeDate_eq (tzOffset : ℤ → ℤ) (h : tm.InRange) : njsMakeDate tzOffset tm false =
    if maxTime < |h.instant| then none else some h.instant := by
  rw [njsMakeDate, njsMakeDay_eq h]
  by_cases hyear : tm.yr < minYear ∨ maxYear < tm.yr
  · rw [if_pos hyear, if_pos (not_le.1 fun ht => h.year_in_range ht hyear)]
  rw [if_neg hyear]
  have htime : ((tm.hr * 60 + tm.min) * 60 + tm.sec) * 1000 + tm.msec +
      h.date.number * 86400000 = h.instant := Int.add_comm _ _
  dsimp only
  rw [htime, if_neg Bool.false_ne_true]
  exact clipped_eq h.instant

theorem njsDestructDate_eq (tzOffset : ℤ → ℤ) {passes : ℕ} (hpasses : 2 ≤ passes) (t : ℤ) :
    ∃ tm, ∃ h : tm.InRange, njsDestructDate tzOffset passes (some t) false = some tm ∧
      h.instant = t ∧ tm.wday = h.date.weekday := by
  have hmod := Int.emod_nonneg t (show (86400000 : ℤ) ≠ 0 by decide)
  have hmod' := Int.emod_lt_of_pos t (show (0 : ℤ) < 86400000 by decide)
  have hdiv := Int.mul_ediv_add_emod t 86400000
  obtain ⟨y, hy, hlow, hhigh⟩ := njsYearFromDays_eq (t / 86400000) hpasses
  have hlength := Gregorian.yearStart_succ y
  obtain ⟨m, d, hm, hlt, hd, hd', hsum⟩ := @monthLoop_eq y 11 0 (by decide)
    (t / 86400000 - yearStart y) (by omega) (by rw [monthStart]; omega)
  have hzero : monthStart y 0 = 0 := rfl
  have htmod : ∀ {a : ℤ}, 0 ≤ a → ∀ b, a.tmod b = a % b := fun ha _ =>
    Int.tmod_eq_emod_of_nonneg ha
  -- Each part of the clock is what is left of the larger ones.
  rw [njsDestructDate]
  dsimp only
  rw [if_neg Bool.false_ne_true, njsMod_eq t (by decide), sub_emod_tdiv t (by decide), hy,
    htmod hmod, sub_emod_tdiv _ (by decide), htmod (by omega), sub_emod_tdiv _ (by decide),
    htmod (by omega), sub_emod_tdiv _ (by decide), njsMod_eq _ (by decide)]
  dsimp only
  rw [hm]
  generalize hclock : t % 86400000 = c at hmod hmod' hdiv
  have hrange : Fields.InRange ⟨y, m, d + 1, c / 1000 / 60 / 60, c / 1000 / 60 % 60,
      c / 1000 % 60, c % 1000, (t / 86400000 + 4) % 7⟩ := by
    constructor
    case day_le =>
      dsimp only
      rw [Int.toNat_natCast]
      omega
    all_goals
      dsimp only
      omega
  have hnumber : hrange.date.number = t / 86400000 := by
    change yearStart y + monthStart y (m : ℤ).toNat + (d + 1 - 1) = _
    rw [Int.toNat_natCast]
    omega
  refine ⟨_, hrange, rfl, ?_, ?_⟩
  · rw [Fields.InRange.instant, hnumber, Fields.clock]
    dsimp only
    omega
  · rw [Gregorian.Date.weekday, hnumber]

theorem Fields.InRange.date_unique {tm' : Fields} (h : tm.InRange) (h' : tm'.InRange)
    (hinstant : h.instant = h'.instant) : h.date = h'.date := by
  have hclock := h.clock_nonneg
  have hclock' := h.clock_lt
  have hother := h'.clock_nonneg
  have hother' := h'.clock_lt
  rw [instant, instant] at hinstant
  exact Gregorian.Date.number_injective (by omega)

theorem Fields.InRange.unique {tm' : Fields} (h : tm.InRange) (h' : tm'.InRange)
    (hinstant : h.instant = h'.instant) : { tm with wday := tm'.wday } = tm' := by
  have hdate := h.date_unique h' hinstant
  rw [instant, instant, hdate] at hinstant
  have hmon : tm.mon.toNat = tm'.mon.toNat := congrArg Gregorian.Date.month hdate
  have hmon_nonneg := h.mon_nonneg
  have hmon_nonneg' := h'.mon_nonneg
  obtain ⟨_, _, _, _, hr, hr', hmin, hmin', hsec, hsec', hmsec, hmsec'⟩ := h
  obtain ⟨_, _, _, _, kr, kr', kmin, kmin', ksec, ksec', kmsec, kmsec'⟩ := h'
  have hsame : tm.clock = tm'.clock := by omega
  rw [clock, clock] at hsame
  ext
  · exact congrArg Gregorian.Date.year hdate
  · dsimp only
    omega
  · exact congrArg Gregorian.Date.day hdate
  · dsimp only
    omega
  · dsimp only
    omega
  · dsimp only
    omega
  · dsimp only
    omega
  · rfl

/-- The fields of a time value are in range, with the day of the week of their date, and give the
time value back. The time value of fields in range is not a number if it is too large, else they
are found from it. The search for the year always ends. -/
theorem njsDestructDate_utc (tzOffset : ℤ → ℤ) :
    (∀ t, |t| ≤ maxTime → ∀ passes ≥ 2, ∃ tm, ∃ h : tm.InRange,
      njsDestructDate tzOffset passes (some t) false = some tm ∧ tm.wday = h.date.weekday ∧
        njsMakeDate tzOffset tm false = some t) ∧
      ∀ tm (h : tm.InRange), (njsMakeDate tzOffset tm false = none ↔ maxTime < |h.instant|) ∧
          ∀ t, njsMakeDate tzOffset tm false = some t → ∀ passes ≥ 2,
            njsDestructDate tzOffset passes (some t) false =
              some { tm with wday := h.date.weekday } := by
  constructor
  · intro t ht passes hpasses
    obtain ⟨tm, h, htm, hinstant, hwday⟩ := njsDestructDate_eq tzOffset hpasses t
    refine ⟨tm, h, htm, hwday, ?_⟩
    rw [njsMakeDate_eq tzOffset h, hinstant, if_neg (not_lt.2 ht)]
  intro tm h
  rw [njsMakeDate_eq tzOffset h]
  constructor
  · simp
  · intro t ht passes hpasses
    obtain ⟨-, ht⟩ := Option.ite_none_left_eq_some.1 ht
    obtain ⟨tm', h', htm', hinstant, hwday⟩ := njsDestructDate_eq tzOffset hpasses t
    have hsame : h.instant = h'.instant := (Option.some.inj ht).trans hinstant.symm
    rw [htm', h.date_unique h' hsame, ← hwday, h.unique h' hsame]

end Njs.Date
