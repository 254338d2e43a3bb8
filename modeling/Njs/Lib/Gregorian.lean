import Mathlib.Algebra.Group.Int.Defs
import Mathlib.Algebra.Group.Nat.Defs
import Mathlib.Order.Basic

/-!
# The proleptic Gregorian calendar

The calendar of all years, also those before it was introduced, with a year 0. Days are counted
from the first day of 1970, a Thursday.
-/

namespace Gregorian

/-! ### Years -/

/-- Every fourth year, but of the centuries only every fourth. -/
def IsLeap (y : ℤ) : Prop := y % 4 = 0 ∧ (y % 100 = 0 → y % 400 = 0)

instance (y : ℤ) : Decidable (IsLeap y) := inferInstanceAs (Decidable (_ ∧ _))

def yearLength (y : ℤ) : ℤ := if IsLeap y then 366 else 365

/-- The days from the first day of 1970 to the first day of a year. -/
def yearStart (y : ℤ) : ℤ :=
  365 * (y - 1970) + (y - 1969) / 4 - (y - 1901) / 100 + (y - 1601) / 400

theorem yearStart_succ (y : ℤ) : yearStart (y + 1) = yearStart y + yearLength y := by
  unfold yearStart yearLength IsLeap
  split_ifs with h
  · omega
  · omega

theorem yearLength_pos (y : ℤ) : 0 < yearLength y := by
  unfold yearLength
  split_ifs
  · decide
  · decide

theorem yearStart_add_nat (y : ℤ) (k : ℕ) : yearStart y + k ≤ yearStart (y + k) := by
  induction k with
  | zero => simp
  | succ k ih =>
    have hstep := yearStart_succ (y + k)
    have hpos := yearLength_pos (y + k)
    rw [Int.add_assoc] at hstep
    push_cast
    omega

theorem yearStart_le {y z : ℤ} (h : y ≤ z) : yearStart y ≤ yearStart z := by
  obtain ⟨k, rfl⟩ := Int.le.dest h
  have := yearStart_add_nat y k
  omega

theorem year_unique {y z n : ℤ} (hy : yearStart y ≤ n) (hy' : n < yearStart (y + 1))
    (hz : yearStart z ≤ n) (hz' : n < yearStart (z + 1)) : y = z := by
  obtain h | h | h := Int.lt_trichotomy y z
  · have := yearStart_le (show y + 1 ≤ z by omega)
    omega
  · exact h
  · have := yearStart_le (show z + 1 ≤ y by omega)
    omega

theorem estimate_near (n : ℤ) : yearStart (n * 10000 / 3652425 + 1970 - 1) ≤ n ∧
      n < yearStart (n * 10000 / 3652425 + 1970 + 2) := by
  unfold yearStart
  omega

/-! ### Months -/

def monthLength (y : ℤ) (m : ℕ) : ℤ :=
  if m = 1 then if IsLeap y then 29 else 28
  else if m = 3 ∨ m = 5 ∨ m = 8 ∨ m = 10 then 30 else 31

/-- The days from the first day of a year to the first day of a month. -/
def monthStart (y : ℤ) : ℕ → ℤ
  | 0 => 0
  | m + 1 => monthStart y m + monthLength y m

theorem monthLength_pos (y : ℤ) (m : ℕ) : 0 < monthLength y m := by
  unfold monthLength
  split_ifs
  · decide
  · decide
  · decide
  · decide

theorem monthStart_twelve (y : ℤ) : monthStart y 12 = yearLength y := by
  by_cases h : IsLeap y
  · simp [monthStart, monthLength, yearLength, h]
  · simp [monthStart, monthLength, yearLength, h]

theorem monthStart_le (y : ℤ) {m k : ℕ} (h : m ≤ k) : monthStart y m ≤ monthStart y k := by
  induction h with
  | refl => exact Int.le_refl _
  | @step k _ ih =>
    have := monthLength_pos y k
    rw [monthStart]
    omega

theorem month_unique {y n : ℤ} {m k : ℕ} (hm : monthStart y m ≤ n) (hm' : n < monthStart y (m + 1))
    (hk : monthStart y k ≤ n) (hk' : n < monthStart y (k + 1)) : m = k := by
  obtain h | h | h := Nat.lt_trichotomy m k
  · have := monthStart_le y (show m + 1 ≤ k by omega)
    omega
  · exact h
  · have := monthStart_le y (show k + 1 ≤ m by omega)
    omega

/-! ### Days -/

/-- A day of the calendar. -/
@[ext]
structure Date where
  year : ℤ
  month : ℕ
  day : ℤ
  month_lt : month < 12
  day_pos : 1 ≤ day
  day_le : day ≤ monthLength year month

namespace Date

def number (d : Date) : ℤ := yearStart d.year + monthStart d.year d.month + (d.day - 1)

/-- The day of the week, of which Sunday is 0. -/
def weekday (d : Date) : ℤ := (d.number + 4) % 7

theorem in_month (d : Date) : monthStart d.year d.month ≤ monthStart d.year d.month + (d.day - 1) ∧
    monthStart d.year d.month + (d.day - 1) < monthStart d.year (d.month + 1) := by
  have hpos := d.day_pos
  have hle := d.day_le
  rw [monthStart]
  omega

theorem in_year (d : Date) : yearStart d.year ≤ d.number ∧ d.number < yearStart (d.year + 1) := by
  have hmonth := d.in_month
  have hfirst := monthStart_le d.year (Nat.zero_le d.month)
  have hlast := monthStart_le d.year (show d.month + 1 ≤ 12 from d.month_lt)
  rw [monthStart_twelve] at hlast
  rw [yearStart_succ, number]
  rw [show monthStart d.year 0 = 0 from rfl] at hfirst
  omega

theorem number_injective : Function.Injective number := by
  intro d e h
  have hd := d.in_year
  have he := e.in_year
  have hyear : d.year = e.year := year_unique hd.1 hd.2 (h ▸ he.1) (h ▸ he.2)
  have hd := d.in_month
  have he := e.in_month
  rw [number, number, hyear] at h
  rw [hyear] at hd
  have hmonth : d.month = e.month :=
    month_unique hd.1 hd.2 (by omega) (by omega)
  rw [hmonth] at h
  exact Date.ext hyear hmonth (by omega)

end Date

end Gregorian
