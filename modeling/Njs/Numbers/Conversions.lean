import Mathlib.Algebra.Order.Field.Power
import Njs.TypedArrays.Elements

/-!
# Conversions of numbers to integers

The conversions of `njs_number.h`. A double is its 64 bits: `njs_number_to_int32` reads the exponent
and the significand off them. The other conversions compare the double with bounds and cast it. What
a cast gives for a double that the integer type does not hold is undefined: there is no result then.
-/

namespace Njs.Numbers

open Indices (Number)
open TypedArrays (extended readFloat)

/-- `njs_diyfp_conv_t`. -/
abbrev Double : Type := BitVec 64

def Double.num (d : Double) : TypedArrays.Num := readFloat 11 52 d.toNat

/-- A number without its fraction. -/
def trunc (q : ℚ) : ℤ := if 0 ≤ q then ⌊q⌋ else -⌊-q⌋

/-- A cast to an integer type with the values from `lo` to `hi`. -/
def cast (lo hi : ℤ) : TypedArrays.Num → Option ℤ
  | some (.finite q) => if lo ≤ trunc q ∧ trunc q ≤ hi then some (trunc q) else none
  | some .negZero => some 0
  | _ => none

/-- `NJS_INT64_DBL_MIN`. -/
def int64DblMin : ℚ := -2 ^ 63

/-- `NJS_INT64_DBL_MAX`: the double that is closest to the largest integer is one above it. -/
def int64DblMax : ℚ := 2 ^ 63

/-- `NJS_MAX_LENGTH`. -/
def maxLength : ℤ := 0x1fffffffffffff

/-- `NJS_DBL_EXPONENT_OFFSET`. -/
def exponentOffset : ℕ := 0x3ff

/-- `NJS_DBL_EXPONENT_BIAS`. -/
def exponentBias : ℕ := exponentOffset + 52

def njsNumberToInteger (num : Double) : Option ℤ :=
  match num.num with
  | none => some 0
  | some x =>
    if extended x < extended (.finite int64DblMin) then some (-2 ^ 63)
    else if extended (.finite int64DblMax) < extended x then some (2 ^ 63 - 1)
    else cast (-2 ^ 63) (2 ^ 63 - 1) x

def njsNumberToInt32 (num : Double) : Option ℤ :=
  let exp := ((num &&& 0x7ff0000000000000#64) >>> 52).toNat
  if exp < exponentOffset + 31 then cast (-2 ^ 31) (2 ^ 31 - 1) num.num
  else if exp < exponentOffset + 31 + 53 then
    let v := (num &&& 0x000fffffffffffff#64) ||| 0x0010000000000000#64
    let v := v <<< (exp + 32 - exponentBias)
    let r := (v >>> 32).setWidth 32
    let r := if num &&& 0x8000000000000000#64 ≠ 0 then -r else r
    some r.toInt
  else some 0

def njsNumberToLength (num : Double) : Option ℤ :=
  match num.num with
  | none => some 0
  | some x =>
    if extended (.finite maxLength) < extended x then some maxLength
    else if extended x < extended (.finite 0) then some 0
    else cast 0 (2 ^ 64 - 1) x

/-! ### What the conversions are for -/

def truncated (lo hi : ℤ) : TypedArrays.Num → ℤ
  | none | some .negZero => 0
  | some .infinity => hi
  | some .negInfinity => lo
  | some (.finite q) => max lo (min hi (trunc q))

/-- `ToInt32`. -/
def toInt32 : TypedArrays.Num → ℤ
  | some (.finite q) => (trunc q).bmod (2 ^ 32)
  | _ => 0

theorem trunc_neg (q : ℚ) : trunc (-q) = -trunc q := by
  rcases lt_trichotomy q 0 with h | rfl | h
  · rw [trunc, trunc, if_pos (by linarith), if_neg (not_le.2 h), neg_neg]
  · rfl
  · rw [trunc, trunc, if_neg (by linarith), if_pos h.le, neg_neg]

theorem trunc_lt {q : ℚ} {n : ℤ} (hn : 0 < n) : trunc q < n ↔ q < n := by
  rw [trunc]
  split_ifs with h
  · exact Int.floor_lt
  · have hpos : 0 ≤ ⌊-q⌋ := Int.floor_nonneg.2 (by linarith)
    have hn' : (0 : ℚ) < n := Int.cast_pos.2 hn
    exact iff_of_true (by omega) (by linarith)

theorem lt_trunc {q : ℚ} {n : ℤ} (hn : n < 0) : n < trunc q ↔ n < q := by
  have h := trunc_lt (q := -q) (n := -n) (by omega)
  rw [trunc_neg, Int.cast_neg, neg_lt_neg_iff, neg_lt_neg_iff] at h
  exact h

theorem trunc_nonneg {q : ℚ} (h : 0 ≤ q) : 0 ≤ trunc q := by
  rw [trunc, if_pos h]
  exact Int.floor_nonneg.2 h

theorem trunc_nonpos {q : ℚ} (h : q ≤ 0) : trunc q ≤ 0 := by
  have := trunc_nonneg (q := -q) (by linarith)
  rw [trunc_neg] at this
  omega

/-! ### Conversions by comparison -/

theorem extended_lt {p q : ℚ} : extended (.finite p) < extended (.finite q) ↔ p < q := by
  simp [extended]

theorem cast_of_le {lo hi : ℤ} {q : ℚ} (hlo : lo ≤ trunc q) (hhi : trunc q ≤ hi) :
    cast lo hi (some (.finite q)) = some (truncated lo hi (some (.finite q))) := by
  rw [cast, if_pos ⟨hlo, hhi⟩, truncated, min_eq_right hhi, max_eq_right hlo]

/-- The cast to an integer of 64 bits is in range but for one double. -/
theorem njsNumberToInteger_iff (d : Double) :
    njsNumberToInteger d = some (truncated (-2 ^ 63) (2 ^ 63 - 1) d.num) ↔
      d.num ≠ some (.finite (2 ^ 63)) := by
  rw [njsNumberToInteger]
  rcases d.num with _ | q | _ | _ | _
  · exact iff_of_true rfl nofun
  · have hmax := trunc_lt (q := q) (n := 2 ^ 63) (by decide)
    have hmin := lt_trunc (q := q) (n := -2 ^ 63) (by decide)
    have hmin' := lt_trunc (q := q) (n := -2 ^ 63 - 1) (by decide)
    push_cast at hmax hmin hmin'
    simp only [extended_lt, int64DblMin, int64DblMax]
    by_cases hlt : q < -2 ^ 63
    · have ht : trunc q ≤ -2 ^ 63 := not_lt.1 (mt hmin.1 (by linarith))
      rw [if_pos hlt, truncated, max_eq_left (by omega)]
      refine iff_of_true rfl fun h => ?_
      obtain rfl := Number.finite.inj (Option.some.inj h)
      norm_num at hlt
    have ht : -2 ^ 63 ≤ trunc q := by
      have := hmin'.2 (by linarith)
      omega
    rw [if_neg hlt]
    by_cases hgt : 2 ^ 63 < q
    · have ht' : 2 ^ 63 ≤ trunc q := not_lt.1 (mt hmax.1 (by linarith))
      rw [if_pos hgt, truncated, min_eq_left (by omega), max_eq_right (by decide)]
      refine iff_of_true rfl fun h => ?_
      obtain rfl := Number.finite.inj (Option.some.inj h)
      exact lt_irrefl _ hgt
    rw [if_neg hgt]
    by_cases heq : q = 2 ^ 63
    · refine iff_of_false (fun h => ?_) fun h => h (by rw [heq])
      have ht' : ¬trunc q < 2 ^ 63 := mt hmax.1 (by linarith)
      rw [cast, if_neg (by omega)] at h
      cases h
    · have ht' := hmax.2 (lt_of_le_of_ne (not_lt.1 hgt) heq)
      refine iff_of_true (cast_of_le ht (by omega)) fun h => ?_
      exact heq (Number.finite.inj (Option.some.inj h))
  · exact iff_of_true rfl nofun
  · exact iff_of_true rfl nofun
  · exact iff_of_true rfl nofun

theorem njsNumberToLength_eq (d : Double) :
    njsNumberToLength d = some (truncated 0 maxLength d.num) := by
  rw [njsNumberToLength]
  rcases d.num with _ | q | _ | _ | _
  · rfl
  · simp only [extended_lt]
    by_cases hgt : (maxLength : ℚ) < q
    · have ht : maxLength ≤ trunc q := by
        have := mt (trunc_lt (q := q) (n := maxLength) (by decide)).1 (by linarith)
        omega
      rw [if_pos hgt, truncated, min_eq_left ht, max_eq_right (by decide)]
    have ht : trunc q ≤ maxLength := by
      have := (trunc_lt (q := q) (n := maxLength + 1) (by decide)).2 (by push_cast; linarith)
      omega
    rw [if_neg hgt]
    by_cases hneg : q < 0
    · rw [if_pos hneg, truncated, max_eq_left]
      exact (min_le_right _ _).trans (trunc_nonpos hneg.le)
    · have hpos := trunc_nonneg (not_lt.1 hneg)
      have hle : maxLength ≤ 2 ^ 64 - 1 := by decide
      rw [if_neg hneg, cast_of_le hpos (ht.trans hle), truncated, truncated, min_eq_right ht,
        min_eq_right (ht.trans hle)]
  · rfl
  · rfl
  · rfl

/-! ### The conversion by bits -/

section

variable (d : Double)

theorem toNat_exponent :
    ((d &&& 0x7ff0000000000000#64) >>> 52).toNat = d.toNat / 2 ^ 52 % 2 ^ 11 := by
  have hmask : 0x7ff0000000000000#64 >>> 52 = 0x7ff#64 := by decide
  rw [BitVec.ushiftRight_and_distrib, hmask, BitVec.toNat_and, BitVec.toNat_ushiftRight,
    Nat.shiftRight_eq_div_pow]
  exact Nat.and_two_pow_sub_one_eq_mod _ 11

theorem toNat_significand : ((d &&& 0x000fffffffffffff#64) ||| 0x0010000000000000#64).toNat =
      2 ^ 52 + d.toNat % 2 ^ 52 := by
  have hmod : (d &&& 0x000fffffffffffff#64).toNat = d.toNat % 2 ^ 52 :=
    (BitVec.toNat_and ..).trans (Nat.and_two_pow_sub_one_eq_mod _ 52)
  have hadd := Nat.two_pow_add_eq_or_of_lt (Nat.mod_lt d.toNat (by decide : 0 < 2 ^ 52)) 1
  rw [BitVec.toNat_or, hmod, Nat.or_comm]
  rw [Nat.mul_one] at hadd
  exact hadd.symm

theorem sign_iff : d &&& 0x8000000000000000#64 ≠ 0 ↔ d.toNat / 2 ^ 63 % 2 = 1 := by
  have hand : d &&& BitVec.twoPow 64 63 = if d.getLsbD 63 then BitVec.twoPow 64 63 else 0#64 :=
    BitVec.and_twoPow d 63
  have hbit : d.getLsbD 63 = decide (d.toNat / 2 ^ 63 % 2 = 1) := Nat.testBit_eq_decide_div_mod_eq
  have hmask : 0x8000000000000000#64 = BitVec.twoPow 64 63 := by decide
  rw [hmask, hand, hbit]
  simp only [decide_eq_true_eq]
  split_ifs with h
  · exact iff_of_true (by decide) h
  · exact iff_of_false (by simp) h

/-- The magnitude of a finite double, by its exponent and its fraction. -/
def magnitude (e f : ℕ) : ℚ :=
  if e = 0 then f * 2 ^ (-1074 : ℤ) else (2 ^ 52 + f) * 2 ^ (e - 1075 : ℤ)

def signed (negative : Prop) [Decidable negative] (q : ℚ) : TypedArrays.Num :=
  if q = 0 ∧ negative then some .negZero else some (.finite (if negative then -q else q))

variable {d}

theorem num_of_finite (he : d.toNat / 2 ^ 52 % 2 ^ 11 ≠ 2 ^ 11 - 1) :
    d.num = signed (d.toNat / 2 ^ 63 % 2 = 1)
      (magnitude (d.toNat / 2 ^ 52 % 2 ^ 11) (d.toNat % 2 ^ 52)) := by
  have hsub : ∀ e : ℤ, e - 1023 - 52 = e - 1075 := fun e => by ring
  rw [Double.num, readFloat, if_neg he]
  simp only [magnitude, signed]
  norm_num [hsub]

theorem toInt32_of_special (he : d.toNat / 2 ^ 52 % 2 ^ 11 = 2 ^ 11 - 1) : toInt32 d.num = 0 := by
  rw [Double.num, readFloat, if_pos he]
  split_ifs <;> rfl

theorem toInt32_signed (negative : Prop) [Decidable negative] (q : ℚ) :
    toInt32 (signed negative q) = (if negative then -trunc q else trunc q).bmod (2 ^ 32) := by
  by_cases hn : negative
  · by_cases h : q = 0
    · rw [signed, if_pos ⟨h, hn⟩, if_pos hn, h]
      rfl
    · rw [signed, if_neg fun h' => h h'.1, if_pos hn, if_pos hn, toInt32, trunc_neg]
  · rw [signed, if_neg fun h' => hn h'.2, if_neg hn, if_neg hn]
    rfl

theorem magnitude_nonneg (e f : ℕ) : 0 ≤ magnitude e f := by
  rw [magnitude]
  split_ifs <;> positivity

theorem magnitude_lt {e f : ℕ} (hf : f < 2 ^ 52) (he : e < 1054) : magnitude e f < 2 ^ 31 := by
  have hf' : (f : ℚ) < 2 ^ 52 := by exact_mod_cast hf
  have hpow : ∀ k : ℤ, k ≤ -22 → (2 : ℚ) ^ k ≤ 2 ^ (-22 : ℤ) := fun k hk =>
    zpow_le_zpow_right₀ (by norm_num) hk
  have hhalf : (2 : ℚ) ^ 53 * 2 ^ (-22 : ℤ) = 2 ^ 31 := by norm_num
  rw [magnitude, ← hhalf]
  split_ifs
  · exact mul_lt_mul (by linarith) (hpow _ (by norm_num)) (by positivity) (by positivity)
  · exact mul_lt_mul (by linarith) (hpow _ (by omega)) (by positivity) (by positivity)

/-- What the conversion does for a number of less than 31 bits. -/
theorem cast_signed (negative : Prop) [Decidable negative] {q : ℚ} (hpos : 0 ≤ q)
    (hlt : q < 2 ^ 31) :
    cast (-2 ^ 31) (2 ^ 31 - 1) (signed negative q) = some (toInt32 (signed negative q)) := by
  have ht := trunc_nonneg hpos
  have ht' : trunc q < 2 ^ 31 := (trunc_lt (by decide)).2 (by push_cast; exact hlt)
  rw [toInt32_signed]
  by_cases hn : negative
  · rw [if_pos hn, Int.bmod_eq_of_le (by omega) (by omega)]
    by_cases h : q = 0
    · rw [signed, if_pos ⟨h, hn⟩, h]
      rfl
    · rw [signed, if_neg fun h' => h h'.1, if_pos hn, cast, trunc_neg, if_pos (by omega)]
  · rw [signed, if_neg fun h' => hn h'.2, if_neg hn, if_neg hn, cast, if_pos (by omega),
      Int.bmod_eq_of_le (by omega) (by omega)]

/-- The shifted significand holds the integer of a number of 32 to 84 bits in its upper half. -/
theorem trunc_magnitude {e f : ℕ} (he : 1054 ≤ e) :
    trunc (magnitude e f) = ((2 ^ 52 + f) * 2 ^ (e - 1043) / 2 ^ 32 : ℕ) := by
  have hpow : (2 : ℚ) ^ (e - 1075 : ℤ) = 2 ^ (e - 1043) / 2 ^ 32 := by
    rw [eq_div_iff (by positivity), ← zpow_natCast, ← zpow_natCast, ← zpow_add₀ (by norm_num)]
    congr 1
    push_cast [Nat.cast_sub (show 1043 ≤ e by omega)]
    ring
  rw [trunc, if_pos (magnitude_nonneg e f), magnitude, if_neg (by omega), hpow, ← mul_div_assoc]
  exact_mod_cast Rat.floor_natCast_div_natCast ((2 ^ 52 + f) * 2 ^ (e - 1043)) (2 ^ 32)

end

theorem njsNumberToInt32_eq (d : Double) : njsNumberToInt32 d = some (toInt32 d.num) := by
  have hexp := toNat_exponent d
  set e := d.toNat / 2 ^ 52 % 2 ^ 11 with he
  set f := d.toNat % 2 ^ 52 with hf
  have hf' : f < 2 ^ 52 := Nat.mod_lt _ (by decide)
  rw [njsNumberToInt32]
  simp only [hexp, exponentOffset, exponentBias, sign_iff]
  by_cases hsmall : e < 1023 + 31
  · rw [if_pos hsmall, num_of_finite (by omega), ← he, ← hf]
    exact cast_signed _ (magnitude_nonneg e f) (magnitude_lt hf' hsmall)
  rw [if_neg hsmall]
  by_cases hmid : e < 1023 + 31 + 53
  · rw [if_pos hmid, num_of_finite (by omega), ← he, ← hf, toInt32_signed, trunc_magnitude (by omega)]
    have hr : (((d &&& 0x000fffffffffffff#64) ||| 0x0010000000000000#64) <<<
        (e + 32 - (1023 + 52)) >>> 32).setWidth 32 =
        BitVec.ofInt 32 ((2 ^ 52 + f) * 2 ^ (e - 1043) / 2 ^ 32 : ℕ) := by
      apply BitVec.eq_of_toNat_eq
      rw [BitVec.toNat_setWidth, BitVec.toNat_ushiftRight, BitVec.toNat_shiftLeft,
        toNat_significand, ← hf, BitVec.ofInt_natCast, BitVec.toNat_ofNat, Nat.shiftLeft_eq,
        Nat.shiftRight_eq_div_pow, show e + 32 - (1023 + 52) = e - 1043 by omega]
      generalize (2 ^ 52 + f) * 2 ^ (e - 1043) = n
      omega
    rw [hr]
    split_ifs
    · rw [← BitVec.ofInt_neg, BitVec.toInt_ofInt]
    · rw [BitVec.toInt_ofInt]
  · rw [if_neg hmid]
    by_cases hspecial : e = 2 ^ 11 - 1
    · rw [toInt32_of_special hspecial]
    have hdvd : (2 ^ 32 : ℤ) ∣ trunc (magnitude e f) := by
      have hsplit : e - 1043 = e - 1107 + 32 + 32 := by omega
      rw [trunc_magnitude (by omega), hsplit, pow_add, pow_add, ← mul_assoc,
        Nat.mul_div_cancel _ (Nat.two_pow_pos 32)]
      exact ⟨((2 ^ 52 + f) * 2 ^ (e - 1107) : ℕ), by push_cast; ring⟩
    rw [num_of_finite hspecial, ← he, ← hf, toInt32_signed, Int.bmod_eq_zero_of_dvd]
    split_ifs
    · exact (dvd_neg).2 hdvd
    · exact hdvd

/-! ### All conversions -/

/-- The conversions are right for every double but the one that is next to the largest integer: for
it a cast to an integer of 64 bits is out of range. -/
theorem conversions_iff (d : Double) :
    (njsNumberToInteger d = some (truncated (-2 ^ 63) (2 ^ 63 - 1) d.num) ∧
      njsNumberToInt32 d = some (toInt32 d.num) ∧
      njsNumberToLength d = some (truncated 0 maxLength d.num)) ↔
    d.num ≠ some (.finite (2 ^ 63)) := by
  rw [njsNumberToInteger_iff, njsNumberToInt32_eq, njsNumberToLength_eq]
  exact and_iff_left ⟨rfl, rfl⟩

/-- The cast of `2 ** 63`. -/
theorem not_conversions : ¬∀ d : Double,
    njsNumberToInteger d = some (truncated (-2 ^ 63) (2 ^ 63 - 1) d.num) ∧
      njsNumberToInt32 d = some (toInt32 d.num) ∧
      njsNumberToLength d = some (truncated 0 maxLength d.num) := by
  intro h
  have hcast : njsNumberToInteger 0x43e0000000000000#64 = none := by decide +kernel
  exact absurd (hcast.symm.trans (h 0x43e0000000000000#64).1) nofun

end Njs.Numbers
