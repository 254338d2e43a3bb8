import Mathlib.Algebra.Order.Ring.Int
import Mathlib.Data.Nat.Bitwise
import Njs.Lib.Text

/-!
# Numbers in memory

The bytes of a number, the least significant one first.
-/

/-- The bytes of a number, the least significant one first. -/
def leBytes : ℕ → ℕ → Bytes
  | 0, _ => []
  | k + 1, n => UInt8.ofNat n :: leBytes k (n / 256)

@[simp] theorem length_leBytes (k n : ℕ) : (leBytes k n).length = k := by
  induction k generalizing n with
  | zero => rfl
  | succ k ih => rw [leBytes, List.length_cons, ih]

theorem leBytes_mod_eq {k n m : ℕ} (h : leBytes k n = leBytes k m) : n % 256 ^ k = m % 256 ^ k := by
  induction k generalizing n m with
  | zero => rw [Nat.pow_zero, Nat.mod_one, Nat.mod_one]
  | succ k ih =>
    rw [leBytes, leBytes, List.cons.injEq] at h
    have hlow : n % 256 = m % 256 := by
      have hbyte := congrArg UInt8.toNat h.1
      rwa [UInt8.toNat_ofNat', UInt8.toNat_ofNat'] at hbyte
    have hhigh := ih h.2
    rw [Nat.pow_succ, Nat.mul_comm, Nat.mod_mul, Nat.mod_mul, hlow, hhigh]

theorem leBytes_inj {k n m : ℕ} (hn : n < 256 ^ k) (hm : m < 256 ^ k)
    (h : leBytes k n = leBytes k m) : n = m := by
  have hmod := leBytes_mod_eq h
  rwa [Nat.mod_eq_of_lt hn, Nat.mod_eq_of_lt hm] at hmod

/-!
## Integers of a fixed width

An integer of some width is stored as a number below a power of two, its two's complement.
-/

/-- The number that bytes stand for, the least significant one first. -/
def leValue : Bytes → ℕ
  | [] => 0
  | b :: l => b.toNat + 256 * leValue l

theorem leValue_lt (l : Bytes) : leValue l < 256 ^ l.length := by
  induction l with
  | nil => exact Nat.one_pos
  | cons b l ih =>
    have hb := b.toNat_lt
    rw [leValue, List.length_cons, Nat.pow_succ]
    omega

theorem leValue_leBytes (k n : ℕ) : leValue (leBytes k n) = n % 256 ^ k := by
  induction k generalizing n with
  | zero => rw [leBytes, leValue, Nat.pow_zero, Nat.mod_one]
  | succ k ih =>
    have hmod : n % 256 ^ (k + 1) = n % 256 + 256 * (n / 256 % 256 ^ k) := by
      rw [Nat.pow_succ', Nat.mod_mul]
    rw [leBytes, leValue, ih, UInt8.toNat_ofNat', hmod]

theorem leBytes_leValue (l : Bytes) : leBytes l.length (leValue l) = l := by
  induction l with
  | nil => rfl
  | cons b l ih =>
    have hb := b.toNat_lt
    have hdiv : (b.toNat + 256 * leValue l) / 256 = leValue l := by omega
    have hmod : UInt8.ofNat (b.toNat + 256 * leValue l) = b := by
      rw [← UInt8.toNat_inj, UInt8.toNat_ofNat']
      omega
    rw [List.length_cons, leValue, leBytes, hdiv, hmod, ih]

namespace TwosComplement

/-- The integers of a width. -/
def Fits (signed : Bool) (bits : ℕ) (v : ℤ) : Prop :=
  if signed then -2 ^ (bits - 1) ≤ v ∧ v < 2 ^ (bits - 1) else 0 ≤ v ∧ v < 2 ^ bits

instance (signed : Bool) (bits : ℕ) (v : ℤ) : Decidable (Fits signed bits v) :=
  inferInstanceAs (Decidable (if signed then _ else _))

theorem fits_unsigned {bits : ℕ} {v : ℤ} : Fits false bits v ↔ 0 ≤ v ∧ v < 2 ^ bits := by
  rw [Fits, if_neg Bool.false_ne_true]

theorem fits_signed {k : ℕ} {v : ℤ} : Fits true (k + 1) v ↔ -2 ^ k ≤ v ∧ v < 2 ^ k := by
  rw [Fits, if_pos rfl, Nat.add_sub_cancel]

/-- The two's complement of an integer. -/
def toBits (bits : ℕ) (v : ℤ) : ℕ := (v % 2 ^ bits).toNat

/-- The integer of a two's complement. -/
def ofBits (signed : Bool) (bits n : ℕ) : ℤ :=
  if signed ∧ 2 ^ (bits - 1) ≤ n then n - 2 ^ bits else n

theorem toBits_lt (bits : ℕ) (v : ℤ) : toBits bits v < 2 ^ bits := by
  have hpos : (0 : ℤ) < 2 ^ bits := pow_pos two_pos bits
  have hlt := Int.emod_lt_of_pos v hpos
  have hcast : ((2 ^ bits : ℕ) : ℤ) = 2 ^ bits := by push_cast; rfl
  rw [toBits]
  omega

theorem ofBits_toBits {signed : Bool} {bits : ℕ} {v : ℤ} (hbits : 0 < bits)
    (hv : Fits signed bits v) : ofBits signed bits (toBits bits v) = v := by
  obtain ⟨k, rfl⟩ := Nat.exists_eq_add_of_lt hbits
  rw [Nat.zero_add] at hv ⊢
  have hk : (0 : ℤ) < 2 ^ k := pow_pos two_pos k
  have hpow : (2 : ℤ) ^ (k + 1) = 2 ^ k * 2 := pow_succ 2 k
  rw [Fits, Nat.add_sub_cancel, hpow] at hv
  have hcases : v % 2 ^ (k + 1) = v ∧ 0 ≤ v ∨ v % 2 ^ (k + 1) = v + 2 ^ (k + 1) ∧ v < 0 := by
    rw [hpow]
    by_cases hneg : v < 0
    · refine .inr ⟨?_, hneg⟩
      rw [← Int.add_emod_right, Int.emod_eq_of_lt] <;> split_ifs at hv <;> omega
    · refine .inl ⟨Int.emod_eq_of_lt ?_ ?_, ?_⟩ <;> split_ifs at hv <;> omega
  rw [toBits, ofBits, Nat.add_sub_cancel]
  have hcast : ((2 ^ k : ℕ) : ℤ) = 2 ^ k := by push_cast; rfl
  cases signed
  · rw [if_neg (by rintro ⟨h, -⟩; exact Bool.false_ne_true h)]
    rw [if_neg Bool.false_ne_true] at hv
    omega
  · rw [if_pos rfl] at hv
    split_ifs with h
    · omega
    · have hlow := not_and.1 h rfl
      omega

/-! ### Bytes -/

/-- The bytes of an integer, the least significant one first. -/
def bytesOf (k : ℕ) (v : ℤ) : Bytes := leBytes k (toBits (8 * k) v)

@[simp] theorem length_bytesOf (k : ℕ) (v : ℤ) : (bytesOf k v).length = k := length_leBytes _ _

theorem pow_eight_mul (k : ℕ) : 256 ^ k = 2 ^ (8 * k) := by rw [Nat.pow_mul]

theorem leValue_bytesOf (k : ℕ) (v : ℤ) : leValue (bytesOf k v) = toBits (8 * k) v := by
  rw [bytesOf, leValue_leBytes, pow_eight_mul, Nat.mod_eq_of_lt (toBits_lt _ _)]

theorem emod_byte_mul (v m : ℤ) (hm : 0 < m) : v % (256 * m) = v % 256 + 256 * (v / 256 % m) := by
  have hlow := Int.emod_lt_of_pos v (show (0 : ℤ) < 256 by decide)
  have hlow' := Int.emod_nonneg v (show (256 : ℤ) ≠ 0 by decide)
  have hhigh := Int.emod_lt_of_pos (v / 256) hm
  have hhigh' := Int.emod_nonneg (v / 256) hm.ne'
  have hv : v = v % 256 + 256 * (v / 256 % m) + 256 * m * (v / 256 / m) := by
    have h₁ := Int.emod_add_mul_ediv v 256
    have h₂ := Int.emod_add_mul_ediv (v / 256) m
    rw [Int.mul_assoc, Int.add_assoc, ← Int.mul_add, h₂, h₁]
  rw [hv, Int.add_mul_emod_self_left, ← hv]
  exact Int.emod_eq_of_lt (by omega) (by omega)

theorem bytesOf_succ (k : ℕ) (v : ℤ) :
    bytesOf (k + 1) v = UInt8.ofInt v :: bytesOf k (v >>> (8 : ℕ)) := by
  have hm : (0 : ℤ) < 2 ^ (8 * k) := pow_pos two_pos _
  have hpow : (2 : ℤ) ^ (8 * (k + 1)) = 256 * 2 ^ (8 * k) := by
    rw [Nat.mul_succ, pow_add, mul_comm]
    rfl
  have hmod := emod_byte_mul v _ hm
  have hnonneg := Int.emod_nonneg (v / 256) hm.ne'
  have hshift : v >>> (8 : ℕ) = v / 256 := Int.shiftRight_eq_div_pow v 8
  rw [bytesOf, bytesOf, leBytes, hshift]
  congr 1
  · rw [UInt8.ofInt, ← UInt8.toNat_inj, UInt8.toNat_ofNat', UInt8.toNat_ofNat', toBits, hpow, hmod]
    omega
  · congr 1
    rw [toBits, toBits, hpow, hmod]
    omega

/-! ### Sign extension -/

theorem and_two_pow_of_lt {x k : ℕ} (h : x < 2 ^ k) : x &&& 2 ^ k = 0 := by
  rw [Nat.and_two_pow, Nat.testBit_lt_two_pow h, Bool.toNat_false, Nat.zero_mul]

theorem and_two_pow_of_le {x k : ℕ} (h : 2 ^ k ≤ x) (hlt : x < 2 ^ (k + 1)) :
    x &&& 2 ^ k = 2 ^ k := by
  have hbit : x.testBit k = true := by
    rw [Nat.testBit_eq_decide_div_mod_eq]
    have hdiv : x / 2 ^ k = 1 := by
      rw [Nat.pow_succ] at hlt
      exact Nat.div_eq_of_lt_le (by omega) (by omega)
    rw [hdiv]
    rfl
  rw [Nat.and_two_pow, hbit, Bool.toNat_true, Nat.one_mul]

theorem or_signExtension {x k word : ℕ} (hk : k < word) (hx : x < 2 ^ (k + 1)) :
    x ||| ((x &&& 2 ^ k) * (2 ^ word - 1)) % 2 ^ word =
      if 2 ^ k ≤ x then x + (2 ^ word - 2 ^ (k + 1)) else x := by
  split_ifs with h
  · obtain ⟨d, rfl⟩ := Nat.exists_eq_add_of_lt hk
    have hpos : 0 < 2 ^ k := Nat.two_pow_pos k
    have hd : 0 < 2 ^ d := Nat.two_pow_pos d
    have hword : 2 ^ (k + d + 1) = 2 ^ d * 2 ^ (k + 1) := by rw [← Nat.pow_add]; congr 1; omega
    have hle : 2 ^ (k + 1) ≤ 2 ^ (k + d + 1) := Nat.pow_le_pow_right Nat.two_pos (by omega)
    have hsucc : 2 ^ (k + 1) = 2 ^ k * 2 := Nat.pow_succ 2 k
    -- What is added is the sign bit and all bits above it.
    have hmod : 2 ^ k * (2 ^ (k + d + 1) - 1) % 2 ^ (k + d + 1) = 2 ^ (k + d + 1) - 2 ^ k := by
      have hsplit : 2 ^ k * (2 ^ (k + d + 1) - 1) =
          2 ^ (k + d + 1) - 2 ^ k + 2 ^ (k + d + 1) * (2 ^ k - 1) := by
        have hmul := Nat.le_mul_of_pos_right (2 ^ (k + d + 1)) hpos
        rw [Nat.mul_sub_one, Nat.mul_sub_one, Nat.mul_comm]
        omega
      rw [hsplit, Nat.add_mul_mod_self_left, Nat.mod_eq_of_lt (by omega)]
    have hshift : 2 ^ (k + d + 1) - 2 ^ k = (2 ^ (d + 1) - 1) <<< k := by
      rw [Nat.shiftLeft_eq, Nat.sub_mul, ← Nat.pow_add, Nat.one_mul]
      congr 2
      omega
    have hlow : x - 2 ^ k < 2 ^ k := by omega
    have hx' : x = 1 <<< k ||| (x - 2 ^ k) := by
      rw [← Nat.shiftLeft_add_eq_or_of_lt hlow, Nat.shiftLeft_eq]
      omega
    have hone : (2 ^ (d + 1) - 1) ||| 1 = 2 ^ (d + 1) - 1 := by
      refine Nat.eq_of_testBit_eq fun i => ?_
      rw [Nat.testBit_or, Nat.testBit_two_pow_sub_one]
      rcases i with _ | i
      · simp
      · simp [Nat.testBit_succ]
    rw [and_two_pow_of_le h hx, hmod, hshift]
    calc x ||| (2 ^ (d + 1) - 1) <<< k = ((2 ^ (d + 1) - 1) ||| 1) <<< k ||| (x - 2 ^ k) := by
          rw [Nat.shiftLeft_or_distrib, Nat.or_assoc, ← hx', Nat.or_comm]
      _ = x + (2 ^ (k + d + 1) - 2 ^ (k + 1)) := by
          rw [hone, ← Nat.shiftLeft_add_eq_or_of_lt hlow, ← hshift]
          omega
  · rw [and_two_pow_of_lt (by omega), Nat.zero_mul, Nat.zero_mod, Nat.or_zero]

end TwosComplement
