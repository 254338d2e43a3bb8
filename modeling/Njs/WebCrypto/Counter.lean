import Mathlib.Tactic.IntervalCases
import Mathlib.Tactic.Ring
import Njs.Lib.TwosComplement

/-!
# AES-CTR

`njs_cipher_aes_ctr` over any block cipher. The counter mode of OpenSSL counts through whole blocks,
modulo `2 ^ 128`; a counter of fewer bits that wraps around is got by two runs of it.

OpenSSL takes lengths of type `int` and refuses negative ones. Reads past the data and an overflow
of the sum of two lengths are undefined.
-/

namespace Njs.WebCrypto.Ctr

abbrev Block : Type := { l : Bytes // l.length = 16 }

/-- `BN_bin2bn`: the number of some bytes, the most significant one first. -/
def bnBin2bn (l : Bytes) : ℕ := leValue l.reverse

/-- The block of a number modulo `2 ^ 128`. -/
def Block.ofNat (n : ℕ) : Block := ⟨(leBytes 16 n).reverse, by simp⟩

def Block.byte (b : Block) (k : ℕ) : UInt8 :=
  b.1.get (Fin.cast b.2.symm ⟨k % 16, Nat.mod_lt k (by decide)⟩)

/-- What is encrypted is a buffer or a string. -/
abbrev Data : Type := { l : Bytes // l.length < 2 ^ 32 }

/-- What ends a call: an exception, or what is undefined. -/
inductive Stop
  | thrown (message : String)
  | overread
  | overflow

/-! ### The code -/

def njsCeilDiv (dend dsor : UInt64) : UInt64 :=
  if dsor = 0 then 0 else 1 + (dend - 1) / dsor

def njsBnCounter128 (ctr : Block) (bits : ℕ) : ℕ :=
  let remainder := bits % 8
  if remainder = 0 then bnBin2bn (ctr.1.drop (16 - bits / 8))
  else
    let bytes := (njsCeilDiv (UInt64.ofNat bits) 8).toNat
    let buf := ctr.1.drop (16 - bytes)
    bnBin2bn (buf.modifyHead (· &&& ~~~(0xff <<< UInt8.ofNat remainder)))

def njsCounter128Reset (src : Block) (bits : ℕ) : Bytes :=
  let bytes := bits / 8
  let remainder := bits % 8
  let index := 16 - bytes
  let dst := src.1.take index ++ List.replicate bytes 0
  if remainder ≠ 0 then dst.modify (index - 1) (· &&& (0xff <<< UInt8.ofNat remainder)) else dst

section

variable (E : Block → Block)

def ctrMode (counter : ℕ) (data : Bytes) : Bytes :=
  data.mapIdx fun k b => b ^^^ (E (.ofNat (counter + k / 16))).byte k

/-- `njs_cipher_aes_ctr128` on the data from a place on. -/
def njsCipherAesCtr128 (data : Bytes) (dlen : UInt64) (counter : Bytes) : Except Stop Bytes :=
  let inl := (dlen.toBitVec.setWidth 32).toInt
  if inl < 0 then throw (.thrown "EVP_EncryptUpdate() failed")
  else if data.length < inl then throw .overread
  else return ctrMode E (bnBin2bn counter) (data.take inl.toNat)

/-- The runs of `njs_cipher_aes_ctr`. -/
def cipherRuns (data : Data) (iv : Block) (length : ℕ) : Except Stop Bytes :=
  let total := 2 ^ length
  let ctr := njsBnCounter128 iv length
  let dataLength := UInt64.ofNat data.1.length
  let blocks := (njsCeilDiv dataLength 16).toNat
  if total < blocks then throw (.thrown "AES-CTR repeated counter")
  else
    let left := total - ctr
    if blocks ≤ left then njsCipherAesCtr128 E data.1 dataLength iv.1
    else do
      let size1 := UInt64.ofNat left * 16
      let first ← njsCipherAesCtr128 E data.1 size1 iv.1
      let second ← njsCipherAesCtr128 E (data.1.drop size1.toNat) (dataLength - size1)
        (njsCounter128Reset iv length)
      if 2 ^ 31 ≤ first.length + second.length then throw .overflow else return first ++ second

/-- `njs_cipher_aes_ctr`, for the length of the key and the two properties of the options. What is
encrypted is decrypted in the same way. -/
def njsCipherAesCtr (keyLength : ℕ) (data : Data) (counter : Option Bytes) (length : Option ℤ) :
    Except Stop Bytes :=
  if keyLength ≠ 16 ∧ keyLength ≠ 24 ∧ keyLength ≠ 32 then
    throw (.thrown "AES-CTR Invalid key length")
  else
    match counter with
    | none => throw (.thrown "AES-CTR algorithm.counter is not provided")
    | some iv =>
      if h : iv.length = 16 then
        match length with
        | none => throw (.thrown "AES-CTR algorithm.length is not provided")
        | some length =>
          if length = 0 ∨ 128 < length then
            throw (.thrown "AES-CTR algorithm.length must be between 1 and 128")
          else if length < 0 then throw (.thrown "BN_lshift() failed")
          else cipherRuns E data ⟨iv, h⟩ length.toNat
      else throw (.thrown "AES-CTR algorithm.counter must be 16 bytes long")

/-! ### What it is for -/

/-- The counter block `i` of a counter in the last bits of a block. -/
def counterBlock (c : Block) (length i : ℕ) : Block :=
  let n := bnBin2bn c.1
  .ofNat (n / 2 ^ length * 2 ^ length + (n + i) % 2 ^ length)

def encrypted (c : Block) (length : ℕ) (data : Bytes) : Bytes :=
  data.mapIdx fun k b => b ^^^ (E (counterBlock c length (k / 16))).byte k

theorem length_encrypted (c : Block) (length : ℕ) (data : Bytes) :
    (encrypted E c length data).length = data.length := List.length_mapIdx

/-- The encryption is right, and so is the decryption of what it gives. There is an exception
exactly if the counter does not suffice. -/
def Right (keyLength : ℕ) (data : Data) (c : Block) (length : ℕ) : Prop :=
  if (data.1.length + 15) / 16 ≤ 2 ^ length then
    njsCipherAesCtr E keyLength data (some c.1) (some length) = .ok (encrypted E c length data.1) ∧
      njsCipherAesCtr E keyLength
        ⟨encrypted E c length data.1, (length_encrypted E c length data.1).trans_lt data.2⟩
        (some c.1) (some length) = .ok data.1
  else
    ∃ message, njsCipherAesCtr E keyLength data (some c.1) (some length) = .error (.thrown message)

end

/-! ### Numbers of blocks -/

theorem leValue_append (a b : Bytes) :
    leValue (a ++ b) = leValue a + 256 ^ a.length * leValue b := by
  induction a with
  | nil => simp [leValue]
  | cons x a ih =>
    rw [List.cons_append, leValue, leValue, ih, List.length_cons, Nat.pow_succ]
    ring

theorem bnBin2bn_append (a b : Bytes) :
    bnBin2bn (a ++ b) = bnBin2bn a * 256 ^ b.length + bnBin2bn b := by
  rw [bnBin2bn, List.reverse_append, leValue_append, List.length_reverse, bnBin2bn, bnBin2bn]
  ring

theorem bnBin2bn_lt (l : Bytes) : bnBin2bn l < 256 ^ l.length := by
  simpa [bnBin2bn] using leValue_lt l.reverse

theorem bnBin2bn_cons (b : UInt8) (l : Bytes) :
    bnBin2bn (b :: l) = b.toNat * 256 ^ l.length + bnBin2bn l := by
  rw [← List.singleton_append, bnBin2bn_append]
  simp [bnBin2bn, leValue]

theorem bnBin2bn_zeros (k : ℕ) : bnBin2bn (List.replicate k 0) = 0 := by
  induction k with
  | zero => rfl
  | succ k ih => rw [List.replicate_succ, bnBin2bn_cons, ih]; simp

/-- The byte of a counter that belongs to it in part. -/
theorem and_mask {r : ℕ} (hr : r < 8) (b : UInt8) :
    (b &&& ~~~(0xff <<< UInt8.ofNat r)).toNat = b.toNat % 2 ^ r ∧
      (b &&& (0xff <<< UInt8.ofNat r)).toNat = b.toNat / 2 ^ r * 2 ^ r := by
  interval_cases r <;> revert b <;> exact Text.forall_byte (by decide +kernel)

theorem njsCeilDiv_eight {k r : ℕ} (hk : k < 16) (hr : 0 < r) (hr8 : r < 8) :
    (njsCeilDiv (UInt64.ofNat (8 * k + r)) 8).toNat = k + 1 := by
  interval_cases r <;> interval_cases k <;> rfl

/-- A block is cut at a byte. -/
theorem exists_byte (c : Block) {k : ℕ} (hk : k < 16) :
    ∃ s b t, c.1 = s ++ b :: t ∧ s.length = 15 - k ∧ t.length = k := by
  have hlen := c.2
  rcases hdrop : c.1.drop (15 - k) with _ | ⟨b, t⟩
  · have := congrArg List.length hdrop
    rw [List.length_drop, List.length_nil] at this
    omega
  · have ht := congrArg List.length hdrop
    rw [List.length_drop, List.length_cons] at ht
    refine ⟨c.1.take (15 - k), b, t, ?_, by rw [List.length_take]; omega, by omega⟩
    rw [← hdrop, List.take_append_drop]

theorem bnBin2bn_cut {s t : Bytes} {b : UInt8} {k : ℕ} (ht : t.length = k) :
    bnBin2bn (s ++ b :: t) = 256 ^ k * (256 * bnBin2bn s + b.toNat) + bnBin2bn t := by
  rw [bnBin2bn_append, bnBin2bn_cons, List.length_cons, ht, Nat.pow_succ]
  ring

theorem cut_div_mod {p t n : ℕ} (ht : t < p) : (p * n + t) % p = t ∧ (p * n + t) / p = n := by
  have hp : 0 < p := by omega
  exact ⟨by rw [Nat.mul_add_mod, Nat.mod_eq_of_lt ht],
    by rw [Nat.mul_add_div hp, Nat.div_eq_of_lt ht, Nat.add_zero]⟩

theorem cut_byte {r : ℕ} (hr : r < 8) (n b : ℕ) : (256 * n + b) % 2 ^ r = b % 2 ^ r ∧
      (256 * n + b) / 2 ^ r * 2 ^ r = 256 * n + b / 2 ^ r * 2 ^ r := by
  interval_cases r <;> omega

theorem exists_bits (length : ℕ) : ∃ k r, r < 8 ∧ length = 8 * k + r ∧
    2 ^ (8 * k + r) = 256 ^ k * 2 ^ r ∧ (8 * k + r) % 8 = r ∧ (8 * k + r) / 8 = k :=
  ⟨length / 8, length % 8, Nat.mod_lt _ (by decide), (Nat.div_add_mod _ _).symm,
    by rw [Nat.pow_add, Nat.pow_mul], by omega, by omega⟩

theorem bnBin2bn_split (c : Block) {k : ℕ} (hk : k ≤ 16) : (c.1.drop (16 - k)).length = k ∧
    bnBin2bn c.1 = 256 ^ k * bnBin2bn (c.1.take (16 - k)) + bnBin2bn (c.1.drop (16 - k)) ∧
      bnBin2bn (c.1.drop (16 - k)) < 256 ^ k := by
  have hlen : (c.1.drop (16 - k)).length = k := by
    have := c.2
    rw [List.length_drop]
    omega
  have hc := bnBin2bn_append (c.1.take (16 - k)) (c.1.drop (16 - k))
  have hlt := bnBin2bn_lt (c.1.drop (16 - k))
  rw [List.take_append_drop, hlen, Nat.mul_comm] at hc
  rw [hlen] at hlt
  exact ⟨hlen, hc, hlt⟩

section

variable (c : Block) {length : ℕ} (hlength : length ≤ 128)
include hlength

theorem njsBnCounter128_eq : njsBnCounter128 c length = bnBin2bn c.1 % 2 ^ length := by
  obtain ⟨k, r, hr8, rfl, hpow, hmod, hdiv⟩ := exists_bits length
  rw [njsBnCounter128, hmod, hdiv, hpow]
  by_cases hr : r = 0
  · subst hr
    obtain ⟨hlen, hc, hlt⟩ := bnBin2bn_split c (show k ≤ 16 by omega)
    rw [if_pos rfl, hc, Nat.pow_zero, Nat.mul_one, (cut_div_mod hlt).1]
  have hk : k < 16 := by omega
  obtain ⟨s, b, t, hc, hs, ht⟩ := exists_byte c hk
  have hlt := bnBin2bn_lt t
  rw [ht] at hlt
  simp only [if_neg hr, njsCeilDiv_eight hk (Nat.pos_of_ne_zero hr) hr8]
  rw [hc, show 16 - (k + 1) = s.length by omega, List.drop_left, List.modifyHead_cons,
    bnBin2bn_cons, (and_mask hr8 b).1, ht, bnBin2bn_cut ht, Nat.mod_mul, (cut_div_mod hlt).1,
    (cut_div_mod hlt).2, (cut_byte hr8 _ _).1]
  ring

theorem bnBin2bn_njsCounter128Reset :
    bnBin2bn (njsCounter128Reset c length) = bnBin2bn c.1 / 2 ^ length * 2 ^ length := by
  obtain ⟨k, r, hr8, rfl, hpow, hmod, hdiv⟩ := exists_bits length
  rw [njsCounter128Reset, hmod, hdiv, hpow]
  by_cases hr : r = 0
  · subst hr
    obtain ⟨hlen, hc, hlt⟩ := bnBin2bn_split c (show k ≤ 16 by omega)
    rw [if_neg (by simp), hc, Nat.pow_zero, Nat.mul_one, (cut_div_mod hlt).2, bnBin2bn_append,
      bnBin2bn_zeros, List.length_replicate, Nat.add_zero]
  have hk : k < 16 := by omega
  obtain ⟨s, b, t, hc, hs, ht⟩ := exists_byte c hk
  have hlt := bnBin2bn_lt t
  rw [ht] at hlt
  have htake : c.1.take (16 - k) = s ++ [b] := by
    rw [hc, ← List.singleton_append, ← List.append_assoc, List.take_left']
    rw [List.length_append, List.length_singleton]
    omega
  rw [if_pos hr, htake, show 16 - k - 1 = s.length by omega, List.append_assoc,
    List.singleton_append, List.modify_eq_take_cons_drop (by simp)]
  simp only [List.take_left, List.getElem_append_right le_rfl, Nat.sub_self,
    List.getElem_cons_zero, List.drop_length_add_append, List.drop_succ_cons, List.drop_zero]
  rw [bnBin2bn_cut List.length_replicate, bnBin2bn_zeros, (and_mask hr8 b).2, hc,
    bnBin2bn_cut ht, ← Nat.div_div_eq_div_mul, (cut_div_mod hlt).2,
      Nat.mul_comm (256 ^ k) (2 ^ r),
    ← Nat.mul_assoc, (cut_byte hr8 _ _).2]
  ring

end

/-! ### The runs -/

theorem counterBlock_low {c : Block} {length i : ℕ}
    (hi : i < 2 ^ length - bnBin2bn c.1 % 2 ^ length) :
    counterBlock c length i = .ofNat (bnBin2bn c.1 + i) := by
  have h := Nat.div_add_mod' (bnBin2bn c.1) (2 ^ length)
  have hadd : (bnBin2bn c.1 + i) % 2 ^ length = bnBin2bn c.1 % 2 ^ length + i := by
    rw [Nat.add_mod, Nat.mod_eq_of_lt (b := 2 ^ length) (a := i) (by omega), Nat.mod_eq_of_lt]
    omega
  rw [counterBlock, hadd, ← Nat.add_assoc, h]

theorem counterBlock_high {c : Block} {length j : ℕ} (hj : j < 2 ^ length) :
    counterBlock c length (2 ^ length - bnBin2bn c.1 % 2 ^ length + j) =
      .ofNat (bnBin2bn c.1 / 2 ^ length * 2 ^ length + j) := by
  have h := Nat.div_add_mod' (bnBin2bn c.1) (2 ^ length)
  have hlt := Nat.mod_lt (bnBin2bn c.1) (Nat.two_pow_pos length)
  have hsum : bnBin2bn c.1 + (2 ^ length - bnBin2bn c.1 % 2 ^ length + j) =
      j + 2 ^ length * (bnBin2bn c.1 / 2 ^ length + 1) := by
    rw [Nat.mul_add, Nat.mul_one, Nat.mul_comm (2 ^ length)]
    omega
  rw [counterBlock, hsum, Nat.add_mul_mod_self_left, Nat.mod_eq_of_lt hj]

section

variable (E : Block → Block)

theorem encrypted_encrypted (c : Block) (length : ℕ) (data : Bytes) :
    encrypted E c length (encrypted E c length data) = data := by
  rw [encrypted, encrypted, List.mapIdx_mapIdx]
  refine (List.mapIdx_eq_iff.2 fun i => ?_)
  rcases data[i]? with _ | b
  · rfl
  · simp [UInt8.xor_assoc]

/-- The data before the counter wraps around. -/
theorem ctrMode_low {c : Block} {length : ℕ} {data : Bytes}
    (hdata : data.length ≤ 16 * (2 ^ length - bnBin2bn c.1 % 2 ^ length)) :
    ctrMode E (bnBin2bn c.1) data = encrypted E c length data := by
  refine List.mapIdx_eq_mapIdx_iff.2 fun i hi => ?_
  rw [counterBlock_low (by omega)]

/-- The data after it. -/
theorem ctrMode_high {c : Block} {length : ℕ} {first second : Bytes}
    (hfirst : first.length = 16 * (2 ^ length - bnBin2bn c.1 % 2 ^ length))
    (hsecond : second.length ≤ 16 * 2 ^ length) :
    encrypted E c length first ++ ctrMode E (bnBin2bn c.1 / 2 ^ length * 2 ^ length) second =
      encrypted E c length (first ++ second) := by
  rw [encrypted, encrypted, List.mapIdx_append, List.append_cancel_left_eq, ctrMode]
  refine List.mapIdx_eq_mapIdx_iff.2 fun i hi => ?_
  have hdiv : (i + first.length) / 16 = 2 ^ length - bnBin2bn c.1 % 2 ^ length + i / 16 := by omega
  have hbyte (b : Block) : b.byte (i + first.length) = b.byte i := by
    unfold Block.byte
    congr 3
    omega
  rw [hdiv, counterBlock_high (by omega), hbyte]

variable {data : Bytes} {dlen : UInt64} (counter : Bytes)

theorem njsCipherAesCtr128_ok (hdlen : dlen.toNat % 2 ^ 32 < 2 ^ 31)
    (hdata : dlen.toNat % 2 ^ 32 ≤ data.length) :
    njsCipherAesCtr128 E data dlen counter =
      .ok (ctrMode E (bnBin2bn counter) (data.take (dlen.toNat % 2 ^ 32))) := by
  have hint : (dlen.toBitVec.setWidth 32).toInt = (dlen.toNat % 2 ^ 32 : ℕ) := by
    rw [BitVec.toInt_eq_toNat_cond, BitVec.toNat_setWidth, UInt64.toNat_toBitVec, if_pos (by omega)]
  rw [njsCipherAesCtr128, hint, if_neg (by omega), if_neg (by omega), Int.toNat_natCast]
  rfl

theorem njsCipherAesCtr128_negative (hdlen : 2 ^ 31 ≤ dlen.toNat % 2 ^ 32) :
    njsCipherAesCtr128 E data dlen counter = .error (.thrown "EVP_EncryptUpdate() failed") := by
  have hlt := Nat.mod_lt dlen.toNat (show 0 < 2 ^ 32 by decide)
  have hint : (dlen.toBitVec.setWidth 32).toInt < 0 := by
    rw [BitVec.toInt_eq_toNat_cond, BitVec.toNat_setWidth, UInt64.toNat_toBitVec, if_neg (by omega)]
    omega
  rw [njsCipherAesCtr128, if_pos hint]
  rfl

theorem njsCipherAesCtr128_overread (hdlen : dlen.toNat % 2 ^ 32 < 2 ^ 31)
    (hdata : data.length < dlen.toNat % 2 ^ 32) :
    njsCipherAesCtr128 E data dlen counter = .error .overread := by
  have hint : (dlen.toBitVec.setWidth 32).toInt = (dlen.toNat % 2 ^ 32 : ℕ) := by
    rw [BitVec.toInt_eq_toNat_cond, BitVec.toNat_setWidth, UInt64.toNat_toBitVec, if_pos (by omega)]
  rw [njsCipherAesCtr128, hint, if_neg (by omega), if_pos (by omega)]
  rfl

/-! ### A call -/

theorem njsCeilDiv_sixteen {n : ℕ} (hn : n < 2 ^ 32) (hne : n ≠ 0) :
    (njsCeilDiv (UInt64.ofNat n) 16).toNat = (n + 15) / 16 := by
  have h : (UInt64.ofNat n).toNat = n := by
    rw [UInt64.toNat_ofNat', Nat.mod_eq_of_lt (by omega)]
  have hsub : (UInt64.ofNat n - 1).toNat = n - 1 := by
    rw [UInt64.toNat_sub_of_le _ _ (UInt64.le_iff_toNat_le.2
      (by rw [h]; exact Nat.pos_of_ne_zero hne)),
      h]
    rfl
  rw [njsCeilDiv, if_neg (by decide), UInt64.toNat_add, UInt64.toNat_div, hsub]
  simp only [UInt64.reduceToNat]
  omega

variable {data : Data} {c : Block} {length keyLength : ℕ}

theorem njsCipherAesCtr_eq (hkey : keyLength = 16 ∨ keyLength = 24 ∨ keyLength = 32)
    (hlength : 1 ≤ length ∧ length ≤ 128) :
    njsCipherAesCtr E keyLength data (some c.1) (some length) = cipherRuns E data c length := by
  rw [njsCipherAesCtr, if_neg (by omega)]
  simp only [c.2, dite_true]
  rw [if_neg (by omega), if_neg (by omega)]
  rfl

/-- The data of at least `2 ^ 31` bytes are refused, or worse. -/
theorem cipherRuns_of_ne_nil (hlength : length ≤ 128) (hne : data.1 ≠ [])
    (hblocks : (data.1.length + 15) / 16 ≤ 2 ^ length) :
    cipherRuns E data c length = .ok (encrypted E c length data.1) ↔ data.1.length < 2 ^ 31 := by
  have hn : data.1.length ≠ 0 := fun h => hne (List.length_eq_zero_iff.1 h)
  have hlt := data.2
  have hof : (UInt64.ofNat data.1.length).toNat = data.1.length := by
    rw [UInt64.toNat_ofNat', Nat.mod_eq_of_lt (by omega)]
  have hctr := Nat.mod_lt (bnBin2bn c.1) (Nat.two_pow_pos length)
  simp only [cipherRuns, njsCeilDiv_sixteen hlt hn, njsBnCounter128_eq c hlength,
    if_neg (Nat.not_lt.2 hblocks)]
  generalize hleft : 2 ^ length - bnBin2bn c.1 % 2 ^ length = left
  split_ifs with hone
  · by_cases h : data.1.length < 2 ^ 31
    · have hlow : data.1.length ≤ 16 * (2 ^ length - bnBin2bn c.1 % 2 ^ length) := by omega
      rw [njsCipherAesCtr128_ok E _ (by rw [hof]; omega) (by rw [hof]; omega), hof,
        Nat.mod_eq_of_lt hlt, List.take_length, ctrMode_low E hlow]
      exact iff_of_true rfl h
    · rw [njsCipherAesCtr128_negative E _ (by rw [hof]; omega)]
      exact iff_of_false nofun h
  have hsize : (UInt64.ofNat left * 16).toNat = left * 16 := by
    rw [UInt64.toNat_mul, UInt64.toNat_ofNat', Nat.mod_eq_of_lt (a := left) (by omega)]
    exact Nat.mod_eq_of_lt (by simp only [UInt64.reduceToNat]; omega)
  have hrest : (UInt64.ofNat data.1.length - UInt64.ofNat left * 16).toNat =
      data.1.length - left * 16 := by
    rw [UInt64.toNat_sub_of_le _ _ (UInt64.le_iff_toNat_le.2 (by rw [hof, hsize]; omega)), hof,
      hsize]
  rw [hsize]
  by_cases hfirst : left * 16 < 2 ^ 31
  · rw [njsCipherAesCtr128_ok E _ (by rw [hsize]; omega) (by rw [hsize]; omega), hsize,
      Nat.mod_eq_of_lt (a := left * 16) (by omega)]
    have htake : (data.1.take (left * 16)).length =
        16 * (2 ^ length - bnBin2bn c.1 % 2 ^ length) := by
      rw [List.length_take]
      omega
    have hdrop : (data.1.drop (left * 16)).length = data.1.length - left * 16 := List.length_drop
    by_cases hsecond : data.1.length - left * 16 < 2 ^ 31
    · rw [njsCipherAesCtr128_ok E _ (by rw [hrest]; omega) (by rw [hrest, hdrop]; omega), hrest,
        Nat.mod_eq_of_lt (a := data.1.length - left * 16) (by omega), ← hdrop, List.take_length,
        bnBin2bn_njsCounter128Reset c hlength, ctrMode_low E htake.le]
      have hsum : (encrypted E c length (data.1.take (left * 16))).length +
          (ctrMode E (bnBin2bn c.1 / 2 ^ length * 2 ^ length)
            (data.1.drop (left * 16))).length = data.1.length := by
        rw [length_encrypted, ctrMode, List.length_mapIdx, htake, hdrop]
        omega
      simp only [bind, Except.bind, hsum]
      by_cases h : data.1.length < 2 ^ 31
      · rw [if_neg (by omega), ctrMode_high E htake (by omega), List.take_append_drop]
        exact iff_of_true rfl h
      · rw [if_pos (by omega)]
        exact iff_of_false nofun h
    · rw [njsCipherAesCtr128_negative E _ (by rw [hrest]; omega)]
      exact iff_of_false nofun (by omega)
  · rw [njsCipherAesCtr128_negative E _ (by rw [hsize]; omega)]
    exact iff_of_false nofun (by omega)

/-- Of no data, there is an exception for a counter of less than 60 bits. -/
theorem cipherRuns_of_eq_nil (hlength : length ≤ 128) (hnil : data.1 = []) :
    cipherRuns E data c length = .ok (encrypted E c length data.1) ↔
      2 ^ 60 ≤ 2 ^ length ∧ (2 ^ 60 ≤ 2 ^ length - bnBin2bn c.1 % 2 ^ length ∨
        2 ^ 28 ∣ 2 ^ length - bnBin2bn c.1 % 2 ^ length) := by
  have hblocks : (njsCeilDiv (UInt64.ofNat ([] : Bytes).length) 16).toNat = 2 ^ 60
    := by decide +kernel
  simp only [cipherRuns, hnil, hblocks, njsBnCounter128_eq c hlength]
  generalize 2 ^ length - bnBin2bn c.1 % 2 ^ length = left
  by_cases htotal : 2 ^ 60 ≤ 2 ^ length
  · rw [if_neg (by omega)]
    split_ifs with hone
    · rw [njsCipherAesCtr128_ok E _ (by decide) (by decide)]
      exact iff_of_true rfl ⟨htotal, .inl hone⟩
    have hsize : (UInt64.ofNat left * 16).toNat = left * 16 := by
      rw [UInt64.toNat_mul, UInt64.toNat_ofNat', Nat.mod_eq_of_lt (a := left) (by omega)]
      exact Nat.mod_eq_of_lt (by simp only [UInt64.reduceToNat]; omega)
    by_cases hdvd : 2 ^ 28 ∣ left
    · have hzero : (UInt64.ofNat left * 16).toNat % 2 ^ 32 = 0 := by omega
      have hrest : (UInt64.ofNat ([] : Bytes).length - UInt64.ofNat left * 16).toNat % 2 ^ 32 =
          0 := by
        rw [UInt64.toNat_sub, hsize, List.length_nil, UInt64.toNat_ofNat', Nat.zero_mod]
        omega
      rw [njsCipherAesCtr128_ok E _ (by omega) (by omega), hzero,
        njsCipherAesCtr128_ok E _ (by omega) (by omega), hrest]
      exact iff_of_true rfl ⟨htotal, .inr hdvd⟩
    refine iff_of_false ?_ fun h => h.2.elim (by omega) hdvd
    by_cases hneg : left * 16 % 2 ^ 32 < 2 ^ 31
    · rw [njsCipherAesCtr128_overread E _ (by omega) (by simp only [List.length_nil]; omega)]
      nofun
    · rw [njsCipherAesCtr128_negative E _ (by omega)]
      nofun
  · rw [if_pos (by omega)]
    exact iff_of_false nofun fun h => htotal h.1

theorem cipherRuns_repeated (hne : data.1 ≠ []) (hblocks : 2 ^ length < (data.1.length + 15) / 16) :
    cipherRuns E data c length = .error (.thrown "AES-CTR repeated counter") := by
  have hn : data.1.length ≠ 0 := fun h => hne (List.length_eq_zero_iff.1 h)
  simp only [cipherRuns, njsCeilDiv_sixteen data.2 hn, if_pos hblocks]
  rfl

/-- A cipher that adds one to the first byte. -/
def nextBlock (b : Block) : Block := ⟨b.1.modifyHead (· + 1), by rw [List.length_modifyHead, b.2]⟩

end

end Njs.WebCrypto.Ctr
