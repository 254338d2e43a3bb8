import Njs.Buffer.Heap
import Njs.Lib.TwosComplement

/-!
# Integers in buffers

The methods that read and write an integer of one to six bytes. Two and four bytes are a word of
the machine, which is swapped if its byte order is not that of the method.
-/

namespace Njs.Buffer

open Arrays (IntegerOrInfinity)
open Arrays.NjsArray (njsNumberToInteger)
open TwosComplement

/-! ### The code -/

def njsBufferMagic (size : ℕ) (sign little : Bool) : ℕ :=
  (size <<< 2) ||| (sign.toNat <<< 1) ||| little.toNat

/-- `(size_t) njs_number(value)`. -/
def numberToSize (overflow : BitVec 64) : IntegerOrInfinity → ℕ
  | .integer n => if 0 ≤ n ∧ n < 2 ^ 64 then n.toNat else overflow.toNat
  | .infinity | .negInfinity => overflow.toNat

/-- The size of an integer. The methods that have none are given it as a last argument. -/
def intSize (overflow : BitVec 64) (magic : ℕ) (byteLength : Option IntegerOrInfinity) :
    Except Thrown ℕ :=
  let size := magic >>> 2
  if size = 0 then
    match byteLength with
    | none => .error (.typeError "\"byteLength\" is not a number")
    | some value =>
      let size := numberToSize overflow value
      if size = 0 ∨ 6 < size then .error (.typeError "\"byteLength\" must be >= 1 and <= 6")
      else .ok size
  else .ok size

def njsBswapU16 (u16 : ℕ) : ℕ := ((u16 >>> 8) ||| (u16 <<< 8)) % 2 ^ 16

def njsBswapU32 (u32 : ℕ) : ℕ :=
  ((u32 &&& 0xff000000) >>> 24) ||| ((u32 &&& 0x00ff0000) >>> 8) |||
    ((u32 &&& 0x0000ff00) <<< 8) ||| ((u32 &&& 0x000000ff) <<< 24)

variable (haveLittleEndian : Bool)

/-- A word of the machine, as `njs_get_u16` and `njs_get_u32` read it. -/
def loadWord (m : Memory) (p k : ℕ) : ℕ :=
  leValue (if haveLittleEndian then m.read p k else (m.read p k).reverse)

/-- `njs_set_u16` and `njs_set_u32`. -/
def storeWord (m : Memory) (p k n : ℕ) : Memory :=
  m.write p (if haveLittleEndian then leBytes k n else (leBytes k n).reverse)

/-- Whether the bytes of a word are swapped. -/
def swapped (little : Bool) : Bool := if haveLittleEndian then !little else little

/-- The sign of a number of `k + 1` bits is spread over a word. -/
def signExtended (k word u : ℕ) : ℕ := u ||| ((u &&& 2 ^ k) * (2 ^ word - 1)) % 2 ^ word

/-- A word as a signed integer of the machine. -/
def signedOf (bits u : ℕ) : ℤ := ofBits true bits (u % 2 ^ bits)

def readSwitch (sign little : Bool) (m : Memory) (u8 : ℕ) : ℕ → ℤ
  | 1 => if sign then signedOf 8 (m u8).toNat else (m u8).toNat
  | 2 =>
    let u32 := loadWord haveLittleEndian m u8 2
    let u32 := if swapped haveLittleEndian little then njsBswapU16 u32 else u32
    if sign then signedOf 16 (signExtended 15 32 u32) else u32
  | 3 =>
    let u32 := if little then
        ((m (u8 + 2)).toNat <<< 16) ||| ((m (u8 + 1)).toNat <<< 8) ||| (m u8).toNat
      else ((m u8).toNat <<< 16) ||| ((m (u8 + 1)).toNat <<< 8) ||| (m (u8 + 2)).toNat
    if sign then signedOf 32 (signExtended 23 32 u32) else u32
  | 4 =>
    let u32 := loadWord haveLittleEndian m u8 4
    let u32 := if swapped haveLittleEndian little then njsBswapU32 u32 else u32
    if sign then signedOf 32 (signExtended 31 32 u32) else u32
  | 5 =>
    let u64 := if little then
        ((m (u8 + 4)).toNat <<< 32) ||| ((m (u8 + 3)).toNat <<< 24) |||
          ((m (u8 + 2)).toNat <<< 16) ||| ((m (u8 + 1)).toNat <<< 8) ||| (m u8).toNat
      else ((m u8).toNat <<< 32) ||| ((m (u8 + 1)).toNat <<< 24) |||
        ((m (u8 + 2)).toNat <<< 16) ||| ((m (u8 + 3)).toNat <<< 8) ||| (m (u8 + 4)).toNat
    if sign then signedOf 64 (signExtended 39 64 u64) else u64
  | _ =>
    let u64 := if little then
        ((m (u8 + 5)).toNat <<< 40) ||| ((m (u8 + 4)).toNat <<< 32) |||
          ((m (u8 + 3)).toNat <<< 24) ||| ((m (u8 + 2)).toNat <<< 16) |||
          ((m (u8 + 1)).toNat <<< 8) ||| (m u8).toNat
      else ((m u8).toNat <<< 40) ||| ((m (u8 + 1)).toNat <<< 32) |||
        ((m (u8 + 2)).toNat <<< 24) ||| ((m (u8 + 3)).toNat <<< 16) |||
        ((m (u8 + 4)).toNat <<< 8) ||| (m (u8 + 5)).toNat
    if sign then signedOf 64 (signExtended 47 64 u64) else u64

/-- What both methods do first: the view, the index and the size. -/
def intArguments (overflow : BitVec 64) (this : TypedArray)
    (offset byteLength : Option IntegerOrInfinity) (magic : ℕ) :
    Except Thrown (TypedArray × ℕ × ℕ) := do
  let array ← njsBufferSlot this
  let index ← njsValueToIndex overflow offset
  let size ← intSize overflow magic byteLength
  if array.byteLength < size + index then
    throw (.rangeError ("index " ++ toString index ++ " is outside the bound of the buffer"))
  return (array, index, size)

def njsBufferPrototypeReadInt (overflow : BitVec 64) (h : Heap) (this : TypedArray)
    (offset byteLength : Option IntegerOrInfinity) (magic : ℕ) : Except Thrown ℤ := do
  let (array, index, size) ← intArguments overflow this offset byteLength magic
  let sign := (magic >>> 1) &&& 1 = 1
  let little := magic &&& 1 = 1
  match (h.buffer array.buffer).data with
  | none => throw (.typeError "detached buffer")
  | some d =>
    return readSwitch haveLittleEndian sign little (h.block d) (index + array.offset) size

/-- The integers that a width has, with its constants. -/
def checkRange (sign : Bool) (intMin intMax uintMax : ℤ) (bits : String) (i64 : ℤ) :
    Except Thrown Unit :=
  if sign then
    if i64 < intMin ∨ intMax < i64 then
      .error (.rangeError ("value is outside the range of a representable int" ++ bits))
    else .ok ()
  else if i64 < 0 ∨ uintMax < i64 then
    .error (.rangeError ("value is outside the range of a representable uint" ++ bits))
  else .ok ()

/-- `*u8++ = i64; i64 >>= 8`, some times. -/
def storeUp (m : Memory) (u8 : ℕ) : ℕ → ℤ → Memory
  | 0, _ => m
  | k + 1, i64 => storeUp (m.set u8 (UInt8.ofInt i64)) (u8 + 1) k (i64 >>> (8 : ℕ))

/-- `*u8-- = i64; i64 >>= 8`, some times, from the last byte on. -/
def storeDown (m : Memory) (u8 : ℕ) : ℕ → ℤ → Memory
  | 0, _ => m
  | k + 1, i64 => storeDown (m.set (u8 + k) (UInt8.ofInt i64)) u8 k (i64 >>> (8 : ℕ))

/-- The bytes that are written, by their size. -/
def writeSwitch (sign little : Bool) (m : Memory) (u8 : ℕ) (i64 : ℤ) : ℕ → Except Thrown Memory
  | 1 => do
    checkRange sign (-0x80) 0x7f 0xff "8" i64
    return m.set u8 (UInt8.ofInt i64)
  | 2 => do
    let u32 := toBits 16 i64
    checkRange sign (-0x8000) 0x7fff 0xffff "16" i64
    let u32 := if swapped haveLittleEndian little then njsBswapU16 u32 else u32
    return storeWord haveLittleEndian m u8 2 u32
  | 3 => do
    checkRange sign (-0x800000) 0x7fffff 0xffffff "24" i64
    return if little then storeUp m u8 3 i64 else storeDown m u8 3 i64
  | 4 => do
    checkRange sign (-0x80000000) 0x7fffffff 0xffffffff "32" i64
    let u32 := toBits 32 i64
    let u32 := if swapped haveLittleEndian little then njsBswapU32 u32 else u32
    return storeWord haveLittleEndian m u8 4 u32
  | 5 => do
    checkRange sign (-0x8000000000) 0x7fffffffff 0xffffffffff "40" i64
    return if little then storeUp m u8 5 i64 else storeDown m u8 5 i64
  | _ => do
    checkRange sign (-0x800000000000) 0x7fffffffffff 0xffffffffffff "48" i64
    return if little then storeUp m u8 6 i64 else storeDown m u8 6 i64

/-- `njs_buffer_prototype_write_int`, with the heap that it leaves. -/
def njsBufferPrototypeWriteInt (overflow : BitVec 64) (h : Heap) (this : TypedArray)
    (value : IntegerOrInfinity) (offset byteLength : Option IntegerOrInfinity) (magic : ℕ) :
    Except Thrown ℕ × Heap :=
  let i64 := njsNumberToInteger overflow value
  match intArguments overflow this offset byteLength magic with
  | .error e => (.error e, h)
  | .ok (array, index, size) =>
    let little := magic &&& 1 = 1
    let sign := (magic >>> 1) &&& 1 = 1
    match h.njsTypedArrayWritable array with
    | .error e => (.error e, h)
    | .ok (d, h) =>
      let u8 := index + array.offset
      match writeSwitch haveLittleEndian sign little (h.block d) u8 i64 size with
      | .error e => (.error e, h)
      | .ok m => (.ok (index + size), h.store d m)

/-! ### Words of the machine -/

/-- The bytes of an integer in one of the byte orders. -/
def encoded (little : Bool) (k : ℕ) (v : ℤ) : Bytes :=
  if little then bytesOf k v else (bytesOf k v).reverse

/-- The number of bytes in one of the byte orders. -/
def valueOf (little : Bool) (l : Bytes) : ℕ := leValue (if little then l else l.reverse)

@[simp] theorem length_encoded (little : Bool) (k : ℕ) (v : ℤ) :
    (encoded little k v).length = k := by
  rw [encoded]
  split_ifs
  · exact length_bytesOf k v
  · rw [List.length_reverse, length_bytesOf]

theorem valueOf_encoded (little : Bool) (k : ℕ) (v : ℤ) :
    valueOf little (encoded little k v) = toBits (8 * k) v := by
  rw [valueOf, encoded]
  split_ifs
  · exact leValue_bytesOf k v
  · rw [List.reverse_reverse, leValue_bytesOf]

theorem shiftLeft_or {b k : ℕ} (hb : b < 2 ^ k) (n : ℕ) : (n <<< k) ||| b = n * 2 ^ k + b := by
  rw [← Nat.shiftLeft_add_eq_or_of_lt hb, Nat.shiftLeft_eq]

theorem shiftLeft_or_byte {b : ℕ} (hb : b < 256) (n k : ℕ) :
    (n <<< (k + 8)) ||| (b <<< k) = (b + 256 * n) <<< k := by
  have hbyte := shiftLeft_or (k := 8) hb n
  rw [Nat.add_comm k 8, Nat.shiftLeft_add, ← Nat.shiftLeft_or_distrib, hbyte]
  congr 1
  omega

theorem and_byte (n k : ℕ) : n &&& (0xff <<< k) = (n / 2 ^ k % 256) <<< k := by
  rw [← Nat.shiftRight_eq_div_pow]
  refine Nat.eq_of_testBit_eq fun i => ?_
  rw [Nat.testBit_and, Nat.testBit_shiftLeft, Nat.testBit_shiftLeft,
    show (256 : ℕ) = 2 ^ 8 from rfl, Nat.testBit_mod_two_pow, Nat.testBit_shiftRight,
    show (0xff : ℕ) = 2 ^ 8 - 1 from rfl, Nat.testBit_two_pow_sub_one]
  by_cases hik : k ≤ i
  · rw [Nat.add_sub_cancel' hik]
    simp only [hik, decide_true, Bool.true_and, Bool.and_comm]
  · simp only [ge_iff_le, hik, decide_false, Bool.false_and, Bool.and_false]

theorem njsBswapU16_eq (b₀ b₁ : UInt8) : njsBswapU16 (leValue [b₀, b₁]) = leValue [b₁, b₀] := by
  have h₀ := b₀.toNat_lt
  have h₁ := b₁.toNat_lt
  simp only [leValue]
  have hlow : (b₀.toNat + 256 * (b₁.toNat + 256 * 0)) >>> 8 = b₁.toNat := by
    rw [Nat.shiftRight_eq_div_pow]
    omega
  rw [njsBswapU16, hlow, Nat.or_comm, shiftLeft_or (k := 8) h₁]
  omega

theorem njsBswapU32_eq (b₀ b₁ b₂ b₃ : UInt8) :
    njsBswapU32 (leValue [b₀, b₁, b₂, b₃]) = leValue [b₃, b₂, b₁, b₀] := by
  have h₀ := b₀.toNat_lt
  have h₁ := b₁.toNat_lt
  have h₂ := b₂.toNat_lt
  have h₃ := b₃.toNat_lt
  generalize hn : leValue [b₀, b₁, b₂, b₃] = n
  simp only [leValue] at hn ⊢
  have hbyte₀ : n &&& 0x000000ff = b₀.toNat <<< 0 :=
    (and_byte n 0).trans (congrArg (· <<< 0) (by omega))
  have hbyte₁ : n &&& 0x0000ff00 = b₁.toNat <<< 8 :=
    (and_byte n 8).trans (congrArg (· <<< 8) (by omega))
  have hbyte₂ : n &&& 0x00ff0000 = b₂.toNat <<< (8 + 8) :=
    (and_byte n 16).trans (congrArg (· <<< 16) (by omega))
  have hbyte₃ : n &&& 0xff000000 = b₃.toNat <<< 24 :=
    (and_byte n 24).trans (congrArg (· <<< 24) (by omega))
  rw [njsBswapU32, hbyte₀, hbyte₁, hbyte₂, hbyte₃, Nat.shiftLeft_shiftRight, Nat.shiftLeft_add,
    Nat.shiftLeft_shiftRight, ← Nat.shiftLeft_add, Nat.shiftLeft_zero]
  have horder : b₃.toNat ||| b₂.toNat <<< 8 ||| b₁.toNat <<< 16 ||| b₀.toNat <<< 24 =
      b₀.toNat <<< 24 ||| b₁.toNat <<< 16 ||| b₂.toNat <<< 8 ||| b₃.toNat := by
    simp only [Nat.or_comm, Nat.or_assoc]
  rw [horder, shiftLeft_or_byte h₁ _ 16, shiftLeft_or_byte h₂ _ 8, shiftLeft_or (k := 8) h₃]
  omega

theorem join_three (b₀ b₁ b₂ : UInt8) :
    (b₂.toNat <<< 16) ||| (b₁.toNat <<< 8) ||| b₀.toNat = leValue [b₀, b₁, b₂] := by
  rw [shiftLeft_or_byte b₁.toNat_lt _ 8, shiftLeft_or (k := 8) b₀.toNat_lt]
  simp only [leValue]
  omega

theorem join_five (b₀ b₁ b₂ b₃ b₄ : UInt8) :
    (b₄.toNat <<< 32) ||| (b₃.toNat <<< 24) ||| (b₂.toNat <<< 16) ||| (b₁.toNat <<< 8) |||
      b₀.toNat = leValue [b₀, b₁, b₂, b₃, b₄] := by
  rw [shiftLeft_or_byte b₃.toNat_lt _ 24, shiftLeft_or_byte b₂.toNat_lt _ 16,
    shiftLeft_or_byte b₁.toNat_lt _ 8, shiftLeft_or (k := 8) b₀.toNat_lt]
  simp only [leValue]
  omega

theorem join_six (b₀ b₁ b₂ b₃ b₄ b₅ : UInt8) :
    (b₅.toNat <<< 40) ||| (b₄.toNat <<< 32) ||| (b₃.toNat <<< 24) ||| (b₂.toNat <<< 16) |||
      (b₁.toNat <<< 8) ||| b₀.toNat = leValue [b₀, b₁, b₂, b₃, b₄, b₅] := by
  rw [shiftLeft_or_byte b₄.toNat_lt _ 32, shiftLeft_or_byte b₃.toNat_lt _ 24,
    shiftLeft_or_byte b₂.toNat_lt _ 16, shiftLeft_or_byte b₁.toNat_lt _ 8,
    shiftLeft_or (k := 8) b₀.toNat_lt]
  simp only [leValue]
  omega

/-! ### Reading -/

theorem signedOf_signExtended {k word bits u : ℕ} (hk : k < bits) (hbits : bits ≤ word)
    (hu : u < 2 ^ (k + 1)) : signedOf bits (signExtended k word u) = ofBits true (k + 1) u := by
  obtain ⟨d, rfl⟩ := Nat.exists_eq_add_of_le hbits
  obtain ⟨e, rfl⟩ := Nat.exists_eq_add_of_lt hk
  have hsucc : 2 ^ (k + 1) = 2 ^ k * 2 := Nat.pow_succ 2 k
  have hhalf : 2 ^ (k + e + 1) = 2 ^ (k + e) * 2 := Nat.pow_succ 2 (k + e)
  have hle : 2 ^ k ≤ 2 ^ (k + e) := Nat.pow_le_pow_right Nat.two_pos (Nat.le_add_right k e)
  have hmul : 2 ^ (k + e + 1 + d) = 2 ^ (k + e + 1) * 2 ^ d := Nat.pow_add 2 _ d
  have hd := Nat.mul_le_mul_left (2 ^ (k + e + 1)) (Nat.one_le_two_pow (n := d))
  have hcast (n : ℕ) : ((2 ^ n : ℕ) : ℤ) = 2 ^ n := by push_cast; rfl
  have hsuccCast := hcast (k + 1)
  have hhalfCast := hcast (k + e + 1)
  rw [signExtended, or_signExtension (by omega) hu, signedOf, ofBits, ofBits, Nat.add_sub_cancel,
    Nat.add_sub_cancel]
  by_cases hsign : 2 ^ k ≤ u
  · have hmod : (u + (2 ^ (k + e + 1 + d) - 2 ^ (k + 1))) % 2 ^ (k + e + 1) =
        u + (2 ^ (k + e + 1) - 2 ^ (k + 1)) := by
      have hsplit : u + (2 ^ (k + e + 1 + d) - 2 ^ (k + 1)) =
          u + (2 ^ (k + e + 1) - 2 ^ (k + 1)) + 2 ^ (k + e + 1) * (2 ^ d - 1) := by
        rw [Nat.mul_sub_one, hmul]
        omega
      rw [hsplit, Nat.add_mul_mod_self_left, Nat.mod_eq_of_lt (by omega)]
    rw [if_pos hsign, hmod, if_pos ⟨rfl, by omega⟩, if_pos ⟨rfl, hsign⟩]
    omega
  · rw [if_neg hsign, Nat.mod_eq_of_lt (by omega), if_neg fun h => absurd h.2 (by omega),
      if_neg fun h => hsign h.2]

theorem loadWord_two (little : Bool) (m : Memory) (u8 : ℕ) :
    (if swapped haveLittleEndian little then njsBswapU16 (loadWord haveLittleEndian m u8 2)
      else loadWord haveLittleEndian m u8 2) = valueOf little (m.read u8 2) := by
  cases haveLittleEndian <;> cases little
  all_goals simp only [swapped, loadWord, valueOf, Memory.read]
  · rfl
  · exact njsBswapU16_eq _ _
  · exact njsBswapU16_eq _ _
  · rfl

theorem loadWord_four (little : Bool) (m : Memory) (u8 : ℕ) :
    (if swapped haveLittleEndian little then njsBswapU32 (loadWord haveLittleEndian m u8 4)
      else loadWord haveLittleEndian m u8 4) = valueOf little (m.read u8 4) := by
  cases haveLittleEndian <;> cases little
  all_goals simp only [swapped, loadWord, valueOf, Memory.read]
  · rfl
  · exact njsBswapU32_eq _ _ _ _
  · exact njsBswapU32_eq _ _ _ _
  · rfl

theorem valueOf_lt (little : Bool) (m : Memory) (u8 k : ℕ) :
    valueOf little (m.read u8 k) < 2 ^ (8 * k) := by
  have hlt := leValue_lt (if little then m.read u8 k else (m.read u8 k).reverse)
  rw [valueOf, ← pow_eight_mul]
  split_ifs at hlt ⊢
  · rwa [Memory.length_read] at hlt
  · rwa [List.length_reverse, Memory.length_read] at hlt

theorem ofBits_false (bits n : ℕ) : ofBits false bits n = n :=
  if_neg fun h => Bool.false_ne_true h.1

theorem ite_signed (bits word : ℕ) {k u : ℕ} (hk : k < bits) (hbits : bits ≤ word)
    (hu : u < 2 ^ (k + 1)) (sign : Bool) :
    (if sign then signedOf bits (signExtended k word u) else u) = ofBits sign (k + 1) u := by
  cases sign
  · rw [ofBits_false, if_neg Bool.false_ne_true]
  · rw [if_pos rfl, signedOf_signExtended hk hbits hu]

theorem readSwitch_eq {width : ℕ} (hwidth : 1 ≤ width ∧ width ≤ 6) (sign little : Bool)
    (m : Memory) (u8 : ℕ) : readSwitch haveLittleEndian sign little m u8 width =
      ofBits sign (8 * width) (valueOf little (m.read u8 width)) := by
  have hlt := valueOf_lt little m u8
  obtain rfl | rfl | rfl | rfl | rfl | rfl :
      width = 1 ∨ width = 2 ∨ width = 3 ∨ width = 4 ∨ width = 5 ∨ width = 6 := by omega
  · have hvalue : valueOf little (m.read u8 1) = (m u8).toNat := by
      cases little <;> rfl
    rw [hvalue, readSwitch, signedOf, Nat.mod_eq_of_lt (m u8).toNat_lt]
    cases sign
    · rw [ofBits_false, if_neg Bool.false_ne_true]
    · rw [if_pos rfl]
  · rw [readSwitch, loadWord_two]
    exact ite_signed _ _ (by omega) (by omega) (hlt 2) sign
  · rw [← ite_signed 32 32 (by omega) (by omega) (hlt 3) sign]
    cases little
    · exact congrArg (fun u => if sign then signedOf 32 (signExtended 23 32 u) else u)
        (join_three _ _ _)
    · exact congrArg (fun u => if sign then signedOf 32 (signExtended 23 32 u) else u)
        (join_three _ _ _)
  · rw [readSwitch, loadWord_four]
    exact ite_signed _ _ (by omega) (by omega) (hlt 4) sign
  · rw [← ite_signed 64 64 (by omega) (by omega) (hlt 5) sign]
    cases little
    · exact congrArg (fun u => if sign then signedOf 64 (signExtended 39 64 u) else u)
        (join_five _ _ _ _ _)
    · exact congrArg (fun u => if sign then signedOf 64 (signExtended 39 64 u) else u)
        (join_five _ _ _ _ _)
  · rw [← ite_signed 64 64 (by omega) (by omega) (hlt 6) sign]
    cases little
    · exact congrArg (fun u => if sign then signedOf 64 (signExtended 47 64 u) else u)
        (join_six _ _ _ _ _ _)
    · exact congrArg (fun u => if sign then signedOf 64 (signExtended 47 64 u) else u)
        (join_six _ _ _ _ _ _)

/-! ### Writing -/

def rangeMessage (sign : Bool) (width : ℕ) : String :=
  (if sign then "value is outside the range of a representable int"
    else "value is outside the range of a representable uint") ++ toString (8 * width)

theorem checkRange_eq (sign : Bool) {k : ℕ} {intMin intMax uintMax : ℤ} (hmin : intMin = -2 ^ k)
    (hmax : intMax = 2 ^ k - 1) (humax : uintMax = 2 ^ (k + 1) - 1) (bits : String) (i64 : ℤ) :
    checkRange sign intMin intMax uintMax bits i64 =
      if Fits sign (k + 1) i64 then .ok ()
      else .error (.rangeError
        ((if sign then "value is outside the range of a representable int"
          else "value is outside the range of a representable uint") ++ bits)) := by
  subst hmin hmax humax
  rw [checkRange]
  cases sign
  · have hfits := @fits_unsigned (k + 1) i64
    rw [if_neg Bool.false_ne_true, if_neg Bool.false_ne_true]
    split_ifs with hout hfit hfit
    · have hin := hfits.1 hfit
      omega
    · rfl
    · rfl
    · exact absurd (hfits.2 (by omega)) hfit
  have hfits := @fits_signed k i64
  rw [if_pos rfl, if_pos rfl]
  split_ifs with hout hfit hfit
  · have hin := hfits.1 hfit
    omega
  · rfl
  · rfl
  · exact absurd (hfits.2 (by omega)) hfit

theorem check_bind {α : Type} {c : Prop} [Decidable c] (e : Thrown) (a : α) :
    ((if c then Except.ok () else .error e) >>= fun _ => pure a) =
      if c then Except.ok a else .error e := by
  split_ifs <;> rfl

theorem storeUp_eq (m : Memory) (u8 k : ℕ) (v : ℤ) :
    storeUp m u8 k v = m.write u8 (bytesOf k v) := by
  induction k generalizing m u8 v with
  | zero => exact (Memory.write_nil m u8).symm
  | succ k ih => rw [storeUp, ih, bytesOf_succ, Memory.write_cons]

theorem storeDown_eq (m : Memory) (u8 k : ℕ) (v : ℤ) :
    storeDown m u8 k v = m.write u8 (bytesOf k v).reverse := by
  induction k generalizing m v with
  | zero => exact (Memory.write_nil m u8).symm
  | succ k ih =>
    rw [storeDown, ih, bytesOf_succ, List.reverse_cons, Memory.write_concat, List.length_reverse,
      length_bytesOf]

theorem ite_store (little : Bool) (m : Memory) (u8 k : ℕ) (v : ℤ) :
    (if little then storeUp m u8 k v else storeDown m u8 k v) =
      m.write u8 (encoded little k v) := by
  rw [storeUp_eq, storeDown_eq, encoded]
  split_ifs <;> rfl

theorem storeWord_two (little : Bool) (m : Memory) (u8 : ℕ) (v : ℤ) :
    storeWord haveLittleEndian m u8 2
      (if swapped haveLittleEndian little then njsBswapU16 (toBits 16 v) else toBits 16 v) =
      m.write u8 (encoded little 2 v) := by
  rw [← leValue_bytesOf 2, encoded, storeWord]
  obtain ⟨b₀, b₁, hbytes⟩ := List.length_eq_two.1 (length_bytesOf 2 v)
  rw [hbytes, njsBswapU16_eq]
  cases haveLittleEndian <;> cases little
  · exact congrArg (fun l => m.write u8 (List.reverse l)) (leBytes_leValue [b₀, b₁])
  · exact congrArg (fun l => m.write u8 (List.reverse l)) (leBytes_leValue [b₁, b₀])
  · exact congrArg (m.write u8) (leBytes_leValue [b₁, b₀])
  · exact congrArg (m.write u8) (leBytes_leValue [b₀, b₁])

theorem storeWord_four (little : Bool) (m : Memory) (u8 : ℕ) (v : ℤ) :
    storeWord haveLittleEndian m u8 4
      (if swapped haveLittleEndian little then njsBswapU32 (toBits 32 v) else toBits 32 v) =
      m.write u8 (encoded little 4 v) := by
  rw [← leValue_bytesOf 4, encoded, storeWord]
  obtain ⟨b₀, b₁, b₂, b₃, hbytes⟩ : ∃ b₀ b₁ b₂ b₃, bytesOf 4 v = [b₀, b₁, b₂, b₃] :=
    ⟨_, _, _, _, rfl⟩
  rw [hbytes, njsBswapU32_eq]
  cases haveLittleEndian <;> cases little
  · exact congrArg (fun l => m.write u8 (List.reverse l)) (leBytes_leValue [b₀, b₁, b₂, b₃])
  · exact congrArg (fun l => m.write u8 (List.reverse l)) (leBytes_leValue [b₃, b₂, b₁, b₀])
  · exact congrArg (m.write u8) (leBytes_leValue [b₃, b₂, b₁, b₀])
  · exact congrArg (m.write u8) (leBytes_leValue [b₀, b₁, b₂, b₃])

theorem writeSwitch_eq {width : ℕ} (hwidth : 1 ≤ width ∧ width ≤ 6) (sign little : Bool)
    (m : Memory) (u8 : ℕ) (v : ℤ) : writeSwitch haveLittleEndian sign little m u8 v width =
      if Fits sign (8 * width) v then .ok (m.write u8 (encoded little width v))
      else .error (.rangeError (rangeMessage sign width)) := by
  obtain rfl | rfl | rfl | rfl | rfl | rfl :
      width = 1 ∨ width = 2 ∨ width = 3 ∨ width = 4 ∨ width = 5 ∨ width = 6 := by omega
  · have hbyte : m.set u8 (UInt8.ofInt v) = m.write u8 (encoded little 1 v) := by
      rw [← ite_store]
      cases little <;> rfl
    rw [writeSwitch, @checkRange_eq sign 7 (-0x80) 0x7f 0xff rfl rfl rfl, hbyte, check_bind]
    rfl
  · rw [writeSwitch, @checkRange_eq sign 15 (-0x8000) 0x7fff 0xffff rfl rfl rfl,
      check_bind, storeWord_two]
    rfl
  · rw [writeSwitch, @checkRange_eq sign 23 (-0x800000) 0x7fffff 0xffffff rfl rfl rfl,
      check_bind, ite_store]
    rfl
  · rw [writeSwitch, @checkRange_eq sign 31 (-0x80000000) 0x7fffffff 0xffffffff rfl rfl rfl,
      check_bind, storeWord_four]
    rfl
  · rw [writeSwitch, @checkRange_eq sign 39 (-0x8000000000) 0x7fffffffff 0xffffffffff rfl rfl rfl,
      check_bind, ite_store]
    rfl
  · rw [writeSwitch, @checkRange_eq sign 47 (-0x800000000000) 0x7fffffffffff 0xffffffffffff rfl rfl
      rfl, check_bind, ite_store]
    · rfl
    all_goals omega

end Njs.Buffer

/-!
## Integers that are written are read
-/

namespace Njs.Buffer

open Arrays (IntegerOrInfinity)
open Arrays.NjsArray (njsNumberToInteger)
open TwosComplement

/-- The methods for an integer of some width: that of the width, and the one that is given it. -/
inductive Magic (width : ℕ) (sign little : Bool) : ℕ → Option IntegerOrInfinity → Prop
  | fixed (byteLength : Option IntegerOrInfinity) :
    Magic width sign little (njsBufferMagic width sign little) byteLength
  | given : Magic width sign little (njsBufferMagic 0 sign little) (some (.integer width))

theorem njsBufferMagic_eq (size : ℕ) (sign little : Bool) :
    njsBufferMagic size sign little = size * 4 + (sign.toNat * 2 + little.toNat) := by
  have hlow : sign.toNat <<< 1 ||| little.toNat = sign.toNat * 2 + little.toNat :=
    shiftLeft_or little.toNat_lt _
  have hlt : sign.toNat * 2 + little.toNat < 2 ^ 2 := by
    have h₁ := sign.toNat_lt
    have h₂ := little.toNat_lt
    omega
  rw [njsBufferMagic, Nat.or_assoc, hlow]
  exact shiftLeft_or hlt size

theorem parts_njsBufferMagic (size : ℕ) (sign little : Bool) :
    njsBufferMagic size sign little >>> 2 = size ∧
      ((njsBufferMagic size sign little >>> 1) &&& 1 = 1 ↔ sign = true) ∧
      (njsBufferMagic size sign little &&& 1 = 1 ↔ little = true) := by
  rw [njsBufferMagic_eq, Nat.shiftRight_eq_div_pow, Nat.shiftRight_eq_div_pow, Nat.and_one_is_mod,
    Nat.and_one_is_mod]
  cases sign <;> cases little <;> simp only [Bool.toNat_true, Bool.toNat_false] <;>
    refine ⟨by omega, ?_, ?_⟩ <;> simp <;> omega

variable {overflow : BitVec 64} {haveLittleEndian : Bool} {h : Heap} {array : TypedArray}
  {width magic : ℕ} {sign little : Bool} {byteLength : Option IntegerOrInfinity}

/-- What the methods make of their magic number. -/
structure Magic.Parts (overflow : BitVec 64) (width : ℕ) (sign little : Bool) (magic : ℕ)
    (byteLength : Option IntegerOrInfinity) : Prop where
  size : intSize overflow magic byteLength = .ok width
  sign : decide ((magic >>> 1) &&& 1 = 1) = sign
  little : decide (magic &&& 1 = 1) = little

theorem Magic.parts (hmagic : Magic width sign little magic byteLength)
    (hwidth : 1 ≤ width ∧ width ≤ 6) (overflow : BitVec 64) :
    Magic.Parts overflow width sign little magic byteLength := by
  have hbool {p : Prop} [Decidable p] {b : Bool} (h : p ↔ b = true) : decide p = b := by
    cases b <;> simp [h]
  cases hmagic with
  | fixed =>
    obtain ⟨hsize, hsign, hlittle⟩ := parts_njsBufferMagic width sign little
    refine ⟨?_, hbool hsign, hbool hlittle⟩
    simp only [intSize, hsize]
    exact if_neg (by omega)
  | given =>
    obtain ⟨hsize, hsign, hlittle⟩ := parts_njsBufferMagic 0 sign little
    refine ⟨?_, hbool hsign, hbool hlittle⟩
    have hwidth' : numberToSize overflow (.integer width) = width := by
      rw [numberToSize, if_pos (by omega), Int.toNat_natCast]
    simp only [intSize, hsize, hwidth', if_true]
    exact if_neg (by omega)

/-- What the machine gives for a cast that cannot hold the double: one end of the range. -/
def Saturates (overflow : BitVec 64) : Prop :=
  overflow.toInt = -2 ^ 63 ∨ overflow.toInt = 2 ^ 63 - 1

theorem njsNumberToInteger_or (hoverflow : Saturates overflow) (n : ℤ) :
    njsNumberToInteger overflow (.integer n) = n ∨ (n < -2 ^ 62 ∨ 2 ^ 62 < n) ∧
      (njsNumberToInteger overflow (.integer n) < -2 ^ 62 ∨
        2 ^ 62 < njsNumberToInteger overflow (.integer n)) := by
  rw [Saturates] at hoverflow
  rw [njsNumberToInteger]
  split_ifs <;> omega

theorem njsValueToIndex_eq (hoverflow : Saturates overflow) (offset : Option ℤ) :
    njsValueToIndex overflow (offset.map .integer) =
      if 0 ≤ offset.getD 0 ∧ offset.getD 0 ≤ uint32Max then .ok (offset.getD 0).toNat
      else .error (.rangeError "invalid index") := by
  rcases offset with _ | n
  · exact (if_pos ⟨Int.le_refl 0, by decide⟩).symm
  have hmax : uint32Max = 0xffffffff := rfl
  simp only [Option.map_some, Option.getD_some, njsValueToIndex]
  obtain heq | hlarge := njsNumberToInteger_or hoverflow n
  · rw [heq]
    split_ifs <;> first | rfl | omega
  · rw [if_pos (by omega), if_neg (by omega)]

theorem njsNumberToInteger_fits (sign : Bool) (hoverflow : Saturates overflow) (hwidth : 1 ≤ width ∧
    width ≤ 6)
    (v : ℤ) : njsNumberToInteger overflow (.integer v) = v ∨ ¬Fits sign (8 * width) v ∧
      ¬Fits sign (8 * width) (njsNumberToInteger overflow (.integer v)) := by
  refine (njsNumberToInteger_or hoverflow v).imp_right fun hlarge => ?_
  have hlarge {n : ℤ} (h : n < -2 ^ 62 ∨ 2 ^ 62 < n) : ¬Fits sign (8 * width) n := by
    obtain ⟨k, hk⟩ : ∃ k, 8 * width = k + 1 := ⟨8 * width - 1, by omega⟩
    have hpow : (2 : ℤ) ^ (k + 1) ≤ 2 ^ 62 := pow_le_pow_right₀ one_le_two (by omega)
    have hhalf : (2 : ℤ) ^ k ≤ 2 ^ 62 := pow_le_pow_right₀ one_le_two (by omega)
    rw [hk]
    cases sign
    · rw [fits_unsigned]
      omega
    · rw [fits_signed]
      omega
  exact ⟨hlarge ‹_ ∧ _›.1, hlarge ‹_ ∧ _›.2⟩

variable {offset : Option ℤ}

theorem intArguments_ok (hoverflow : Saturates overflow)
    (hlength : (array.byteLength : ℤ) ≤ uint32Max) (htype : array.type = .uint8Array)
    (hparts : Magic.Parts overflow width sign little magic byteLength)
    (hoffset : 0 ≤ offset.getD 0 ∧ offset.getD 0 + width ≤ array.byteLength) :
    intArguments overflow array (offset.map .integer) byteLength magic =
      .ok (array, (offset.getD 0).toNat, width) := by
  rw [intArguments, njsBufferSlot, if_pos htype, njsValueToIndex_eq hoverflow,
    if_pos ⟨hoffset.1, by omega⟩, hparts.size]
  exact if_neg (by omega)

theorem intArguments_error (hoverflow : Saturates overflow) (htype : array.type = .uint8Array)
    (hparts : Magic.Parts overflow width sign little magic byteLength)
    (hoffset : ¬(0 ≤ offset.getD 0 ∧ offset.getD 0 + width ≤ array.byteLength)) :
    ∃ e, intArguments overflow array (offset.map .integer) byteLength magic = .error e := by
  rw [intArguments, njsBufferSlot, if_pos htype, njsValueToIndex_eq hoverflow, hparts.size]
  split_ifs with hindex
  · exact ⟨_, if_pos (by omega)⟩
  · exact ⟨_, rfl⟩

/-- What a write of an integer does. -/
structure WritesInt (haveLittleEndian : Bool) (overflow : BitVec 64) (h : Heap)
    (array : TypedArray) (width : ℕ) (sign little : Bool) (magic : ℕ)
    (byteLength : Option IntegerOrInfinity) (v : ℤ) (offset : Option ℤ) (r : Except Thrown ℕ)
    (h' : Heap) : Prop where
  succeeds : r.isOk ↔ Fits sign (8 * width) v ∧ 0 ≤ offset.getD 0 ∧
    offset.getD 0 + width ≤ array.extent h
  changes : ∀ n, r = .ok n → n = (offset.getD 0).toNat + width ∧
    h.Changed h' array.buffer (array.start + (offset.getD 0).toNat) (encoded little width v)
  reads : ∀ n, r = .ok n → njsBufferPrototypeReadInt haveLittleEndian overflow h' array
    (offset.map .integer) byteLength magic = .ok v
  fails : ∀ e, r = .error e → h.Same h'

theorem read_stored (hoverflow : Saturates overflow)
    (hlength : (array.byteLength : ℤ) ≤ uint32Max) (htype : array.type = .uint8Array)
    (hwidth : 1 ≤ width ∧ width ≤ 6)
    (hparts : Magic.Parts overflow width sign little magic byteLength)
    (hoffset : 0 ≤ offset.getD 0 ∧ offset.getD 0 + width ≤ array.byteLength) {d : ℕ}
    (hdata : (h.buffer array.buffer).data = some d) (m : Memory) {v : ℤ}
    (hfits : Fits sign (8 * width) v) :
    njsBufferPrototypeReadInt haveLittleEndian overflow
      (h.store d (m.write ((offset.getD 0).toNat + array.offset) (encoded little width v))) array
      (offset.map .integer) byteLength magic = .ok v := by
  have hblock : (h.store d (m.write ((offset.getD 0).toNat + array.offset)
      (encoded little width v))).block d =
      m.write ((offset.getD 0).toNat + array.offset) (encoded little width v) := if_pos rfl
  have hread := Memory.read_write m ((offset.getD 0).toNat + array.offset) (encoded little width v)
  rw [length_encoded] at hread
  have hdata' : ((h.store d (m.write ((offset.getD 0).toNat + array.offset)
      (encoded little width v))).buffer array.buffer).data = some d := hdata
  rw [njsBufferPrototypeReadInt, intArguments_ok hoverflow hlength htype hparts hoffset]
  simp only [bind, Except.bind, hdata', hblock, hparts.sign, hparts.little]
  rw [readSwitch_eq haveLittleEndian hwidth, hread, valueOf_encoded, ofBits_toBits (by omega) hfits]
  rfl

/-- Writes succeed just for integers of the width that fit in the buffer, change just the bytes of
the integer, and are undone by a read. -/
theorem writesInt (hoverflow : Saturates overflow) (hok : h.Ok) (hwithin : array.Within h)
    (htype : array.type = .uint8Array) (hwidth : 1 ≤ width ∧ width ≤ 6)
    (hmagic : Magic width sign little magic byteLength) (v : ℤ) (offset : Option ℤ) :
    WritesInt haveLittleEndian overflow h array width sign little magic byteLength v offset
      (njsBufferPrototypeWriteInt haveLittleEndian overflow h array (.integer v)
        (offset.map .integer) byteLength magic).1
      (njsBufferPrototypeWriteInt haveLittleEndian overflow h array (.integer v)
        (offset.map .integer) byteLength magic).2 := by
  have hparts := hmagic.parts hwidth overflow
  have hextent : array.extent h ≤ array.byteLength := by
    rw [TypedArray.extent]
    split_ifs <;> omega
  have hfailed {e : Thrown} {h' : Heap} (hsame : h.Same h')
      (hbad : ¬(Fits sign (8 * width) v ∧ 0 ≤ offset.getD 0 ∧
        offset.getD 0 + width ≤ array.extent h)) :
      WritesInt haveLittleEndian overflow h array width sign little magic byteLength v offset
        (.error e) h' :=
    ⟨iff_of_false Bool.false_ne_true hbad, by rintro _ ⟨⟩, by rintro _ ⟨⟩, fun _ _ => hsame⟩
  rw [njsBufferPrototypeWriteInt]
  by_cases hoffset : 0 ≤ offset.getD 0 ∧ offset.getD 0 + width ≤ array.byteLength
  · rw [intArguments_ok hoverflow hwithin.length_le htype hparts hoffset]
    dsimp only
    rcases hdata : (h.buffer array.buffer).data with _ | d
    · rw [Heap.njsTypedArrayWritable_of_none hdata]
      refine hfailed (Heap.same_refl h) fun hgood => ?_
      rw [TypedArray.extent, if_pos hdata] at hgood
      omega
    obtain ⟨e, h', hwrite, hwritable⟩ := Heap.njsTypedArrayWritable_of_data hok hdata
    have hext : array.extent h = array.byteLength :=
      if_neg (hdata ▸ Option.some_ne_none d)
    rw [hwrite]
    dsimp only
    rw [hparts.sign, hparts.little, writeSwitch_eq haveLittleEndian hwidth]
    obtain hvalue | hlarge := njsNumberToInteger_fits sign hoverflow hwidth v
    · rw [hvalue]
      by_cases hfits : Fits sign (8 * width) v
      · rw [if_pos hfits]
        have hstart := start_uint8 htype
        have hroom : array.start + (offset.getD 0).toNat + (encoded little width v).length ≤
            (h'.buffer array.buffer).size := by
          have hview := hwithin.fits (hdata ▸ Option.some_ne_none d)
          rw [hwritable.size, length_encoded, hstart]
          rw [htype, njsTypedArrayElementSize] at hview
          omega
        have hplace : (offset.getD 0).toNat + array.offset =
            array.start + (offset.getD 0).toNat := by
          rw [hstart, Nat.add_comm]
        refine ⟨iff_of_true rfl ⟨hfits, hoffset.1, hext ▸ hoffset.2⟩, fun n hn => ?_,
          fun _ _ => ?_, by rintro _ ⟨⟩⟩
        · cases hn
          rw [hplace]
          exact ⟨rfl, hwritable.same.changed (hwritable.owns.changed hroom)⟩
        · exact read_stored hoverflow hwithin.length_le htype hwidth hparts hoffset
            hwritable.owns.data _ hfits
      · rw [if_neg hfits]
        exact hfailed hwritable.same fun hgood => hfits hgood.1
    · rw [if_neg hlarge.2]
      exact hfailed hwritable.same fun hgood => hlarge.1 hgood.1
  · obtain ⟨e, he⟩ := intArguments_error hoverflow htype hparts hoffset
    rw [he]
    exact hfailed (Heap.same_refl h) fun hgood => hoffset ⟨hgood.2.1, by omega⟩

/-- Three bytes at the end of a view. -/
theorem writesInt_three : WritesInt true (.intMin 64) eightBytes sevenBytes 3 true false
    (njsBufferMagic 0 true false) (some (.integer 3)) (-2) (some 4)
    (njsBufferPrototypeWriteInt true (.intMin 64) eightBytes sevenBytes (.integer (-2))
      ((some 4).map .integer) (some (.integer 3)) (njsBufferMagic 0 true false)).1
    (njsBufferPrototypeWriteInt true (.intMin 64) eightBytes sevenBytes (.integer (-2))
      ((some 4).map .integer) (some (.integer 3)) (njsBufferMagic 0 true false)).2 :=
  writesInt (.inl (by decide)) ok_eightBytes within_sevenBytes rfl ⟨by decide, by decide⟩ .given
    (-2) (some 4)

end Njs.Buffer
