import Njs.Buffer.Heap
import Njs.Strings.Base64
import Njs.Strings.StringProp

/-!
# Strings as bytes

The methods of buffers that take a string take the name of an encoding, which says what bytes the
string stands for.
-/

namespace Njs.Buffer

open Arrays (IntegerOrInfinity)
open Decoding (njsUtf8StreamEncode)
open Query (njsUtf8DecodeInit)
open Strings (StringProp njsStringDecodeHex njsStringDecodeBase64 njsStringDecodeBase64url)
open Text (lit)

/-- An argument that may be missing. A string is given with the integer that it is converted to. -/
inductive Argument
  | undefined
  | string (s : StringProp) (number : IntegerOrInfinity)
  | number (n : IntegerOrInfinity)

def Argument.integer : Argument → Option IntegerOrInfinity
  | .undefined => none
  | .string _ n => some n
  | .number n => some n

/-- The encodings. -/
inductive Encoding
  | utf8
  | hex
  | base64
  | base64url
  deriving DecidableEq

def njsBufferEncodings : List (Bytes × Encoding) :=
  [(lit "utf-8", .utf8), (lit "utf8", .utf8), (lit "hex", .hex), (lit "base64", .base64),
    (lit "base64url", .base64url)]

/-- `njs_buffer_encoding`. A name that is not supported is in the message. -/
def njsBufferEncoding : Argument → Except Thrown Encoding
  | .undefined => .ok .utf8
  | .number _ => .error (.typeError "encoding must be a string")
  | .string name _ =>
    match njsBufferEncodings.find? fun e => e.1 = name.start with
    | some e => .ok e.2
    | none => .error (.typeError
        ("\"" ++ String.ofList (name.start.map fun b => Char.ofNat b.toNat) ++
          "\" encoding is not supported"))

/-- `njs_buffer_decode_string`. The decoder of base 64 never reads behind its source. -/
def njsBufferDecodeString (value : StringProp) : Encoding → Bytes
  | .utf8 =>
    if value.length ≠ 0 then value.start
    else (njsUtf8StreamEncode njsUtf8DecodeInit value.start true false).2.getD []
  | .hex =>
    let dst := njsStringDecodeHex value.start
    dst.written.take dst.size
  | .base64 => (njsStringDecodeBase64 value.start).elim [] fun dst => dst.written.take dst.size
  | .base64url => (njsStringDecodeBase64url value.start).elim [] fun dst =>
      dst.written.take dst.size

def njsNumberToUint32 : IntegerOrInfinity → ℕ
  | .integer n => (n % 2 ^ 32).toNat
  | .infinity | .negInfinity => 0

end Njs.Buffer

/-!
## `indexOf` and `lastIndexOf` of buffers

One loop serves both directions. A start before the beginning becomes the first position in both of
them, and a start of `2^63` is cast to the least integer.
-/

namespace Njs.Buffer

open Arrays (IntegerOrInfinity)
open Arrays.NjsArray (njsNumberToInteger)
open Strings (StringProp)

/-! ### The code -/

/-- What a method is asked for. -/
inductive Value
  | string (s : StringProp)
  | typedArray (src : TypedArray)
  | number (n : IntegerOrInfinity)
  | other (type : String)

/-- What ends a search without an index: an exception, a comparison outside the buffer, or nothing
at all. -/
inductive Stopped
  | thrown (e : Thrown)
  | outside
  | endless
  deriving DecidableEq

def searchLoop (test : ℤ → Except Stopped Bool) (stop increment : ℤ) : ℕ → ℤ → Except Stopped ℤ
  | 0, i => if i = stop then .ok (-1) else .error .endless
  | passes + 1, i =>
    if i = stop then .ok (-1)
    else do
      if ← test i then return i
      else searchLoop test stop increment passes (i + increment)

/-- The comparison with the bytes of a view at a position. -/
def compareAt (m : Memory) (u8 length : ℕ) (s : Bytes) (i : ℤ) : Except Stopped Bool :=
  if s.length = 0 ∨ 0 ≤ i ∧ i + s.length ≤ length then
    .ok (m.read (u8 + i.toNat) s.length = s)
  else .error .outside

def searchBytes (m : Memory) (u8 length : ℕ) (str : Bytes) (last : Bool) (start : ℤ) :
    Except Stopped ℤ :=
  if last then
    let start := min start (length - str.length)
    if -1 > start then .ok (-1)
    else if start = -1 ∧ str.length = 0 then .ok 0
    else searchLoop (compareAt m u8 length str) (-1) (-1) (-1 - start).natAbs start
  else
    let stop : ℤ := length - (str.length - 1)
    if start > stop then .ok (-1)
    else if start = stop ∧ str.length = 0 then .ok 0
    else searchLoop (compareAt m u8 length str) stop 1 (stop - start).natAbs start

def searchByte (m : Memory) (u8 length : ℕ) (byte : UInt8) (last : Bool) (start : ℤ) :
    Except Stopped ℤ :=
  if last then
    let start := min start ((length : ℤ) - 1)
    searchLoop (compareAt m u8 length [byte]) (-1) (-1) (-1 - start).natAbs start
  else searchLoop (compareAt m u8 length [byte]) length 1 (length - start).natAbs start

def searchStart (overflow : BitVec 64) (length : ℤ) (last : Bool) (value : Value)
    (valueFrom enc : Argument) : ℤ × Argument :=
  let start := if last then length - 1 else 0
  match value, valueFrom with
  | .string _, .string _ _ => (start, valueFrom)
  | _, _ =>
    match valueFrom.integer with
    | none => (start, enc)
    | some n =>
      let start := njsNumberToInteger overflow n
      if 0 ≤ start then (min start length, enc) else (max 0 (length + start), enc)

/-- What is thrown for a value that cannot be searched for. -/
def notSearchable (type : String) : Stopped :=
  .thrown (.typeError ("\"value\" argument " ++ type ++ " is not a string or Buffer-like object"))

def njsBufferPrototypeIndexOf (overflow : BitVec 64) (h : Heap) (this : TypedArray) (value : Value)
    (valueFrom enc : Argument) (last : Bool) : Except Stopped ℤ := do
  let array ← (njsBufferSlot this).mapError .thrown
  let length := array.byteLength
  let (start, enc) := searchStart overflow length last value valueFrom enc
  let encoding ← (njsBufferEncoding enc).mapError .thrown
  match (h.buffer array.buffer).data with
  | none => throw (.thrown (.typeError "detached buffer"))
  | some d =>
    let m := h.block d
    let u8 := array.offset
    match value with
    | .string s => searchBytes m u8 length (njsBufferDecodeString s encoding) last start
    | .typedArray src =>
      if src.type ≠ .uint8Array then throw (notSearchable "typed array")
      else
        match (h.buffer src.buffer).data with
        | none => throw (.thrown (.typeError "detached buffer"))
        | some e => searchBytes m u8 length ((h.block e).read src.offset src.byteLength) last start
    | .number n => searchByte m u8 length (UInt8.ofNat (njsNumberToUint32 n)) last start
    | .other type => throw (notSearchable type)

/-! ### What is searched for -/

def Occurs (b x : Bytes) (i : ℤ) : Prop :=
  0 ≤ i ∧ i + x.length ≤ b.length ∧ (b.drop i.toNat).take x.length = x

instance (b x : Bytes) (i : ℤ) : Decidable (Occurs b x i) :=
  inferInstanceAs (Decidable (_ ∧ _))

def fromEnd (length : ℕ) (start : ℤ) : ℤ := if 0 ≤ start then start else length + start

def IsFirst (b x : Bytes) (bound r : ℤ) : Prop :=
  (r = -1 ∧ ∀ i ≥ bound, ¬Occurs b x i) ∨
    (Occurs b x r ∧ bound ≤ r ∧ ∀ i ≥ bound, Occurs b x i → r ≤ i)

/-- The greatest position up to a bound. -/
def IsLast (b x : Bytes) (bound r : ℤ) : Prop :=
  (r = -1 ∧ ∀ i ≤ bound, ¬Occurs b x i) ∨
    (Occurs b x r ∧ r ≤ bound ∧ ∀ i ≤ bound, Occurs b x i → i ≤ r)

/-- The index that is to be returned. A start for `indexOf` is clamped to the buffer. -/
def IsIndex (b x : Bytes) (last : Bool) (start r : ℤ) : Prop :=
  if last then IsLast b x (fromEnd b.length start) r
  else IsFirst b x (min (max (fromEnd b.length start) 0) b.length) r

def Value.IsNeedle (value : Value) (h : Heap) (encoding : Encoding) (x : Bytes) : Prop :=
  match value with
  | .string s => x = njsBufferDecodeString s encoding
  | .typedArray src => src.type = .uint8Array ∧ (h.buffer src.buffer).data ≠ none ∧ x = src.bytes h
  | .number n => x = [UInt8.ofNat (njsNumberToUint32 n)]
  | .other _ => False

/-- What the code makes of a start makes no difference: a start before the beginning is the first
position for it, and so is `2^63`, which its cast cannot hold. -/
def Reaches (b x : Bytes) (last : Bool) (start : ℤ) : Prop :=
  (last = true → start < -b.length → ¬Occurs b x 0) ∧ (start = 2 ^ 63 →
      if last then ∀ i > 0, ¬Occurs b x i else ∀ i < (b.length : ℤ), ¬Occurs b x i)

/-! ### The loop -/

variable {test : ℤ → Except Stopped Bool}

theorem searchLoop_spec (test : ℤ → Except Stopped Bool) {increment : ℤ} (hincrement :
    increment ≠ 0) {p : ℕ → Bool} (passes : ℕ)
    (i : ℤ) (htest : ∀ k < passes, test (i + increment * k) = .ok (p k)) :
    ∃ r, searchLoop test (i + increment * passes) increment passes i = .ok r ∧
      ((r = -1 ∧ ∀ k < passes, p k = false) ∨
        ∃ k < passes, r = i + increment * k ∧ p k = true ∧ ∀ j < k, p j = false) := by
  induction passes generalizing i p with
  | zero =>
    refine ⟨-1, if_pos ?_, .inl ⟨rfl, fun k hk => absurd hk (Nat.not_lt_zero k)⟩⟩
    rw [Nat.cast_zero, mul_zero, add_zero]
  | succ passes ih =>
    have hne : i ≠ i + increment * ↑(passes + 1) := by
      intro h
      have hzero : increment * ↑(passes + 1) = 0 := by omega
      rcases Int.mul_eq_zero.1 hzero with h | h <;> omega
    have hfirst := htest 0 (Nat.succ_pos passes)
    rw [Nat.cast_zero, mul_zero, add_zero] at hfirst
    have hstep (k : ℕ) : i + increment + increment * k = i + increment * ↑(k + 1) := by
      rw [Nat.cast_succ, mul_add, mul_one]
      omega
    rw [searchLoop, if_neg hne, hfirst]
    rcases hp : p 0 with _ | _
    · obtain ⟨r, hr, hspec⟩ := @ih (fun k => p (k + 1)) (i + increment) fun k hk => by
        rw [hstep]
        exact htest (k + 1) (by omega)
      refine ⟨r, ?_, ?_⟩
      · rw [← hstep]
        exact hr
      obtain ⟨hr, hnone⟩ | ⟨k, hk, hr, hpk, hbefore⟩ := hspec
      · refine .inl ⟨hr, fun k hk => ?_⟩
        obtain _ | k := k
        · exact hp
        · exact hnone k (by omega)
      · refine .inr ⟨k + 1, by omega, ?_, hpk, fun j hj => ?_⟩
        · rw [hr, hstep]
        · obtain _ | j := j
          · exact hp
          · exact hbefore j (by omega)
    · refine ⟨i, rfl, .inr ⟨0, Nat.succ_pos passes, ?_, hp, fun j hj => absurd hj (by omega)⟩⟩
      rw [Nat.cast_zero, mul_zero, add_zero]

/-! ### The searches -/

variable {m : Memory} {u8 length : ℕ} {x : Bytes}

theorem occurs_iff {i : ℤ} : Occurs (m.read u8 length) x i ↔
    0 ≤ i ∧ i + x.length ≤ length ∧ m.read (u8 + i.toNat) x.length = x := by
  rw [Occurs, Memory.length_read]
  refine and_congr_right fun hi => and_congr_right fun hfits => ?_
  rw [Memory.take_drop_read (by omega)]

theorem compareAt_eq {i : ℤ} (hi : 0 ≤ i) (hfits : i + x.length ≤ length) :
    compareAt m u8 length x i = .ok (decide (Occurs (m.read u8 length) x i)) := by
  rw [compareAt, if_pos (.inr ⟨hi, hfits⟩)]
  congr 1
  rw [decide_eq_decide, occurs_iff]
  exact ⟨fun h => ⟨hi, hfits, h⟩, fun h => h.2.2⟩

theorem searchBytes_first {start : ℤ} (hstart : 0 ≤ start) (hle : start ≤ length) :
    ∃ r, searchBytes m u8 length x false start = .ok r ∧ IsFirst (m.read u8 length) x start r := by
  rw [searchBytes, if_neg Bool.false_ne_true]
  dsimp only
  split_ifs with hbeyond hempty
  · refine ⟨-1, rfl, .inl ⟨rfl, fun i hi hocc => ?_⟩⟩
    have hfits := (occurs_iff.1 hocc).2.1
    omega
  · omega
  obtain ⟨n, hn⟩ : ∃ n : ℕ, (length : ℤ) - (x.length - 1) = start + 1 * n :=
    ⟨((length : ℤ) - (x.length - 1) - start).toNat, by omega⟩
  obtain ⟨r, hr, hspec⟩ := searchLoop_spec (compareAt m u8 length x) one_ne_zero n start
    (p := fun k => decide (Occurs (m.read u8 length) x (start + 1 * k)))
    fun k hk => compareAt_eq (by omega) (by omega)
  rw [hn, show (start + 1 * n - start).natAbs = n by omega]
  refine ⟨r, hr, ?_⟩
  have hbelow {i : ℤ} (hi : i ≥ start) (hocc : Occurs (m.read u8 length) x i) :
      ∃ k < n, i = start + 1 * (k : ℤ) := by
    have hfits := (occurs_iff.1 hocc).2.1
    exact ⟨(i - start).toNat, by omega, by omega⟩
  obtain ⟨rfl, hnone⟩ | ⟨k, hk, rfl, hocc, hbefore⟩ := hspec
  · refine .inl ⟨rfl, fun i hi hocc => ?_⟩
    obtain ⟨k, hk, rfl⟩ := hbelow hi hocc
    exact of_decide_eq_false (hnone k hk) hocc
  · refine .inr ⟨of_decide_eq_true hocc, by omega, fun i hi hocc' => ?_⟩
    obtain ⟨j, hj, rfl⟩ := hbelow hi hocc'
    have hle : ¬j < k := fun hlt => of_decide_eq_false (hbefore j hlt) hocc'
    omega

theorem searchBytes_last {start : ℤ} (hstart : 0 ≤ start) :
    ∃ r, searchBytes m u8 length x true start = .ok r ∧ IsLast (m.read u8 length) x start r := by
  rw [searchBytes, if_pos rfl]
  dsimp only
  generalize hfrom : min start ((length : ℤ) - x.length) = bound
  have hbelow {i : ℤ} (hi : i ≤ start) (hocc : Occurs (m.read u8 length) x i) :
      0 ≤ i ∧ i ≤ bound := by
    have hfits := occurs_iff.1 hocc
    omega
  split_ifs with hbeyond hempty
  · refine ⟨-1, rfl, .inl ⟨rfl, fun i hi hocc => ?_⟩⟩
    have hi := hbelow hi hocc
    omega
  · omega
  obtain ⟨n, hn⟩ : ∃ n : ℕ, (-1 : ℤ) = bound + -1 * n := ⟨(bound + 1).toNat, by omega⟩
  obtain ⟨r, hr, hspec⟩ := searchLoop_spec (compareAt m u8 length x)
    (show (-1 : ℤ) ≠ 0 by decide) n bound
    (p := fun k => decide (Occurs (m.read u8 length) x (bound + -1 * k)))
    fun k hk => compareAt_eq (by omega) (by omega)
  rw [← hn] at hr
  rw [show (-1 - bound).natAbs = n by omega]
  refine ⟨r, hr, ?_⟩
  have hplace {i : ℤ} (hi : i ≤ start) (hocc : Occurs (m.read u8 length) x i) :
      ∃ k < n, i = bound + -1 * (k : ℤ) := by
    have hi := hbelow hi hocc
    exact ⟨(bound - i).toNat, by omega, by omega⟩
  obtain ⟨rfl, hnone⟩ | ⟨k, hk, rfl, hocc, hbefore⟩ := hspec
  · refine .inl ⟨rfl, fun i hi hocc => ?_⟩
    obtain ⟨k, hk, rfl⟩ := hplace hi hocc
    exact of_decide_eq_false (hnone k hk) hocc
  · refine .inr ⟨of_decide_eq_true hocc, by omega, fun i hi hocc' => ?_⟩
    obtain ⟨j, hj, rfl⟩ := hplace hi hocc'
    have hle : ¬j < k := fun hlt => of_decide_eq_false (hbefore j hlt) hocc'
    omega

theorem searchByte_eq {start : ℤ} (hstart : 0 ≤ start) (hle : start ≤ length) (byte : UInt8)
    (last : Bool) : searchByte m u8 length byte last start =
      searchBytes m u8 length [byte] last start := by
  rw [searchByte, searchBytes]
  simp only [List.length_singleton, Nat.cast_one, sub_self, sub_zero, one_ne_zero, and_false,
    if_false]
  split_ifs
  · omega
  · rfl
  · omega
  · rfl

theorem searchBytes_spec {start : ℤ} (hstart : 0 ≤ start) (hle : start ≤ length) (last : Bool) :
    ∃ r, searchBytes m u8 length x last start = .ok r ∧
      if last then IsLast (m.read u8 length) x start r
      else IsFirst (m.read u8 length) x start r := by
  cases last
  · exact searchBytes_first hstart hle
  · exact searchBytes_last hstart

/-! ### Starts -/

def clampedStart (length start : ℤ) : ℤ :=
  if start = 2 ^ 63 then 0
  else if 0 ≤ start then min start length
  else max 0 (length + start)

theorem searchStart_number {overflow : BitVec 64} (hoverflow : overflow.toInt = -2 ^ 63) {n : ℕ}
    (hn : (n : ℤ) ≤ uint32Max) (last : Bool) (value : Value) (start : ℤ) (enc : Argument) :
    searchStart overflow n last value (.number (.integer start)) enc =
      (clampedStart n start, enc) := by
  have hmax : uint32Max = 0xffffffff := rfl
  have hstart : (if 0 ≤ njsNumberToInteger overflow (.integer start) then
      (min (njsNumberToInteger overflow (.integer start)) n, enc)
      else (max 0 (n + njsNumberToInteger overflow (.integer start)), enc)) =
      (clampedStart n start, enc) := by
    rw [← apply_ite (fun start => (start, enc)), njsNumberToInteger, hoverflow, clampedStart]
    congr 1
    split_ifs <;> omega
  cases value <;> exact hstart

theorem clampedStart_mem (n : ℕ) (start : ℤ) :
    0 ≤ clampedStart n start ∧ clampedStart n start ≤ n := by
  rw [clampedStart]
  split_ifs <;> omega

variable {b : Bytes} {start r : ℤ}

theorem occurs_bounds {i : ℤ} (h : Occurs b x i) : 0 ≤ i ∧ i ≤ b.length := by
  obtain ⟨hi, hfits, -⟩ := h
  omega

/-- For `indexOf` just the start of `2^63` makes a difference. -/
theorem isFirst_iff (hn : (b.length : ℤ) ≤ uint32Max)
    (h : IsFirst b x (clampedStart b.length start) r) :
    IsIndex b x false start r ↔ Reaches b x false start := by
  have hmax : uint32Max = 0xffffffff := rfl
  rw [IsIndex, if_neg Bool.false_ne_true, Reaches, if_neg Bool.false_ne_true, fromEnd]
  rw [clampedStart] at h
  by_cases hlarge : start = 2 ^ 63
  · rw [if_pos hlarge] at h
    rw [if_pos (by omega), show min (max start 0) (b.length : ℤ) = b.length by omega]
    constructor
    · rintro hfirst
      refine ⟨fun h => absurd h Bool.false_ne_true, fun _ i hi hocc => ?_⟩
      have hpos := (occurs_bounds hocc).1
      obtain ⟨-, hnone⟩ | ⟨-, hr, hleast⟩ := h
      · exact hnone i hpos hocc
      · have hle := hleast i hpos hocc
        obtain ⟨hr', -⟩ | ⟨-, hr', -⟩ := hfirst <;> omega
    · rintro ⟨-, hnone⟩
      have hnone := hnone hlarge
      obtain ⟨hr, hnone'⟩ | ⟨hocc, -, hleast⟩ := h
      · exact .inl ⟨hr, fun i hi => hnone' i (by omega)⟩
      · exact .inr ⟨hocc, not_lt.1 fun hlt => hnone r hlt hocc, fun i hi => hleast i (by omega)⟩
  · rw [if_neg hlarge] at h
    refine iff_of_true ?_ ⟨fun h => absurd h Bool.false_ne_true, fun h => absurd h hlarge⟩
    convert h using 1
    split_ifs <;> omega

/-- For `lastIndexOf` a start before the beginning makes a difference too. -/
theorem isLast_iff (hn : (b.length : ℤ) ≤ uint32Max)
    (h : IsLast b x (clampedStart b.length start) r) :
    IsIndex b x true start r ↔ Reaches b x true start := by
  have hmax : uint32Max = 0xffffffff := rfl
  rw [IsIndex, if_pos rfl, Reaches, if_pos rfl, fromEnd]
  rw [clampedStart] at h
  by_cases hlarge : start = 2 ^ 63
  · rw [if_pos hlarge] at h
    rw [if_pos (by omega)]
    constructor
    · intro hlast
      refine ⟨fun _ hlt => by omega, fun _ i hi hocc => ?_⟩
      have hle := (occurs_bounds hocc).2
      obtain ⟨hr, hnone⟩ | ⟨-, -, hgreatest⟩ := hlast
      · exact hnone i (by omega) hocc
      · have hir := hgreatest i (by omega) hocc
        obtain ⟨hr, -⟩ | ⟨-, hr, -⟩ := h <;> omega
    rintro ⟨-, hnone⟩
    have hnone := hnone hlarge
    obtain ⟨hr, hnone'⟩ | ⟨hocc, hr, hgreatest⟩ := h
    · refine .inl ⟨hr, fun i _ hocc => ?_⟩
      by_cases hi : i ≤ 0
      · exact hnone' i hi hocc
      · exact hnone i (by omega) hocc
    · refine .inr ⟨hocc, by omega, fun i _ hocc' => ?_⟩
      exact hgreatest i (not_lt.1 fun hlt => hnone i hlt hocc') hocc'
  · rw [if_neg hlarge] at h
    have hsecond : start = 2 ^ 63 → ∀ i > 0, ¬Occurs b x i := fun h => absurd h hlarge
    by_cases hbefore : start < -b.length
    · rw [if_neg (by omega), max_eq_left (by omega)] at h
      rw [if_neg (by omega)]
      constructor
      · intro hlast
        refine ⟨fun _ _ hocc => ?_, hsecond⟩
        obtain ⟨-, hnone⟩ | ⟨hocc', -, hgreatest⟩ := h
        · exact hnone 0 (Int.le_refl 0) hocc
        · have hr := hgreatest 0 (Int.le_refl 0) hocc
          obtain ⟨hr', -⟩ | ⟨-, hr', -⟩ := hlast <;> omega
      rintro ⟨hnone, -⟩
      have hnone := hnone rfl hbefore
      obtain ⟨hr, hnone'⟩ | ⟨hocc, hr, -⟩ := h
      · exact .inl ⟨hr, fun i hi => hnone' i (by omega)⟩
      · have hzero := (occurs_bounds hocc).1
        exact absurd ((show r = 0 by omega) ▸ hocc) hnone
    · refine iff_of_true ?_ ⟨fun _ h => absurd h hbefore, hsecond⟩
      by_cases hneg : 0 ≤ start
      · rw [if_pos hneg] at h ⊢
        obtain ⟨hr, hnone⟩ | ⟨hocc, hr, hgreatest⟩ := h
        · refine .inl ⟨hr, fun i hi hocc => hnone i ?_ hocc⟩
          have hle := (occurs_bounds hocc).2
          omega
        · refine .inr ⟨hocc, by omega, fun i hi hocc' => hgreatest i ?_ hocc'⟩
          have hle := (occurs_bounds hocc').2
          omega
      · rw [if_neg hneg] at h ⊢
        rwa [max_eq_right (by omega)] at h

/-! ### The methods -/

variable {overflow : BitVec 64} {h : Heap} {array : TypedArray} {encoding : Encoding}

theorem njsBufferPrototypeIndexOf_eq (hoverflow : overflow.toInt = -2 ^ 63)
    (hwithin : array.Within h) (htype : array.type = .uint8Array) {d : ℕ}
    (hdata : (h.buffer array.buffer).data = some d) {enc : Argument}
    (henc : njsBufferEncoding enc = .ok encoding) {value : Value}
    (hneedle : value.IsNeedle h encoding x) (start : ℤ) (last : Bool) :
    njsBufferPrototypeIndexOf overflow h array value (.number (.integer start)) enc last =
      searchBytes (h.block d) array.offset array.byteLength x last
        (clampedStart array.byteLength start) := by
  rw [njsBufferPrototypeIndexOf, njsBufferSlot, if_pos htype]
  simp only [Except.mapError, bind, Except.bind,
    searchStart_number hoverflow hwithin.length_le, henc, hdata]
  cases value with
  | string s => rw [hneedle]
  | typedArray src =>
    obtain ⟨hsrc, hsrcData, rfl⟩ := hneedle
    obtain ⟨e, he⟩ := Option.ne_none_iff_exists'.1 hsrcData
    dsimp only
    rw [if_neg (not_not.2 hsrc), he]
    dsimp only
    rw [TypedArray.bytes, he, start_uint8 hsrc]
  | number n =>
    obtain ⟨hstart, hle⟩ := clampedStart_mem array.byteLength start
    dsimp only
    rw [searchByte_eq hstart hle, hneedle]
  | other type => exact hneedle.elim

/-- The methods compare no byte outside the buffer and return an index. It is the right one just for
these starts. -/
theorem indexOf_iff (hoverflow : overflow.toInt = -2 ^ 63) (hwithin : array.Within h)
    (htype : array.type = .uint8Array) (hdata : (h.buffer array.buffer).data ≠ none)
    {enc : Argument} (henc : njsBufferEncoding enc = .ok encoding) {value : Value}
    (hneedle : value.IsNeedle h encoding x) (start : ℤ) (last : Bool) :
    ∃ r, njsBufferPrototypeIndexOf overflow h array value (.number (.integer start)) enc last =
        .ok r ∧
      (IsIndex (array.bytes h) x last start r ↔ Reaches (array.bytes h) x last start) := by
  obtain ⟨d, hd⟩ := Option.ne_none_iff_exists'.1 hdata
  have hbytes : array.bytes h = (h.block d).read array.offset array.byteLength := by
    rw [TypedArray.bytes, hd, start_uint8 htype]
  have hlength : (array.bytes h).length = array.byteLength := by
    rw [hbytes, Memory.length_read]
  obtain ⟨hstart, hle⟩ := clampedStart_mem array.byteLength start
  obtain ⟨r, hr, hspec⟩ := @searchBytes_spec (h.block d) array.offset _ x _ hstart hle last
  have hn : ((array.bytes h).length : ℤ) ≤ uint32Max := hlength ▸ hwithin.length_le
  rw [← hbytes, ← hlength] at hspec
  refine ⟨r, ?_, ?_⟩
  · rw [njsBufferPrototypeIndexOf_eq hoverflow hwithin htype hd henc hneedle, hr]
  · cases last
    · exact isFirst_iff hn hspec
    · exact isLast_iff hn hspec

theorem indexOf_iff_sevenBytes :
    ∃ r, njsBufferPrototypeIndexOf (BitVec.intMin 64) eightBytes sevenBytes
        (.number (.integer 0x103)) (.number (.integer (-2))) .undefined true = .ok r ∧
      (IsIndex (sevenBytes.bytes eightBytes) [3] true (-2) r ↔
        Reaches (sevenBytes.bytes eightBytes) [3] true (-2)) :=
  indexOf_iff rfl within_sevenBytes rfl (Option.some_ne_none 0) rfl (by exact rfl) (-2) true

/-- A search that starts before the beginning finds the first byte. -/
theorem lastIndexOf_beforeBeginning :
    njsBufferPrototypeIndexOf (BitVec.intMin 64) eightBytes sevenBytes (.number (.integer 1))
        (.number (.integer (-8))) .undefined true = .ok 0 ∧
      ¬IsIndex (sevenBytes.bytes eightBytes) [1] true (-8) 0 := by
  refine ⟨rfl, ?_⟩
  have hstart : fromEnd (sevenBytes.bytes eightBytes).length (-8) = -1 := rfl
  rw [IsIndex, if_pos rfl, hstart]
  rintro (⟨h, -⟩ | ⟨-, h, -⟩) <;> omega

end Njs.Buffer
