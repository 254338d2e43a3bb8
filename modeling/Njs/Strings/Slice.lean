import Njs.Strings.StringProp

/-!
# Parts of strings

Each method clamps its arguments to a position and a length of its own. The bytes of a part are
found by its positions in an ASCII string, and otherwise by a scan from its first character on.
-/

namespace Njs.Strings

open Text
open Indices (bytes offset slice njsUtf8Next njsUtf8Next_offset njsStringUtf8Offset
  njsStringUtf8Offset_eq offset_length offset_ascii offset_mono)

/-! ### Arguments -/

/-- A number. Of a finite number only the part before the fraction is looked at, and there is no
fraction from 2⁵³ on. -/
inductive Number
  | nan
  | negInfinity
  | infinity
  | finite (whole : ℤ)
  deriving DecidableEq

/-- An argument of a method. -/
inductive Argument
  | undefined
  | number (x : Number)
  deriving DecidableEq

/-- `njs_number_to_integer`. The comparison with `INT64_MAX` as a double lets 2⁶³ through to a cast
that cannot hold it. -/
def njsNumberToInteger (overflow : BitVec 64) : Number → ℤ
  | .nan => 0
  | .negInfinity => -2 ^ 63
  | .infinity => 2 ^ 63 - 1
  | .finite n =>
    if n < -2 ^ 63 then -2 ^ 63
    else if 2 ^ 63 < n then 2 ^ 63 - 1
    else if n = 2 ^ 63 then overflow.toInt
    else n

/-- `njs_value_to_integer`, and `njs_number_to_integer` where the argument is a number. -/
def njsValueToInteger (overflow : BitVec 64) : Argument → ℤ
  | .undefined => njsNumberToInteger overflow .nan
  | .number x => njsNumberToInteger overflow x

/-- `njs_arg`, where the first argument has the number 1. -/
def njsArg (args : List Argument) (n : ℕ) : Argument := args.getD (n - 1) .undefined

/-! ### Parts -/

/-- `njs_slice_prop_t`. -/
structure SliceProp where
  start : ℕ
  length : ℕ
  stringLength : ℕ

/-- The loop of `njs_string_slice_string_prop`: the position behind the part, and the number of
characters that are missing. -/
def sliceLoop (s : Bytes) : ℕ → ℕ → ℕ × ℕ
  | 0, p => (p, 0)
  | n + 1, p => if p < s.length then sliceLoop s n (njsUtf8Next s p) else (p, n + 1)

def njsStringSliceStringProp (string : StringProp) (prop : SliceProp) : StringProp :=
  if string.start.length = prop.stringLength then
    ⟨slice string.start prop.start prop.length, prop.length⟩
  else if prop.start < prop.stringLength then
    let start := njsStringUtf8Offset string.start prop.start
    let (p, n) := sliceLoop string.start prop.length start
    ⟨slice string.start start (p - start), prop.length - n⟩
  else ⟨[], 0⟩

def njsStringSlice (string : StringProp) (prop : SliceProp) : StringProp :=
  let prop := njsStringSliceStringProp string prop
  if prop.start.length ≠ 0 then prop else ⟨[], 0⟩

/-! ### The methods -/

variable (overflow : BitVec 64) (string : StringProp) (args : List Argument)

def definedOr (length : ℤ) : Argument → ℤ
  | .undefined => length
  | .number x => njsNumberToInteger overflow x

def njsStringSliceArgs (stringLength : ℕ) : SliceProp :=
  let length : ℤ := stringLength
  let start := njsValueToInteger overflow (njsArg args 1)
  let start := if start < 0 then (if start + length < 0 then 0 else start + length) else start
  if length ≤ start then ⟨0, 0, stringLength⟩
  else
    let stop := definedOr overflow length (njsArg args 2)
    let stop := if stop < 0 then stop + length else stop
    if stop ≤ length then
      if stop - start < 0 then ⟨0, 0, stringLength⟩
      else ⟨start.toNat, (stop - start).toNat, stringLength⟩
    else ⟨start.toNat, (length - start).toNat, stringLength⟩

def njsStringPrototypeSlice : StringProp :=
  njsStringSlice string (njsStringSliceArgs overflow args string.length)

def njsStringPrototypeSubstring : StringProp :=
  let length : ℤ := string.length
  if 0 < args.length then
    let start := njsValueToInteger overflow (njsArg args 1)
    let start := if start < 0 then 0 else if length < start then length else start
    let stop :=
      if 1 < args.length then
        let stop := njsValueToInteger overflow (njsArg args 2)
        if stop < 0 then 0 else if length ≤ stop then length else stop
      else length
    if stop - start < 0 then
      njsStringSlice string ⟨stop.toNat, (-(stop - start)).toNat, string.length⟩
    else njsStringSlice string ⟨start.toNat, (stop - start).toNat, string.length⟩
  else njsStringSlice string ⟨0, string.length, string.length⟩

def njsStringPrototypeSubstr : StringProp :=
  let length : ℤ := string.length
  if 0 < args.length then
    let start := njsValueToInteger overflow (njsArg args 1)
    if start < length then
      let start := if start < 0 then (if start + length < 0 then 0 else start + length) else start
      let length := length - start
      let length :=
        if 1 < args.length then
          let n := njsValueToInteger overflow (njsArg args 2)
          if n < 0 then 0 else if n < length then n else length
        else length
      njsStringSlice string ⟨start.toNat, length.toNat, string.length⟩
    else njsStringSlice string ⟨0, 0, string.length⟩
  else njsStringSlice string ⟨0, string.length, string.length⟩

def njsStringPrototypeCharAt : StringProp :=
  let start := njsValueToInteger overflow (njsArg args 1)
  if start < 0 ∨ (string.length : ℤ) ≤ start then njsStringSlice string ⟨0, 0, string.length⟩
  else njsStringSlice string ⟨start.toNat, 1, string.length⟩

/-- The names in `njs_string_prototype_properties`. -/
def njsStringPrototypeProperties : List String :=
  ["__proto__", "length", "constructor", "valueOf", "toString", "concat", "slice", "substring",
    "substr", "charAt", "charCodeAt", "codePointAt", "indexOf", "lastIndexOf", "includes",
    "startsWith", "endsWith", "toLowerCase", "toUpperCase", "trim", "trimStart", "trimEnd",
    "repeat", "padStart", "padEnd", "search", "match", "split", "replace", "replaceAll",
    "Symbol.iterator"]

/-- There is no method `at`. -/
theorem not_at : ¬∀ name ∈ ["slice", "substring", "substr", "at", "charAt"],
    name ∈ njsStringPrototypeProperties := by
  decide

/-! ### The language -/

namespace Number

def clamp (length : ℕ) : Number → ℕ
  | nan => 0
  | negInfinity => 0
  | infinity => length
  | finite n => (min (max n 0) length).toNat

def relative (length : ℕ) : Number → ℕ
  | nan => 0
  | negInfinity => 0
  | infinity => length
  | finite n => if n < 0 then (max (length + n) 0).toNat else (min n length).toNat

def characterAt (text : List Char) : Number → List Char
  | nan => text.take 1
  | negInfinity => []
  | infinity => []
  | finite n => if n < 0 then [] else (text.drop n.toNat).take 1

end Number

variable (text : List Char) (numbers : List Number)

/-- What `slice` selects. -/
def selectSlice : List Char :=
  let start := numbers[0]?.elim 0 (Number.relative text.length)
  let stop := numbers[1]?.elim text.length (Number.relative text.length)
  (text.drop start).take (stop - start)

/-- What `substring` selects. -/
def selectSubstring : List Char :=
  let start := numbers[0]?.elim 0 (Number.clamp text.length)
  let stop := numbers[1]?.elim text.length (Number.clamp text.length)
  (text.drop (min start stop)).take (max start stop - min start stop)

/-- What `substr` selects. -/
def selectSubstr : List Char :=
  let start := numbers[0]?.elim 0 (Number.relative text.length)
  let length := numbers[1]?.elim text.length (Number.clamp text.length)
  (text.drop start).take (min (start + length) text.length - start)

/-- What `charAt` selects. -/
def selectCharAt : List Char := (numbers[0]?.getD Number.nan).characterAt text

/-! ### Parts of texts -/

theorem sliceLoop_offset {text : List Char} {i n : ℕ} (h : i + n ≤ text.length) :
    sliceLoop (bytes text) n (offset text i) = (offset text (i + n), 0) := by
  induction n generalizing i with
  | zero => rfl
  | succ n ih =>
    have hlt : offset text i < (bytes text).length := by
      have hmono := offset_mono (show i ≤ text.length by omega) (Nat.le_refl text.length)
      rw [offset_length] at hmono
      omega
    rw [sliceLoop, if_pos hlt, njsUtf8Next_offset (by omega), ih (by omega), Nat.add_assoc,
      Nat.add_comm 1]

theorem njsStringSlice_eq {text : List Char} {start length : ℕ} (h : start + length ≤ text.length) :
    njsStringSlice (ofText text) ⟨start, length, text.length⟩ =
      ofText ((text.drop start).take length) := by
  have hlength : ((text.drop start).take length).length = length := by
    rw [List.length_take, List.length_drop]
    omega
  have hprop : njsStringSliceStringProp (ofText text) ⟨start, length, text.length⟩ =
      ofText ((text.drop start).take length) := by
    rw [njsStringSliceStringProp]
    split_ifs with hascii hstart
    · change (bytes text).length = text.length at hascii
      have hdrop : (bytes (text.drop start)).length = (text.drop start).length := by
        rw [length_bytes_eq_iff] at hascii ⊢
        exact fun c hc => hascii c (List.mem_of_mem_drop hc)
      have hslice := slice_bytes text start length
      rw [offset_ascii hascii (by omega), offset_ascii hdrop (by rw [List.length_drop]; omega)]
        at hslice
      exact StringProp.ext hslice hlength.symm
    · have hoffset := njsStringUtf8Offset_eq hstart
      dsimp only [ofText]
      rw [hoffset, sliceLoop_offset h, offset_add, Nat.add_sub_cancel_left, slice_bytes]
      exact StringProp.ext rfl hlength.symm
    · change ¬start < text.length at hstart
      obtain rfl : length = 0 := by omega
      rfl
  rw [njsStringSlice, hprop]
  by_cases hempty : (bytes ((text.drop start).take length)).length = 0
  · have hnil := bytes_eq_nil_iff.1 (List.eq_nil_of_length_eq_zero hempty)
    rw [hnil]
    rfl
  · exact if_pos hempty

/-! ### Positions -/

/-- An integer as a position, which is relative to the end if it is negative. -/
def position (length : ℕ) (z : ℤ) : ℕ := (if z < 0 then max (length + z) 0 else min z length).toNat

def clamped (length : ℕ) (z : ℤ) : ℕ := (min (max z 0) length).toNat

theorem position_zero (length : ℕ) : position length 0 = 0 := by
  rw [position, if_neg (Int.lt_irrefl 0)]
  omega

theorem position_length (length : ℕ) : position length length = length := by
  rw [position]
  split_ifs <;> omega

theorem clamped_zero (length : ℕ) : clamped length 0 = 0 := by
  rw [clamped]
  omega

section

variable {overflow : BitVec 64} {x : Number} {length : ℕ}

theorem clamp_eq (hx : x ≠ .finite (2 ^ 63)) (hlength : length ≤ njsStringMaxLength) :
    clamped length (njsNumberToInteger overflow x) = x.clamp length := by
  rw [njsStringMaxLength] at hlength
  rw [clamped]
  cases x with
  | nan => simp [Number.clamp, njsNumberToInteger]
  | negInfinity => simp only [Number.clamp, njsNumberToInteger]; omega
  | infinity => simp only [Number.clamp, njsNumberToInteger]; omega
  | finite n =>
    have hn : n ≠ 2 ^ 63 := fun h => hx (congrArg _ h)
    rw [Number.clamp, njsNumberToInteger, if_neg hn]
    split_ifs <;> omega

theorem relative_eq (hx : x ≠ .finite (2 ^ 63)) (hlength : length ≤ njsStringMaxLength) :
    position length (njsNumberToInteger overflow x) = x.relative length := by
  rw [njsStringMaxLength] at hlength
  rw [position]
  cases x with
  | nan => simp [Number.relative, njsNumberToInteger]
  | negInfinity => simp only [Number.relative, njsNumberToInteger]; omega
  | infinity => simp only [Number.relative, njsNumberToInteger]; omega
  | finite n =>
    have hn : n ≠ 2 ^ 63 := fun h => hx (congrArg _ h)
    rw [Number.relative, njsNumberToInteger, if_neg hn]
    split_ifs <;> omega

end

variable {overflow : BitVec 64} {text : List Char}

theorem part_congr {s l f t : ℕ} (hl : l = t - f) (hs : s = f ∨ l = 0) :
    (text.drop s).take l = (text.drop f).take (t - f) := by
  subst hl
  obtain rfl | hzero := hs
  · rfl
  · rw [hzero, List.take_zero, List.take_zero]

theorem part_eq {p : SliceProp} {f t : ℕ} (hlength : p.stringLength = text.length)
    (hle : p.start + p.length ≤ text.length) (hl : p.length = t - f)
    (hs : p.start = f ∨ p.length = 0) :
    njsStringSlice (ofText text) p = ofText ((text.drop f).take (t - f)) := by
  obtain ⟨s, l, length⟩ := p
  dsimp only at hlength hle hl hs
  rw [hlength, njsStringSlice_eq hle, part_congr hl hs]

theorem start_eq (length : ℕ) (z : ℤ) :
    min (if z < 0 then (if z + length < 0 then 0 else z + length) else z) (length : ℤ) =
      position length z := by
  rw [position]
  split_ifs <;> omega

theorem stop_eq (length : ℕ) (z : ℤ) :
    max (min (if z < 0 then z + length else z) length) 0 = (position length z : ℤ) := by
  rw [position]
  split_ifs <;> omega

theorem substrStart_eq {length : ℕ} {z : ℤ} (hz : z < length) :
    (if z < 0 then (if z + length < 0 then 0 else z + length) else z) =
      (position length z : ℤ) := by
  rw [position]
  split_ifs <;> omega

theorem clampedStart_eq (length : ℕ) (z : ℤ) :
    (if z < 0 then 0 else if (length : ℤ) < z then (length : ℤ) else z) = clamped length z := by
  rw [clamped]
  split_ifs <;> omega

theorem clampedStop_eq (length : ℕ) (z : ℤ) :
    (if z < 0 then 0 else if (length : ℤ) ≤ z then (length : ℤ) else z) = clamped length z := by
  rw [clamped]
  split_ifs <;> omega

theorem substrLength_eq {length f : ℕ} (hf : f ≤ length) (n : ℤ) :
    (if n < 0 then 0 else if n < (length : ℤ) - f then n else (length : ℤ) - f) =
      ((min (clamped length n) (length - f) : ℕ) : ℤ) := by
  rw [clamped]
  split_ifs <;> omega

theorem position_le (length : ℕ) (z : ℤ) : position length z ≤ length := by
  rw [position]
  split_ifs <;> omega

theorem clamped_le (length : ℕ) (z : ℤ) : clamped length z ≤ length := by
  rw [clamped]
  omega

/-- The characters that `slice` selects by its integers. -/
theorem njsStringPrototypeSlice_eq (args : List Argument) :
    njsStringPrototypeSlice overflow (ofText text) args =
      let f := position text.length (njsValueToInteger overflow (njsArg args 1))
      let t := position text.length (definedOr overflow text.length (njsArg args 2))
      ofText ((text.drop f).take (t - f)) := by
  have hstart := start_eq text.length (njsValueToInteger overflow (njsArg args 1))
  have hstop := stop_eq text.length (definedOr overflow text.length (njsArg args 2))
  rw [njsStringPrototypeSlice]
  change njsStringSlice (ofText text) (njsStringSliceArgs overflow args text.length) = _
  rw [njsStringSliceArgs]
  generalize position text.length (njsValueToInteger overflow (njsArg args 1)) = f at *
  generalize position text.length (definedOr overflow text.length (njsArg args 2)) = t at *
  dsimp only
  generalize (if njsValueToInteger overflow (njsArg args 1) < 0 then _ else _ : ℤ) = s at *
  generalize (if definedOr overflow text.length (njsArg args 2) < 0 then _ else _ : ℤ) = e at *
  split_ifs <;> exact part_eq rfl (by dsimp only; omega) (by dsimp only; omega)
    (by dsimp only; omega)

/-- The characters that `substring` selects by its integers. -/
theorem njsStringPrototypeSubstring_eq (args : List Argument) :
    njsStringPrototypeSubstring overflow (ofText text) args =
      let f := clamped text.length (njsValueToInteger overflow (njsArg args 1))
      let t := if 1 < args.length then
        clamped text.length (njsValueToInteger overflow (njsArg args 2)) else text.length
      ofText ((text.drop (min f t)).take (max f t - min f t)) := by
  have hlength : (ofText text).length = text.length := rfl
  rw [njsStringPrototypeSubstring, hlength]
  by_cases hargs : 0 < args.length
  · have hf := clamped_le text.length (njsValueToInteger overflow (njsArg args 1))
    have ht := clamped_le text.length (njsValueToInteger overflow (njsArg args 2))
    rw [if_pos hargs]
    dsimp only
    rw [clampedStart_eq, clampedStop_eq]
    generalize clamped text.length (njsValueToInteger overflow (njsArg args 1)) = f at *
    generalize clamped text.length (njsValueToInteger overflow (njsArg args 2)) = t at *
    split_ifs <;> exact part_eq rfl (by dsimp only; omega) (by dsimp only; omega)
      (by dsimp only; omega)
  obtain rfl := List.eq_nil_of_length_eq_zero (Nat.eq_zero_of_not_pos hargs)
  have hzero : clamped text.length (njsValueToInteger overflow (njsArg [] 1)) = 0 :=
    clamped_zero text.length
  have hstop : (if 1 < ([] : List Argument).length then
      clamped text.length (njsValueToInteger overflow (njsArg [] 2)) else text.length) =
        text.length := if_neg (Nat.not_lt_zero 1)
  rw [if_neg hargs, hzero, hstop]
  dsimp only
  rw [Nat.zero_min, Nat.zero_max]
  exact part_eq rfl (Nat.le_of_eq (Nat.zero_add _)) rfl (.inl rfl)

/-- The characters that `substr` selects by its integers. -/
theorem njsStringPrototypeSubstr_eq (args : List Argument) :
    njsStringPrototypeSubstr overflow (ofText text) args =
      let f := position text.length (njsValueToInteger overflow (njsArg args 1))
      let n := if 1 < args.length then
        clamped text.length (njsValueToInteger overflow (njsArg args 2)) else text.length
      ofText ((text.drop f).take (min (f + n) text.length - f)) := by
  have hlength : (ofText text).length = text.length := rfl
  rw [njsStringPrototypeSubstr, hlength]
  by_cases hargs : 0 < args.length
  · rw [if_pos hargs]
    dsimp only
    generalize njsValueToInteger overflow (njsArg args 1) = z
    have hf := position_le text.length z
    by_cases hz : z < text.length
    · rw [if_pos hz, substrStart_eq hz]
      generalize position text.length z = f at *
      by_cases hcount : 1 < args.length
      · rw [if_pos hcount, if_pos hcount, substrLength_eq hf]
        exact part_eq rfl (by dsimp only; omega) (by dsimp only; omega) (by dsimp only; omega)
      · rw [if_neg hcount, if_neg hcount]
        exact part_eq rfl (by dsimp only; omega) (by dsimp only; omega) (by dsimp only; omega)
    · have hend : position text.length z = text.length := by
        rw [position]
        split_ifs <;> omega
      rw [if_neg hz, hend]
      exact part_eq rfl (Nat.zero_le _) (by dsimp only; omega) (.inr rfl)
  · obtain rfl := List.eq_nil_of_length_eq_zero (Nat.eq_zero_of_not_pos hargs)
    have hzero : position text.length (njsValueToInteger overflow (njsArg [] 1)) = 0 :=
      position_zero text.length
    have hcount : (if 1 < ([] : List Argument).length then
        clamped text.length (njsValueToInteger overflow (njsArg [] 2)) else text.length) =
          text.length := if_neg (Nat.not_lt_zero 1)
    rw [if_neg hargs, hzero, hcount]
    exact part_eq rfl (Nat.le_of_eq (Nat.zero_add _)) (by dsimp only; omega) (.inl rfl)

/-- The character that `charAt` selects by its integer. -/
theorem njsStringPrototypeCharAt_eq (args : List Argument) :
    njsStringPrototypeCharAt overflow (ofText text) args =
      let z := njsValueToInteger overflow (njsArg args 1)
      ofText (if z < 0 then [] else (text.drop z.toNat).take 1) := by
  have hlength : (ofText text).length = text.length := rfl
  rw [njsStringPrototypeCharAt, hlength]
  generalize njsValueToInteger overflow (njsArg args 1) = z
  dsimp only
  split_ifs with hout hneg
  · exact njsStringSlice_eq (Nat.zero_le _)
  · rw [List.drop_eq_nil_of_le (by omega)]
    exact njsStringSlice_eq (Nat.zero_le _)
  · omega
  · exact njsStringSlice_eq (by omega)

theorem characterAt_eq {x : Number} (hx : x ≠ .finite (2 ^ 63))
    (hlength : text.length ≤ njsStringMaxLength) :
    (if njsNumberToInteger overflow x < 0 then []
      else (text.drop (njsNumberToInteger overflow x).toNat).take 1) = x.characterAt text := by
  rw [njsStringMaxLength] at hlength
  -- The integers that numbers are cut to are outside of any string.
  have hlarge : (text.drop (2 ^ 63 - 1 : ℤ).toNat).take 1 = [] := by
    rw [List.drop_eq_nil_of_le (by omega), List.take_nil]
  cases x with
  | nan => rfl
  | negInfinity => rfl
  | infinity => exact hlarge
  | finite n =>
    have hn : n ≠ 2 ^ 63 := fun h => hx (congrArg _ h)
    rw [njsNumberToInteger, if_neg hn, Number.characterAt]
    by_cases hlow : n < -2 ^ 63
    · rw [if_pos hlow, if_pos (by omega), if_pos (by omega)]
    · rw [if_neg hlow]
      by_cases hhigh : 2 ^ 63 < n
      · rw [if_pos hhigh, if_neg (by omega), if_neg (by omega), hlarge,
          List.drop_eq_nil_of_le (by omega), List.take_nil]
      · rw [if_neg hhigh]

/-- The methods give the characters that the language selects, unless an argument is 2⁶³. -/
theorem methods_select (overflow : BitVec 64) {text : List Char}
    (hsize : (bytes text).length ≤ njsStringMaxLength) {numbers : List Number}
    (hnumbers : Number.finite (2 ^ 63) ∉ numbers) :
    njsStringPrototypeSlice overflow (ofText text) (numbers.map .number) =
      ofText (selectSlice text numbers) ∧
    njsStringPrototypeSubstring overflow (ofText text) (numbers.map .number) =
      ofText (selectSubstring text numbers) ∧
    njsStringPrototypeSubstr overflow (ofText text) (numbers.map .number) =
      ofText (selectSubstr text numbers) ∧
    njsStringPrototypeCharAt overflow (ofText text) (numbers.map .number) =
      ofText (selectCharAt text numbers) := by
  have hlength : text.length ≤ njsStringMaxLength := Nat.le_trans (length_le_bytes text) hsize
  have hposition := position_length text.length
  have hzero : njsValueToInteger overflow .undefined = 0 := rfl
  have hnumber : ∀ x, njsValueToInteger overflow (.number x) = njsNumberToInteger overflow x :=
    fun _ => rfl
  rw [njsStringPrototypeSlice_eq, njsStringPrototypeSubstring_eq, njsStringPrototypeSubstr_eq,
    njsStringPrototypeCharAt_eq]
  obtain _ | ⟨a, _ | ⟨b, rest⟩⟩ := numbers
  · simp [njsArg, definedOr, hzero, hposition, position_zero, clamped_zero, selectSlice,
      selectSubstring, selectSubstr, selectCharAt, Number.characterAt]
  · have ha : a ≠ .finite (2 ^ 63) := fun h => hnumbers (h ▸ List.mem_cons_self)
    have hat := @characterAt_eq overflow text a ha hlength
    simp [njsArg, definedOr, hnumber, hposition, clamp_eq ha hlength, relative_eq ha hlength,
      selectSlice, selectSubstring, selectSubstr, selectCharAt, hat]
  have ha : a ≠ .finite (2 ^ 63) := fun h => hnumbers (h ▸ List.mem_cons_self)
  have hb : b ≠ .finite (2 ^ 63) :=
    fun h => hnumbers (h ▸ List.mem_cons_of_mem _ List.mem_cons_self)
  have hat := @characterAt_eq overflow text a ha hlength
  simp [njsArg, definedOr, hnumber, clamp_eq ha hlength, relative_eq ha hlength,
    clamp_eq hb hlength, relative_eq hb hlength, selectSlice, selectSubstring, selectSubstr,
    selectCharAt, hat]

/-- Two arguments that are relative to the end. -/
theorem methods_select_relative : (bytes ['a', 'ä', '€', 'z']).length ≤ njsStringMaxLength ∧
    Number.finite (2 ^ 63) ∉ [Number.finite (-3), Number.finite (-1)] ∧
    njsStringPrototypeSlice 0 (ofText ['a', 'ä', '€', 'z'])
      (List.map .number [.finite (-3), .finite (-1)]) = ofText ['ä', '€'] :=
  have hsize : (bytes ['a', 'ä', '€', 'z']).length ≤ njsStringMaxLength := by decide
  have hnumbers : Number.finite (2 ^ 63) ∉ [Number.finite (-3), Number.finite (-1)] := by decide
  ⟨hsize, hnumbers, (methods_select 0 hsize hnumbers).1.trans (congrArg ofText (by decide))⟩

end Njs.Strings
