import Njs.Lib.BinaryText

/-!
# The encodings of binary data

The length of decoded data is found in a pass of its own. In base 64 it stops where the digits end,
in base 16 it is half of that of the text, and the string is cut off behind the bytes that have been
written.
-/

namespace Njs.Strings

open Text
open Base16 (decode_encode encode encode_lt hexadecimal length_read_le value)

/-! ### The code -/

def njsBasis64 : List ℕ :=
  [77, 77, 77, 77, 77, 77, 77, 77, 77, 77, 77, 77, 77, 77, 77, 77,
   77, 77, 77, 77, 77, 77, 77, 77, 77, 77, 77, 77, 77, 77, 77, 77,
   77, 77, 77, 77, 77, 77, 77, 77, 77, 77, 77, 62, 77, 77, 77, 63,
   52, 53, 54, 55, 56, 57, 58, 59, 60, 61, 77, 77, 77, 77, 77, 77,
   77,  0,  1,  2,  3,  4,  5,  6,  7,  8,  9, 10, 11, 12, 13, 14,
   15, 16, 17, 18, 19, 20, 21, 22, 23, 24, 25, 77, 77, 77, 77, 77,
   77, 26, 27, 28, 29, 30, 31, 32, 33, 34, 35, 36, 37, 38, 39, 40,
   41, 42, 43, 44, 45, 46, 47, 48, 49, 50, 51, 77, 77, 77, 77, 77] ++ List.replicate 128 77

def njsBasis64url : List ℕ :=
  [77, 77, 77, 77, 77, 77, 77, 77, 77, 77, 77, 77, 77, 77, 77, 77,
   77, 77, 77, 77, 77, 77, 77, 77, 77, 77, 77, 77, 77, 77, 77, 77,
   77, 77, 77, 77, 77, 77, 77, 77, 77, 77, 77, 77, 77, 62, 77, 77,
   52, 53, 54, 55, 56, 57, 58, 59, 60, 61, 77, 77, 77, 77, 77, 77,
   77,  0,  1,  2,  3,  4,  5,  6,  7,  8,  9, 10, 11, 12, 13, 14,
   15, 16, 17, 18, 19, 20, 21, 22, 23, 24, 25, 77, 77, 77, 77, 63,
   77, 26, 27, 28, 29, 30, 31, 32, 33, 34, 35, 36, 37, 38, 39, 40,
   41, 42, 43, 44, 45, 46, 47, 48, 49, 50, 51, 77, 77, 77, 77, 77] ++ List.replicate 128 77

def njsBasis64Enc : Bytes :=
  lit "ABCDEFGHIJKLMNOPQRSTUVWXYZabcdefghijklmnopqrstuvwxyz0123456789+/"

def njsBasis64urlEnc : Bytes :=
  lit "ABCDEFGHIJKLMNOPQRSTUVWXYZabcdefghijklmnopqrstuvwxyz0123456789-_"

def njsBase64EncodedLength (len : ℕ) : ℕ := (len + 2) / 3 * 4

def njsBase64DecodedLength (len pad : ℕ) : ℕ := len / 4 * 3 - pad

def njsEncodeBase64Core (basis : Bytes) (padding : Bool) : Bytes → Bytes
  | c0 :: c1 :: c2 :: s =>
    basis.getD (c0.toNat >>> 2) 0 ::
      basis.getD (((c0.toNat &&& 0x03) <<< 4) ||| (c1.toNat >>> 4)) 0 ::
      basis.getD (((c1.toNat &&& 0x0f) <<< 2) ||| (c2.toNat >>> 6)) 0 ::
      basis.getD (c2.toNat &&& 0x3f) 0 :: njsEncodeBase64Core basis padding s
  | [c0, c1] =>
    [basis.getD (c0.toNat >>> 2) 0, basis.getD (((c0.toNat &&& 0x03) <<< 4) ||| (c1.toNat >>> 4)) 0,
      basis.getD ((c1.toNat &&& 0x0f) <<< 2) 0] ++ if padding then [chr '='] else []
  | [c0] =>
    [basis.getD (c0.toNat >>> 2) 0, basis.getD ((c0.toNat &&& 0x03) <<< 4) 0] ++
      if padding then [chr '=', chr '='] else []
  | [] => []

def njsEncodeBase64 : Bytes → Bytes := njsEncodeBase64Core njsBasis64Enc true

def njsEncodeBase64url : Bytes → Bytes := njsEncodeBase64Core njsBasis64urlEnc false

def njsDecodeBase64LengthCore (basis : List ℕ) (src : Bytes) : ℕ :=
  let len := (src.takeWhile fun c => basis.getD c.toNat 77 ≠ 77).length
  let pad := if len % 4 ≠ 0 then 4 - len % 4 else 0
  njsBase64DecodedLength (len + pad) pad

/-- The value of a byte of the source, or none behind its end. -/
def valueAt (basis : List ℕ) (s : Bytes) (i : ℕ) : Option ℕ :=
  s[i]?.map fun c => basis.getD c.toNat 77

/-- `njs_decode_base64_core`, with the length of what is still to be written. It is none if the code
reads behind the end of the source. -/
def njsDecodeBase64Core (basis : List ℕ) : ℕ → Bytes → Option Bytes
  | len + 3, s => do
    let v0 ← valueAt basis s 0
    let v1 ← valueAt basis s 1
    let v2 ← valueAt basis s 2
    let v3 ← valueAt basis s 3
    let d ← njsDecodeBase64Core basis len (s.drop 4)
    return .ofNat ((v0 <<< 2) ||| (v1 >>> 4)) :: .ofNat ((v1 <<< 4) ||| (v2 >>> 2)) ::
      .ofNat ((v2 <<< 6) ||| v3) :: d
  | 2, s => do
    let v0 ← valueAt basis s 0
    let v1 ← valueAt basis s 1
    let v2 ← valueAt basis s 2
    return [.ofNat ((v0 <<< 2) ||| (v1 >>> 4)), .ofNat ((v1 <<< 4) ||| (v2 >>> 2))]
  | 1, s => do
    let v0 ← valueAt basis s 0
    let v1 ← valueAt basis s 1
    return [.ofNat ((v0 <<< 2) ||| (v1 >>> 4))]
  | 0, _ => some []

/-- What a decoder does: the length that it finds first, the bytes that it writes, and the size of
the string that it makes. -/
structure Decoded where
  length : ℕ
  written : Bytes
  size : ℕ
  deriving DecidableEq

def njsStringDecodeBase64Core (url : Bool) (src : Bytes) : Option Decoded :=
  let basis := if url then njsBasis64url else njsBasis64
  let length := njsDecodeBase64LengthCore basis src
  if length = 0 then some ⟨length, [], 0⟩
  else (njsDecodeBase64Core basis length src).map fun dst => ⟨length, dst, length⟩

def njsStringDecodeBase64 : Bytes → Option Decoded := njsStringDecodeBase64Core false

def njsStringDecodeBase64url : Bytes → Option Decoded := njsStringDecodeBase64Core true

def njsEncodeHex (src : Bytes) : Bytes :=
  src.flatMap fun c => [(lit "0123456789abcdef").getD (c.toNat >>> 4) 0,
    (lit "0123456789abcdef").getD (c.toNat &&& 0x0f) 0]

/-- `njs_char_to_hex`, where -1 is none. -/
def njsCharToHex (c : UInt8) : Option ℕ :=
  let c := c ||| 0x20
  let c := c - chr '0'
  if 9 < c then
    let c := c - (chr 'a' - chr '0')
    if 5 < c then none else some (c + 10).toNat
  else some c.toNat

/-- The loop of `njs_decode_hex` from a position on. -/
def decodeHexLoop : ℕ → ℕ → Bytes → Bytes
  | _, _, [] => []
  | i, n, c :: start =>
    match njsCharToHex c with
    | none => []
    | some c =>
      let n := n * 16 + c
      if i &&& 1 ≠ 0 then .ofNat n :: decodeHexLoop (i + 1) 0 start
      else decodeHexLoop (i + 1) n start

/-- `njs_decode_hex`: the bytes that it writes, and the length that it leaves. -/
def njsDecodeHex (length : ℕ) (src : Bytes) : Bytes × ℕ :=
  let dst := decodeHexLoop 0 0 src
  (dst, length - (length - dst.length))

def njsDecodeHexLength (src : Bytes) : ℕ := src.length / 2

def njsStringDecodeHex (src : Bytes) : Decoded :=
  let size := njsDecodeHexLength src
  if size = 0 then ⟨size, [], 0⟩
  else
    let (dst, length) := njsDecodeHex size src
    ⟨size, dst, if length ≠ size then length else size⟩

/-! ### Base 64 -/

/-- The tables of the code for the letters of some digits. -/
structure IsBasis (N : Numerals 64) (enc : Bytes) (basis : List ℕ) : Prop where
  letter : ∀ d < 64, enc.getD d 0 = N.letter d
  value : ∀ c : UInt8, basis.getD c.toNat 77 = (N.value c).getD 77
  pad : N.value (chr '=') = none

/-- The numbers of the letters and digits. -/
def codes : List ℕ := List.range' 65 26 ++ List.range' 97 26 ++ List.range' 48 10

/-- The entry of a table for a number, by its last two letters. -/
def digitOf (plus slash n : ℕ) : ℕ :=
  if 65 ≤ n ∧ n ≤ 90 then n - 65
  else if 97 ≤ n ∧ n ≤ 122 then n - 71
  else if 48 ≤ n ∧ n ≤ 57 then n + 4
  else if n = plus then 62
  else if n = slash then 63
  else 77

theorem getD_of_digitOf {plus slash : ℕ} {basis : List ℕ} {letters : Bytes}
    (hlength : letters.length = 64) (hnodup : letters.Nodup)
    (hbasis : basis = (List.range 256).map (digitOf plus slash))
    (hletters : letters.map UInt8.toNat = codes ++ [plus, slash])
    (hdigits : (∀ d < 64, digitOf plus slash ((codes ++ [plus, slash]).getD d 0) = d) ∧
      ∀ n < 256, digitOf plus slash n = 77 ∨ digitOf plus slash n < 64 ∧
        (codes ++ [plus, slash]).getD (digitOf plus slash n) 0 = n) (c : UInt8) :
    basis.getD c.toNat 77 = ((Numerals.ofAlphabet letters hlength hnodup).value c).getD 77 := by
  have hletter (d : ℕ) : (letters.getD d 0).toNat = (codes ++ [plus, slash]).getD d 0 := by
    rw [← hletters, List.getD_eq_getElem?_getD, List.getD_eq_getElem?_getD, List.getElem?_map]
    rcases letters[d]? with _ | x
    · rfl
    · rfl
  have hentry : basis.getD c.toNat 77 = digitOf plus slash c.toNat := by
    rw [hbasis, List.getD_eq_getElem?_getD, List.getElem?_map, List.getElem?_range c.toNat_lt]
    rfl
  rw [hentry]
  rcases hvalue : (Numerals.ofAlphabet letters hlength hnodup).value c with _ | d
  · obtain hnone | ⟨hlt, hcode⟩ := hdigits.2 c.toNat c.toNat_lt
    · exact hnone
    have hc : letters.getD (digitOf plus slash c.toNat) 0 = c :=
      UInt8.toNat_inj.1 ((hletter _).trans hcode)
    have hsome := (Numerals.ofAlphabet letters hlength hnodup).value_letter _ hlt
    change (Numerals.ofAlphabet letters hlength hnodup).value (letters.getD _ 0) = _ at hsome
    rw [hc, hvalue] at hsome
    exact absurd hsome (Option.some_ne_none _).symm
  have hlt := (Numerals.ofAlphabet letters hlength hnodup).value_lt c d hvalue
  have hc : c = letters.getD d 0 := by
    obtain ⟨hd, hget, -⟩ := List.idxOf?_eq_some_iff.1 hvalue
    rw [List.getD_eq_getElem _ _ hd, hget]
  rw [hc, hletter, hdigits.1 d hlt]
  rfl

set_option maxRecDepth 4000 in
theorem isBasis : IsBasis Base64.standard njsBasis64Enc njsBasis64 ∧
    IsBasis Base64.url njsBasis64urlEnc njsBasis64url := by
  have hletters : Base64.alphabet.map UInt8.toNat = codes ++ [43, 47] ∧
      Base64.urlAlphabet.map UInt8.toNat = codes ++ [45, 95] ∧
      Base64.alphabet.idxOf? (chr '=') = none ∧ Base64.urlAlphabet.idxOf? (chr '=') = none := by
    rw [Base64.alphabet, Base64.urlAlphabet, lit_eq_litUndecoded]
    decide
  obtain ⟨hstandard, hurl, hpad, hpadUrl⟩ := hletters
  have htable := getD_of_digitOf Base64.alphabets.1.1 Base64.alphabets.1.2
    (show njsBasis64 = _ by decide) hstandard
    (by decide)
  have hurlTable := getD_of_digitOf Base64.alphabets.2.1 Base64.alphabets.2.2
    (show njsBasis64url = _ by decide) hurl
    (by decide)
  exact ⟨⟨fun _ _ => rfl, htable, (Base64.standard_value _).trans hpad⟩,
    ⟨fun _ _ => rfl, hurlTable, (Base64.url_value _).trans hpadUrl⟩⟩

theorem shift_or {b i : ℕ} (hb : b < 2 ^ i) (a : ℕ) : (a <<< i) ||| b = a * 2 ^ i + b := by
  rw [← Nat.shiftLeft_add_eq_or_of_lt hb, Nat.shiftLeft_eq]

theorem mask (x i : ℕ) : x &&& (2 ^ i - 1) = x % 2 ^ i := Nat.and_two_pow_sub_one_eq_mod x i

theorem digits_eq (c0 c1 c2 : ℕ) (h1 : c1 < 256) (h2 : c2 < 256) :
    c0 >>> 2 = c0 / 4 ∧ ((c0 &&& 0x03) <<< 4) ||| (c1 >>> 4) = c0 % 4 * 16 + c1 / 16 ∧
      ((c1 &&& 0x0f) <<< 2) ||| (c2 >>> 6) = c1 % 16 * 4 + c2 / 64 ∧ c2 &&& 0x3f = c2 % 64 ∧
      (c0 &&& 0x03) <<< 4 = c0 % 4 * 16 ∧ (c1 &&& 0x0f) <<< 2 = c1 % 16 * 4 := by
  have h03 : c0 &&& 0x03 = c0 % 4 := mask c0 2
  have h0f : c1 &&& 0x0f = c1 % 16 := mask c1 4
  refine ⟨by omega, ?_, ?_, mask c2 6, ?_, ?_⟩
  · rw [h03, shift_or (by omega)]
    omega
  · rw [h0f, shift_or (by omega)]
    omega
  · rw [h03]
    omega
  · rw [h0f]
    omega

theorem first_byte (v0 : ℕ) {v1 : ℕ} (h1 : v1 < 64) :
    UInt8.ofNat ((v0 <<< 2) ||| (v1 >>> 4)) = .ofNat (v0 * 4 + v1 / 16) := by
  rw [shift_or (by omega)]
  exact UInt8.toNat_inj.1 (by simp only [UInt8.toNat_ofNat']; omega)

theorem second_byte (v1 : ℕ) {v2 : ℕ} (h2 : v2 < 64) :
    UInt8.ofNat ((v1 <<< 4) ||| (v2 >>> 2)) = .ofNat (v1 % 16 * 16 + v2 / 4) := by
  rw [shift_or (by omega)]
  exact UInt8.toNat_inj.1 (by simp only [UInt8.toNat_ofNat']; omega)

theorem third_byte (v2 : ℕ) {v3 : ℕ} (h3 : v3 < 64) :
    UInt8.ofNat ((v2 <<< 6) ||| v3) = .ofNat (v2 % 4 * 64 + v3) := by
  rw [shift_or (by omega)]
  exact UInt8.toNat_inj.1 (by simp only [UInt8.toNat_ofNat']; omega)

@[simp] theorem valueAt_succ (basis : List ℕ) (c : UInt8) (s : Bytes) (i : ℕ) :
    valueAt basis (c :: s) (i + 1) = valueAt basis s i := rfl

namespace IsBasis

variable {N : Numerals 64} {enc : Bytes} {basis : List ℕ} (h : IsBasis N enc basis)
include h

theorem getD_of_some {c : UInt8} {d : ℕ} (hc : N.value c = some d) : basis.getD c.toNat 77 = d := by
  rw [h.value, hc, Option.getD_some]

theorem valueAt_zero {c : UInt8} {d : ℕ} (hc : N.value c = some d) (s : Bytes) :
    valueAt basis (c :: s) 0 = some d := by
  rw [valueAt, List.getElem?_cons_zero, Option.map_some, h.getD_of_some hc]

theorem ne_iff (c : UInt8) : basis.getD c.toNat 77 ≠ 77 ↔ N.IsLetter c := by
  rw [h.value, Numerals.IsLetter]
  obtain hc | ⟨d, hc⟩ := Option.eq_none_or_eq_some (N.value c)
  · rw [hc]
    simp
  · have := N.value_lt c d hc
    rw [hc, Option.getD_some, Option.isSome_some]
    exact iff_of_true (by omega) rfl

theorem letters_eq {digits : List ℕ} (hdigits : ∀ d ∈ digits, d < 64) :
    digits.map (enc.getD · 0) = digits.map N.letter :=
  List.map_congr_left fun d hd => h.letter d (hdigits d hd)

theorem njsEncodeBase64Core_eq (padding : Bool) (src : Bytes) :
    njsEncodeBase64Core enc padding src = (Base64.encode src).map N.letter ++
      if padding then List.replicate (Base64.pad src) (chr '=') else [] := by
  rw [← h.letters_eq (Base64.encode_lt src)]
  fun_induction Base64.encode src with
  | case1 c0 c1 c2 s ih =>
    obtain ⟨h0, h1, h2, h3, -, -⟩ := digits_eq c0.toNat c1.toNat c2.toNat c1.toNat_lt c2.toNat_lt
    rw [njsEncodeBase64Core, ih, h0, h1, h2, h3, Base64.pad_add_three]
    rfl
  | case2 c0 c1 =>
    obtain ⟨h0, h1, -, -, -, h2⟩ := digits_eq c0.toNat c1.toNat 0 c1.toNat_lt (by omega)
    rw [njsEncodeBase64Core, h0, h1, h2]
    rfl
  | case3 c0 =>
    obtain ⟨h0, -, -, -, h1, -⟩ := digits_eq c0.toNat 0 0 (by omega) (by omega)
    rw [njsEncodeBase64Core, h0, h1]
    rfl
  | case4 => cases padding <;> rfl

theorem njsDecodeBase64LengthCore_eq (src : Bytes) :
    njsDecodeBase64LengthCore basis src = (N.leading src).length * 3 / 4 := by
  have hstop : (fun c : UInt8 => decide (basis.getD c.toNat 77 ≠ 77)) = N.IsLetter := by
    funext c
    rw [Bool.eq_iff_iff, decide_eq_true_eq]
    exact h.ne_iff c
  rw [N.length_leading, njsDecodeBase64LengthCore, hstop, njsBase64DecodedLength]
  change _ = (src.takeWhile N.IsLetter).length * 3 / 4
  split_ifs <;> omega

theorem njsDecodeBase64Core_eq {src : Bytes} {digits : List ℕ} (hdigits : N.leading src = digits) :
    njsDecodeBase64Core basis (digits.length * 3 / 4) src = some (Base64.decode digits) := by
  fun_induction Base64.decode digits generalizing src with
  | case1 a b c d rest ih =>
    obtain ⟨x0, src, rfl, h0, hdigits⟩ := N.of_leading_eq_cons hdigits
    obtain ⟨x1, src, rfl, h1, hdigits⟩ := N.of_leading_eq_cons hdigits
    obtain ⟨x2, src, rfl, h2, hdigits⟩ := N.of_leading_eq_cons hdigits
    obtain ⟨x3, src, rfl, h3, hdigits⟩ := N.of_leading_eq_cons hdigits
    have hlength : (a :: b :: c :: d :: rest).length * 3 / 4 = rest.length * 3 / 4 + 3 := by
      simp only [List.length_cons]
      omega
    have hb : b < 64 := N.value_lt _ _ h1
    have hc : c < 64 := N.value_lt _ _ h2
    have hd : d < 64 := N.value_lt _ _ h3
    rw [hlength, njsDecodeBase64Core]
    simp only [valueAt_succ, h.valueAt_zero h0, h.valueAt_zero h1, h.valueAt_zero h2,
      h.valueAt_zero h3, List.drop_succ_cons, List.drop_zero, ih hdigits, Option.bind_eq_bind,
      Option.bind_some, Option.pure_def, first_byte a hb, second_byte b hc, third_byte c hd]
  | case2 a b c =>
    obtain ⟨x0, src, rfl, h0, hdigits⟩ := N.of_leading_eq_cons hdigits
    obtain ⟨x1, src, rfl, h1, hdigits⟩ := N.of_leading_eq_cons hdigits
    obtain ⟨x2, src, rfl, h2, -⟩ := N.of_leading_eq_cons hdigits
    have hb : b < 64 := N.value_lt _ _ h1
    have hc : c < 64 := N.value_lt _ _ h2
    have hlength : [a, b, c].length * 3 / 4 = 2 := by simp
    rw [hlength, njsDecodeBase64Core]
    simp only [valueAt_succ, h.valueAt_zero h0, h.valueAt_zero h1, h.valueAt_zero h2,
      Option.bind_eq_bind, Option.bind_some, Option.pure_def, first_byte a hb, second_byte b hc]
  | case3 a b =>
    obtain ⟨x0, src, rfl, h0, hdigits⟩ := N.of_leading_eq_cons hdigits
    obtain ⟨x1, src, rfl, h1, -⟩ := N.of_leading_eq_cons hdigits
    have hb : b < 64 := N.value_lt _ _ h1
    have hlength : [a, b].length * 3 / 4 = 1 := by simp
    rw [hlength, njsDecodeBase64Core]
    simp only [valueAt_succ, h.valueAt_zero h0, h.valueAt_zero h1, Option.bind_eq_bind,
      Option.bind_some, Option.pure_def, first_byte a hb]
  | case4 digits h4 h3 h2 =>
    obtain _ | ⟨a, _ | ⟨b, _ | ⟨c, _ | ⟨d, rest⟩⟩⟩⟩ := digits
    · rfl
    · have hlength : [a].length * 3 / 4 = 0 := by simp
      rw [hlength, njsDecodeBase64Core]
    · exact absurd rfl (h2 a b)
    · exact absurd rfl (h3 a b c)
    · exact absurd rfl (h4 a b c d rest)

theorem leading_njsEncodeBase64Core (padding : Bool) (src : Bytes) :
    N.leading (njsEncodeBase64Core enc padding src) = Base64.encode src := by
  rw [h.njsEncodeBase64Core_eq, N.leading_letters (Base64.encode_lt src)]
  have hpad :
      N.leading (if padding then List.replicate (Base64.pad src) (chr '=') else []) = [] := by
    cases padding with
    | false => rfl
    | true =>
      generalize Base64.pad src = n
      obtain _ | n := n
      · rfl
      · exact N.leading_cons_none h.pad _
  rw [hpad, List.append_nil]

end IsBasis

theorem njsStringDecodeBase64Core_eq {N : Numerals 64} {enc : Bytes} (url : Bool)
    (h : IsBasis N enc (if url then njsBasis64url else njsBasis64)) (src : Bytes) :
    njsStringDecodeBase64Core url src =
      some ⟨(Base64.read N src).length, Base64.read N src, (Base64.read N src).length⟩ := by
  have hcore := h.njsDecodeBase64Core_eq (rfl : N.leading src = _)
  rw [njsStringDecodeBase64Core, h.njsDecodeBase64LengthCore_eq]
  rw [hcore, ← Base64.length_decode]
  change _ = some (Decoded.mk (Base64.decode _).length (Base64.decode _) (Base64.decode _).length)
  split_ifs with hempty
  · rw [List.eq_nil_of_length_eq_zero hempty]
    rfl
  · rfl

/-! ### Base 16 -/

theorem njsCharToHex_or (c : UInt8) :
    if 0x10 ≤ c ∧ c ≤ 0x19 then value c = none else njsCharToHex c = value c := by
  revert c
  exact forall_byte (by decide)

theorem njsCharToHex_eq {c : UInt8} (hc : ¬(0x10 ≤ c ∧ c ≤ 0x19)) :
    njsCharToHex c = value c := by
  have h := njsCharToHex_or c
  rwa [if_neg hc] at h

theorem decodeHexLoop_eq (src : Bytes) (hsrc : ∀ c ∈ src, ¬(0x10 ≤ c ∧ c ≤ 0x19)) {i : ℕ}
    (hi : i % 2 = 0) :
    decodeHexLoop i 0 src = Base16.decode (hexadecimal.leading src) := by
  have hone {j : ℕ} : (j &&& 1 ≠ 0) ↔ j % 2 = 1 := by
    rw [show j &&& 1 = j % 2 from mask j 1]
    omega
  induction src using List.twoStepInduction generalizing i with
  | nil => rfl
  | singleton c =>
    have hc := njsCharToHex_eq (hsrc c List.mem_cons_self)
    obtain h | ⟨d, h⟩ := Option.eq_none_or_eq_some (value c)
    · rw [decodeHexLoop, hc, h, hexadecimal.leading_cons_none h]
      rfl
    · rw [decodeHexLoop, hc, h, hexadecimal.leading_cons_some h]
      dsimp only
      rw [if_neg (hone.not.2 (by omega))]
      rfl
  | cons_cons c c' src ih _ =>
    have hc := njsCharToHex_eq (hsrc c List.mem_cons_self)
    have hc' := njsCharToHex_eq (hsrc c' (List.mem_cons_of_mem _ List.mem_cons_self))
    have ih := ih (fun x hx => hsrc x (List.mem_cons_of_mem _ (List.mem_cons_of_mem _ hx)))
      (i := i + 1 + 1) (by omega)
    obtain h | ⟨d, h⟩ := Option.eq_none_or_eq_some (value c)
    · rw [decodeHexLoop, hc, h, hexadecimal.leading_cons_none h]
      rfl
    rw [decodeHexLoop, hc, h, hexadecimal.leading_cons_some h]
    dsimp only
    rw [if_neg (hone.not.2 (by omega)), decodeHexLoop, hc']
    obtain h' | ⟨d', h'⟩ := Option.eq_none_or_eq_some (value c')
    · rw [h', hexadecimal.leading_cons_none h']
      rfl
    · rw [h', hexadecimal.leading_cons_some h']
      dsimp only
      rw [if_pos (hone.2 (by omega)), ih, Base16.decode, Nat.zero_mul, Nat.zero_add]

theorem njsEncodeHex_eq (src : Bytes) :
    njsEncodeHex src = (encode src).map hexadecimal.letter := by
  rw [njsEncodeHex, encode, List.map_flatMap]
  congr 1
  funext c
  have hhigh : c.toNat >>> 4 = c.toNat / 16 := by omega
  have hlow : c.toNat &&& 0x0f = c.toNat % 16 := mask c.toNat 4
  rw [hhigh, hlow]
  rfl

theorem njsStringDecodeHex_eq {src : Bytes} (hsrc : ∀ c ∈ src, ¬(0x10 ≤ c ∧ c ≤ 0x19)) :
    njsStringDecodeHex src = ⟨src.length / 2, Base16.read hexadecimal src,
      (Base16.read hexadecimal src).length⟩ := by
  have hle := length_read_le hexadecimal src
  have hloop : decodeHexLoop 0 0 src = Base16.read hexadecimal src :=
    decodeHexLoop_eq src hsrc rfl
  rw [njsStringDecodeHex, njsDecodeHexLength, njsDecodeHex]
  dsimp only
  split_ifs with hempty hcut
  · have hnil : Base16.read hexadecimal src = [] :=
      List.eq_nil_of_length_eq_zero (by omega)
    rw [hnil]
    rfl
  · rw [hloop, Nat.sub_sub_self hle]
  · rw [hloop, Nat.sub_sub_self hle] at hcut
    rw [hloop, ← not_not.1 hcut]

theorem read_njsEncodeHex (b : Bytes) : Base16.read hexadecimal (njsEncodeHex b) = b := by
  have hleading := hexadecimal.leading_letters (encode_lt b) []
  rw [List.append_nil, Numerals.leading_nil, List.append_nil] at hleading
  rw [Base16.read, njsEncodeHex_eq, hleading, decode_encode]

theorem not_control_njsEncodeHex (b : Bytes) : ∀ c ∈ njsEncodeHex b, ¬(0x10 ≤ c ∧ c ≤ 0x19) := by
  intro c hc hcontrol
  rw [njsEncodeHex_eq, List.mem_map] at hc
  obtain ⟨d, hd, rfl⟩ := hc
  have hvalue := hexadecimal.value_letter d (encode_lt b d hd)
  have hnone := njsCharToHex_or (hexadecimal.letter d)
  rw [if_pos hcontrol] at hnone
  exact absurd (hnone.symm.trans hvalue) (by simp)

/-! ### All encodings -/

/-- Encoded data is decoded. In base 64 the length found first is that of what is written, and in
base 16 it is at least that of what is written, which the string is cut off behind. -/
theorem binaryText_decode :
    (∀ b : Bytes, njsStringDecodeBase64 (njsEncodeBase64 b) = some ⟨b.length, b, b.length⟩ ∧
      njsStringDecodeBase64url (njsEncodeBase64url b) = some ⟨b.length, b, b.length⟩ ∧
      njsStringDecodeHex (njsEncodeHex b) = ⟨b.length, b, b.length⟩) ∧
    (∀ src : Bytes, ∃ written, written = Base64.read Base64.standard src ∧
      njsStringDecodeBase64 src = some ⟨written.length, written, written.length⟩) ∧
    (∀ src : Bytes, ∃ written, written = Base64.read Base64.url src ∧
      njsStringDecodeBase64url src = some ⟨written.length, written, written.length⟩) ∧
    ∀ src : Bytes, (∀ c ∈ src, ¬(0x10 ≤ c ∧ c ≤ 0x19)) → ∃ length written,
      written = Base16.read Base16.hexadecimal src ∧ written.length ≤ length ∧
      njsStringDecodeHex src = ⟨length, written, written.length⟩ := by
  have hstandard := njsStringDecodeBase64Core_eq false isBasis.1
  have hurl := njsStringDecodeBase64Core_eq true isBasis.2
  refine ⟨fun b => ⟨?_, ?_, ?_⟩, fun src => ⟨_, rfl, hstandard src⟩,
    fun src => ⟨_, rfl, hurl src⟩, fun src hsrc => ?_⟩
  · have hb := hstandard (njsEncodeBase64 b)
    rwa [Base64.read, njsEncodeBase64, isBasis.1.leading_njsEncodeBase64Core,
      Base64.decode_encode] at hb
  · have hb := hurl (njsEncodeBase64url b)
    rwa [Base64.read, njsEncodeBase64url, isBasis.2.leading_njsEncodeBase64Core,
      Base64.decode_encode] at hb
  · rw [njsStringDecodeHex_eq (not_control_njsEncodeHex b), read_njsEncodeHex, njsEncodeHex_eq,
      List.length_map, Base16.length_encode, Nat.mul_div_left b.length (by omega)]
  · exact ⟨_, _, rfl, Base16.length_read_le _ src, njsStringDecodeHex_eq hsrc⟩

/-- A text of no digits has a length, and nothing is written. -/
theorem not_hex_length : ¬∀ src : Bytes,
    (njsStringDecodeHex src).length = (njsStringDecodeHex src).written.length := by
  intro h
  have hzz := h [chr 'z', chr 'z']
  revert hzz
  decide

end Njs.Strings
