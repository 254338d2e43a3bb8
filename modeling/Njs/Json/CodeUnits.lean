import Njs.Json.Grammar
import Njs.Lib.Utf8

/-!
# Code units in 32 bits

The arithmetic of `njs_json_unicode`, of the surrogates and of `njs_utf8_encode`, against the
numbers that they stand for.
-/

namespace Njs.Json

open Text
open Utf8 (toNat_shifted and_mask_of_lt)
open SharedDict (isHexDigit hexValue ngxJsUnicode njsUtf8Encode njsSurrogateAny
  njsSurrogateLeading njsSurrogateTrailing njsSurrogatePair njsUnicodeReplacement encodePair)

theorem hexValue_eq (ch : HexDigit) :
    (hexValue ch.1).toNat = hexDigitValue ch.1 ∧ hexDigitValue ch.1 < 16 := by
  have h : ∀ b : UInt8, isHexDigit b = true →
      (hexValue b).toNat = hexDigitValue b ∧ hexDigitValue b < 16 :=
    forall_byte (by decide)
  exact h ch.1 ch.2

variable {u : UInt32}

theorem toNat_unicode_step {n : ℕ} (hu : u.toNat = n) (hn : n < 2 ^ 28) (ch : HexDigit) :
    (u <<< 4 ||| (hexValue ch.1).toUInt32).toNat = 16 * n + hexDigitValue ch.1 := by
  obtain ⟨hvalue, hlt⟩ := hexValue_eq ch
  have hshift : (u <<< 4).toNat = n <<< 4 := by
    rw [UInt32.toNat_shiftLeft, hu, show (4 : UInt32).toNat % 32 = 4 from rfl,
      Nat.mod_eq_of_lt (by rw [Nat.shiftLeft_eq]; omega)]
  rw [UInt32.toNat_or, hshift, UInt8.toNat_toUInt32, hvalue, ← Nat.shiftLeft_add_eq_or_of_lt hlt,
    Nat.shiftLeft_eq]
  omega

theorem toNat_unicode (a b c d : HexDigit) :
    (ngxJsUnicode a.1 b.1 c.1 d.1).toNat = unitValue a b c d ∧ unitValue a b c d < 0x10000 := by
  have ha := (hexValue_eq a).2
  have hb := (hexValue_eq b).2
  have hc := (hexValue_eq c).2
  have hd := (hexValue_eq d).2
  simp only [ngxJsUnicode, unitValue, List.foldl_cons, List.foldl_nil]
  have h₁ := toNat_unicode_step (show (0 : UInt32).toNat = 0 from rfl) (by omega) a
  have h₂ := toNat_unicode_step h₁ (by omega) b
  have h₃ := toNat_unicode_step h₂ (by omega) c
  exact ⟨toNat_unicode_step h₃ (by omega) d, by omega⟩

/-! ### Surrogates -/

theorem surrogateAny_iff (u : UInt32) :
    njsSurrogateAny u = true ↔ IsLeading u.toNat ∨ IsTrailing u.toNat := by
  have h := UInt32.toNat_sub u 0xd800
  have hu := u.toNat_lt
  rw [njsSurrogateAny, decide_eq_true_iff, UInt32.le_iff_toNat_le, h, IsLeading, IsTrailing]
  simp only [show (0xd800 : UInt32).toNat = 0xd800 from rfl,
    show ((0xdfff : UInt32) - 0xd800).toNat = 0x7ff from rfl]
  omega

theorem surrogateLeading_iff (u : UInt32) : njsSurrogateLeading u = true ↔ IsLeading u.toNat := by
  have h := UInt32.toNat_sub u 0xd800
  have hu := u.toNat_lt
  rw [njsSurrogateLeading, decide_eq_true_iff, UInt32.le_iff_toNat_le, h, IsLeading]
  simp only [show (0xd800 : UInt32).toNat = 0xd800 from rfl,
    show ((0xdbff : UInt32) - 0xd800).toNat = 0x3ff from rfl]
  omega

theorem surrogateTrailing_iff (u : UInt32) :
    njsSurrogateTrailing u = true ↔ IsTrailing u.toNat := by
  have h := UInt32.toNat_sub u 0xdc00
  have hu := u.toNat_lt
  rw [njsSurrogateTrailing, decide_eq_true_iff, UInt32.le_iff_toNat_le, h, IsTrailing]
  simp only [show (0xdc00 : UInt32).toNat = 0xdc00 from rfl,
    show ((0xdfff : UInt32) - 0xdc00).toNat = 0x3ff from rfl]
  omega

theorem toNat_surrogatePair {v : UInt32} (hu : IsLeading u.toNat) (hv : IsTrailing v.toNat) :
    (njsSurrogatePair u v).toNat = pairValue u.toNat v.toNat := by
  obtain ⟨hu₁, hu₂⟩ := hu
  obtain ⟨hv₁, hv₂⟩ := hv
  have hd800 : (0xd800 : UInt32).toNat = 0xd800 := rfl
  have hdc00 : (0xdc00 : UInt32).toNat = 0xdc00 := rfl
  have hhigh : (u - 0xd800).toNat = u.toNat - 0xd800 := by
    rw [UInt32.toNat_sub_of_le u _ (UInt32.le_iff_toNat_le.mpr (by rw [hd800]; exact hu₁)), hd800]
  have hlow : (v - 0xdc00).toNat = v.toNat - 0xdc00 := by
    rw [UInt32.toNat_sub_of_le v _ (UInt32.le_iff_toNat_le.mpr (by rw [hdc00]; exact hv₁)), hdc00]
  have hshift : ((u - 0xd800) <<< 10).toNat = 0x400 * (u.toNat - 0xd800) := by
    rw [UInt32.toNat_shiftLeft, hhigh, show (10 : UInt32).toNat % 32 = 10 from rfl,
      Nat.shiftLeft_eq, Nat.mod_eq_of_lt (by omega)]
    omega
  have h10000 : (0x10000 : UInt32).toNat = 0x10000 := rfl
  simp only [njsSurrogatePair, UInt32.toNat_add, hshift, hlow, h10000, pairValue]
  omega

/-! ### UTF-8 -/

theorem njsUtf8Encode_char (c : Char) : njsUtf8Encode c.val = String.utf8EncodeChar c := by
  have hmask : ∀ x : UInt8, (x.toNat < 0x20 → x &&& 0x1f = x) ∧
      (x.toNat < 0x10 → x &&& 0x0f = x) ∧ (x.toNat < 0x08 → x &&& 0x07 = x) :=
    fun x => ⟨and_mask_of_lt 5 rfl, and_mask_of_lt 4 rfl, and_mask_of_lt 3 rfl⟩
  have hconst : (0x3f : UInt32).toUInt8 = 0x3f ∧ (0x80 : UInt32).toUInt8 = 0x80 ∧
      (0xc0 : UInt32).toUInt8 = 0xc0 ∧ (0xe0 : UInt32).toUInt8 = 0xe0 ∧
      (0xf0 : UInt32).toUInt8 = 0xf0 ∧ (0xff : UInt32).toUInt8 = 0xff := by decide
  obtain ⟨h3f, h80, hc0, he0, hf0, hff⟩ := hconst
  have hfull : ∀ x : UInt8, x &&& 0xff = x := fun x => UInt8.and_neg_one
  have h1 := toNat_shifted c.val (show (6 : UInt32).toNat = 6 from rfl) (by omega)
  have h2 := toNat_shifted c.val (show (12 : UInt32).toNat = 12 from rfl) (by omega)
  have h3 := toNat_shifted c.val (show (18 : UInt32).toNat = 18 from rfl) (by omega)
  have hmax : c.val.toNat < 0x110000 := by
    rcases c.valid with h | h <;> omega
  have hbounds : (0x80 : UInt32).toNat = 0x80 ∧ (0x800 : UInt32).toNat = 0x800 ∧
      (0x10000 : UInt32).toNat = 0x10000 ∧ (0x110000 : UInt32).toNat = 0x110000 ∧
      (127 : UInt32).toNat = 127 ∧ (0x7ff : UInt32).toNat = 0x7ff ∧
      (0xffff : UInt32).toNat = 0xffff := ⟨rfl, rfl, rfl, rfl, rfl, rfl, rfl⟩
  obtain ⟨b80, b800, b10000, b110000, b7f, b7ff, bffff⟩ := hbounds
  rw [njsUtf8Encode]
  simp only [UInt32.lt_iff_toNat_lt, b80, b800, b10000, b110000, UInt32.toUInt8_or,
    UInt32.toUInt8_and, h3f, h80, hc0, he0,
    hf0, hff, hfull]
  obtain h | h | h | h := c.utf8Size_eq
  · have hle := UInt32.le_iff_toNat_le.mp (Char.utf8Size_eq_one_iff.mp h)
    rw [b7f] at hle
    rw [String.utf8EncodeChar_eq_singleton h, if_pos (by omega)]
  · obtain ⟨hgt, hle⟩ := Char.utf8Size_eq_two_iff.mp h
    rw [UInt32.lt_iff_toNat_lt, b7f] at hgt
    rw [UInt32.le_iff_toNat_le, b7ff] at hle
    rw [String.utf8EncodeChar_eq_cons_cons h, if_neg (by omega), if_pos (by omega),
      (hmask _).1 (by omega)]
  · obtain ⟨hgt, hle⟩ := Char.utf8Size_eq_three_iff.mp h
    rw [UInt32.lt_iff_toNat_lt, b7ff] at hgt
    rw [UInt32.le_iff_toNat_le, bffff] at hle
    rw [String.utf8EncodeChar_eq_cons_cons_cons h, if_neg (by omega), if_neg (by omega),
      if_pos (by omega), (hmask _).2.1 (by omega)]
  · have hgt := Char.utf8Size_eq_four_iff.mp h
    rw [UInt32.lt_iff_toNat_lt, bffff] at hgt
    rw [String.utf8EncodeChar_eq_cons_cons_cons_cons h, if_neg (by omega), if_neg (by omega),
      if_neg (by omega), if_pos (by omega), (hmask _).2.2 (by omega)]

theorem njsUtf8Encode_eq (h : u.toNat.isValidChar) : njsUtf8Encode u = encodeCode u.toNat := by
  have hchar : (Char.ofNat u.toNat).val = u := by
    rw [Char.ofNat, dif_pos h]
    exact UInt32.toNat_inj.mp rfl
  rw [encodeCode, ← njsUtf8Encode_char, hchar]

theorem njsUtf8Encode_replacement : njsUtf8Encode njsUnicodeReplacement = encodeCode 0xfffd :=
  njsUtf8Encode_eq (.inr ⟨by decide, by decide⟩)

theorem encodeUnit_eq (h : u.toNat < 0x10000) : encodeUnit u.toNat =
      if njsSurrogateAny u then njsUtf8Encode njsUnicodeReplacement else njsUtf8Encode u := by
  rw [encodeUnit]
  simp only [surrogateAny_iff]
  split_ifs with hany
  · exact njsUtf8Encode_replacement.symm
  · refine (njsUtf8Encode_eq ?_).symm
    simp only [IsLeading, IsTrailing, not_or, not_and] at hany
    show u.toNat < 0xd800 ∨ 0xdfff < u.toNat ∧ u.toNat < 0x110000
    omega

theorem encodePair_eq {v : UInt32} (hu : IsLeading u.toNat) (hv : v.toNat < 0x10000) :
    encodePair u v =
      if IsTrailing v.toNat then encodeCode (pairValue u.toNat v.toNat)
      else encodeCode 0xfffd ++ encodeUnit v.toNat := by
  rw [encodePair, encodeUnit_eq hv, njsUtf8Encode_replacement]
  simp only [surrogateTrailing_iff, surrogateLeading_iff, surrogateAny_iff]
  split_ifs with htrail hlead hany hany
  · rw [njsUtf8Encode_eq, toNat_surrogatePair hu htrail]
    rw [toNat_surrogatePair hu htrail]
    obtain ⟨hu₁, hu₂⟩ := hu
    obtain ⟨hv₁, hv₂⟩ := htrail
    have hlarge : 0xdfff < pairValue u.toNat v.toNat ∧ pairValue u.toNat v.toNat < 0x110000 := by
      simp only [pairValue]
      omega
    exact .inr hlarge
  · rfl
  · exact absurd (.inl hlead) hany
  · exact absurd hany (not_or.mpr ⟨hlead, htrail⟩)
  · rfl

end Njs.Json
