import Mathlib.Data.List.DropRight
import Njs.Strings.StringProp

/-!
# White space around a string

A string that may have characters of many bytes is read by the decoder of UTF-8 from both ends. One
of single bytes is compared byte by byte.
-/

namespace Njs.Strings

open Text
open Indices (bytes offset njsUtf8Prev njsUtf8Prev_offset offset_length offset_ascii)
open Query (UnicodeDecode njsUtf8Decode njsUtf8DecodeInit Idle bytes_cons)

/-! ### White space -/

def njsIsWhitespace (c : UInt8) : Bool := [0x09, 0x0a, 0x0b, 0x0c, 0x0d, 0x20].contains c

def njsUtf8IsWhitespace (c : ℕ) : Bool :=
  [0x0009, 0x000a, 0x000b, 0x000c, 0x000d, 0x0020, 0x00a0, 0x1680, 0x2000, 0x2001, 0x2002, 0x2003,
    0x2004, 0x2005, 0x2006, 0x2007, 0x2008, 0x2009, 0x200a, 0x2028, 0x2029, 0x202f, 0x205f, 0x3000,
    0xfeff].contains c

def isWhiteSpace (c : Char) : Bool := njsUtf8IsWhitespace c.toNat

theorem njsUtf8IsWhitespace_iff (c : ℕ) : njsUtf8IsWhitespace c ↔
    0x09 ≤ c ∧ c ≤ 0x0d ∨ c = 0xfeff ∨ c = 0x2028 ∨ c = 0x2029 ∨
      c = 0x20 ∨ c = 0xa0 ∨ c = 0x1680 ∨ 0x2000 ≤ c ∧ c ≤ 0x200a ∨ c = 0x202f ∨ c = 0x205f ∨
        c = 0x3000 := by
  simp only [njsUtf8IsWhitespace, List.contains_iff_mem, List.mem_cons, List.not_mem_nil, or_false]
  omega

theorem njsIsWhitespace_eq {c : Char} {b : UInt8} (hb : b.toNat = c.toNat) :
    njsIsWhitespace b = (isWhiteSpace c && decide (c.toNat < 0x80)) := by
  rw [isWhiteSpace, Bool.eq_iff_iff, Bool.and_eq_true, njsUtf8IsWhitespace_iff, decide_eq_true_eq,
    ← hb]
  simp only [njsIsWhitespace, List.contains_iff_mem, List.mem_cons, List.not_mem_nil, or_false,
    ← UInt8.toNat_inj]
  change b.toNat = 9 ∨ b.toNat = 10 ∨ b.toNat = 11 ∨ b.toNat = 12 ∨ b.toNat = 13 ∨ b.toNat = 32 ↔ _
  omega

/-! ### The loops -/

/-- The first loop of `njs_string_trim` for a string of single bytes. -/
def trimStartBytes : Bytes → ℕ → Bytes × ℕ
  | [], trim => ([], trim)
  | c :: start, trim =>
    if njsIsWhitespace c then trimStartBytes start (trim + 1) else (c :: start, trim)

/-- The second loop of `njs_string_trim` for a string of single bytes, with the position of the
end. -/
def trimEndBytes (start : Bytes) : ℕ → ℕ → ℕ × ℕ
  | 0, trim => (0, trim)
  | pos + 1, trim =>
    if njsIsWhitespace (start.getD pos 0) then trimEndBytes start pos (trim + 1)
    else (pos + 1, trim)

/-- The first loop of `njs_string_trim`. -/
def trimStartUtf8 : ℕ → UnicodeDecode → Bytes → ℕ → Bytes × ℕ
  | 0, _, start, trim => (start, trim)
  | passes + 1, ctx, start, trim =>
    if start = [] then (start, trim)
    else
      let (cp, ctx, next) := njsUtf8Decode ctx start
      if njsUtf8IsWhitespace cp then trimStartUtf8 passes ctx next (trim + 1) else (start, trim)

/-- The second loop of `njs_string_trim`, with the position before which it looks. -/
def trimEndUtf8 (start : Bytes) : ℕ → UnicodeDecode → ℕ → ℕ → ℕ × ℕ
  | 0, _, prev, trim => (prev, trim)
  | passes + 1, ctx, prev, trim =>
    if prev = 0 then (prev, trim)
    else
      let prev := njsUtf8Prev start prev
      let (cp, ctx, p) := njsUtf8Decode ctx (start.drop prev)
      if njsUtf8IsWhitespace cp then trimEndUtf8 start passes ctx prev (trim + 1)
      else (start.length - p.length, trim)

/-- `njs_string_trim` at the start. -/
def trimAtStart (string : StringProp) (atStart : Bool) : Bytes × ℕ :=
  if atStart then
    if string.njsIsAsciiString then trimStartBytes string.start 0
    else trimStartUtf8 (string.start.length + 1) njsUtf8DecodeInit string.start 0
  else (string.start, 0)

/-- `njs_string_trim` at the end of what is left of the string. -/
def trimAtEnd (string : StringProp) (atEnd : Bool) (start : Bytes) (trim : ℕ) : ℕ × ℕ :=
  if atEnd then
    if string.njsIsAsciiString then trimEndBytes start start.length trim
    else trimEndUtf8 start (start.length + 1) njsUtf8DecodeInit start.length trim
  else (start.length, trim)

/-- `njs_string_trim`, for the modes `NJS_TRIM_START` and `NJS_TRIM_END`. -/
def njsStringTrim (string : StringProp) (atStart atEnd : Bool) : ℕ × StringProp :=
  let (start, trim) := trimAtStart string atStart
  let (size, trim) := trimAtEnd string atEnd start trim
  if size = 0 then (trim, ⟨[], 0⟩)
  else (trim, ⟨start.take size, if string.length ≠ 0 then string.length - trim else 0⟩)

/-! ### Texts -/

def trimStart (text : List Char) : List Char := text.dropWhile isWhiteSpace

def trimEnd (text : List Char) : List Char := text.rdropWhile isWhiteSpace

theorem trimStart_cons_pos {c : Char} (hc : isWhiteSpace c = true) (text : List Char) :
    trimStart (c :: text) = trimStart text := List.dropWhile_cons_of_pos hc

theorem trimStart_cons_neg {c : Char} (hc : ¬isWhiteSpace c = true) (text : List Char) :
    trimStart (c :: text) = c :: text := List.dropWhile_cons_of_neg hc

theorem length_trimStart_le (text : List Char) : (trimStart text).length ≤ text.length :=
  (List.dropWhile_suffix _).length_le

variable {text : List Char}

theorem trimStartBytes_eq (hascii : ∀ c ∈ text, c.toNat < 0x80) (trim : ℕ) :
    trimStartBytes (bytes text) trim =
      (bytes (trimStart text), trim + (text.length - (trimStart text).length)) := by
  induction text generalizing trim with
  | nil => rfl
  | cons c text ih =>
    have hc := hascii c List.mem_cons_self
    obtain ⟨b, hchar, hb⟩ := utf8EncodeChar_ascii hc
    have hle := length_trimStart_le text
    rw [bytes_cons, hchar, List.singleton_append, trimStartBytes, njsIsWhitespace_eq hb,
      decide_eq_true hc, Bool.and_true]
    by_cases hspace : isWhiteSpace c = true
    · rw [if_pos hspace, ih fun d hd => hascii d (List.mem_cons_of_mem c hd),
        trimStart_cons_pos hspace, List.length_cons]
      congr 1
      omega
    · rw [if_neg hspace, trimStart_cons_neg hspace, Nat.sub_self, bytes_cons, hchar]
      rfl

theorem trimStartUtf8_eq (text : List Char) {passes : ℕ} (hpasses : text.length < passes)
    {ctx : UnicodeDecode} (hctx : Idle ctx) (trim : ℕ) :
    trimStartUtf8 passes ctx (bytes text) trim =
      (bytes (trimStart text), trim + (text.length - (trimStart text).length)) := by
  induction text generalizing passes ctx trim with
  | nil =>
    obtain ⟨passes, rfl⟩ := Nat.exists_eq_add_of_lt hpasses
    exact if_pos rfl
  | cons c text ih =>
    obtain ⟨passes, rfl⟩ := Nat.exists_eq_add_of_lt hpasses
    obtain ⟨b, l, hchar, -⟩ := Indices.utf8EncodeChar_encoded c
    have hne : bytes (c :: text) ≠ [] := by
      rw [bytes_cons, hchar]
      exact List.cons_ne_nil _ _
    obtain ⟨ctx', hdecode, hctx'⟩ := njsUtf8Decode_char hctx c (bytes text)
    have hle := length_trimStart_le text
    rw [trimStartUtf8, if_neg hne, bytes_cons, hdecode]
    dsimp only
    rw [← isWhiteSpace]
    by_cases hspace : isWhiteSpace c = true
    · rw [if_pos hspace, ih (by rw [List.length_cons]; omega) hctx', trimStart_cons_pos hspace,
        List.length_cons]
      congr 1
      omega
    · rw [if_neg hspace, trimStart_cons_neg hspace, Nat.sub_self, bytes_cons]
      rfl

def endOf (text : List Char) (i : ℕ) : ℕ := (trimEnd (text.take i)).length

theorem endOf_le (text : List Char) (i : ℕ) : endOf text i ≤ i :=
  (List.rdropWhile_prefix _ _).length_le.trans (List.length_take_le i text)

theorem endOf_succ {i : ℕ} (hi : i < text.length) :
    endOf text (i + 1) = if isWhiteSpace text[i] then endOf text i else i + 1 := by
  rw [endOf, trimEnd, List.take_succ_eq_append_getElem hi, List.rdropWhile_concat]
  split_ifs
  · rfl
  · rw [List.length_append, List.length_take, List.length_singleton,
      Nat.min_eq_left (Nat.le_of_lt hi)]

theorem trimEndBytes_eq (hascii : ∀ c ∈ text, c.toNat < 0x80) {i : ℕ} (hi : i ≤ text.length)
    (trim : ℕ) : trimEndBytes (bytes text) i trim = (endOf text i, trim + (i - endOf text i)) := by
  induction i generalizing trim with
  | zero => rfl
  | succ i ih =>
    have hc := hascii text[i] (List.getElem_mem hi)
    obtain ⟨b, hchar, hb⟩ := utf8EncodeChar_ascii hc
    obtain ⟨b', l, after, hchar', hsplit⟩ := Indices.split_at hi
    obtain ⟨rfl, -⟩ := List.cons.inj (hchar.symm.trans hchar')
    have hget := hsplit.getD
    rw [offset_ascii ((length_bytes_eq_iff text).2 hascii) (Nat.le_of_lt hi)] at hget
    have hle := endOf_le text i
    rw [trimEndBytes, hget, njsIsWhitespace_eq hb, decide_eq_true hc, Bool.and_true, endOf_succ hi]
    split_ifs
    · rw [ih (Nat.le_of_lt hi)]
      congr 1
      omega
    · rw [Nat.sub_self]
      rfl

theorem trimEndUtf8_eq {i : ℕ} (hi : i ≤ text.length) {passes : ℕ} (hpasses : i < passes)
    {ctx : UnicodeDecode} (hctx : Idle ctx) (trim : ℕ) :
    trimEndUtf8 (bytes text) passes ctx (offset text i) trim =
      (offset text (endOf text i), trim + (i - endOf text i)) := by
  induction i generalizing passes ctx trim with
  | zero =>
    obtain ⟨passes, rfl⟩ := Nat.exists_eq_add_of_lt hpasses
    exact if_pos rfl
  | succ i ih =>
    obtain ⟨passes, rfl⟩ := Nat.exists_eq_add_of_lt hpasses
    have hpos := Indices.offset_lt hi
    obtain ⟨b, l, after, hchar, hsplit⟩ := Indices.split_at hi
    have hdrop : (bytes text).drop (offset text i) =
        String.utf8EncodeChar text[i] ++ bytes (text.drop (i + 1)) := by
      rw [hsplit.drop, hchar, hsplit.after_eq, List.cons_append]
    obtain ⟨ctx', hdecode, hctx'⟩ := njsUtf8Decode_char hctx text[i] (bytes (text.drop (i + 1)))
    have hle := endOf_le text i
    have hend : (bytes text).length - (bytes (text.drop (i + 1))).length = offset text (i + 1) := by
      rw [length_bytes_eq_add text (i + 1), Nat.add_sub_cancel]
    rw [trimEndUtf8, if_neg (by omega), njsUtf8Prev_offset hi]
    dsimp only
    rw [hdrop, hdecode, endOf_succ hi]
    dsimp only
    rw [hend, ← isWhiteSpace]
    split_ifs
    · rw [ih (Nat.le_of_lt hi) (by omega) hctx']
      congr 1
      omega
    · rw [Nat.sub_self]
      rfl

def afterStart (atStart : Bool) (text : List Char) : List Char :=
  if atStart then trimStart text else text

def trimmed (atStart atEnd : Bool) (text : List Char) : List Char :=
  if atEnd then trimEnd (afterStart atStart text) else afterStart atStart text

theorem afterStart_suffix (atStart : Bool) (text : List Char) :
    afterStart atStart text <:+ text := by
  unfold afterStart
  split_ifs
  · exact List.dropWhile_suffix _
  · exact List.suffix_rfl

theorem trimmed_prefix (atStart atEnd : Bool) (text : List Char) :
    trimmed atStart atEnd text <+: afterStart atStart text := by
  unfold trimmed
  split_ifs
  · exact List.rdropWhile_prefix _ _
  · exact List.prefix_rfl

theorem trimAtStart_eq (text : List Char) (atStart : Bool) : trimAtStart (ofText text) atStart =
    (bytes (afterStart atStart text), text.length - (afterStart atStart text).length) := by
  have hle := length_le_bytes text
  unfold trimAtStart afterStart ofText
  split_ifs with hstart hascii
  · rw [trimStartBytes_eq ((njsIsAsciiString_iff text).1 hascii), Nat.zero_add]
  · rw [trimStartUtf8_eq text (Nat.lt_succ_of_le hle) ⟨rfl, rfl⟩, Nat.zero_add]
  · rw [Nat.sub_self]

theorem trimAtEnd_eq (text : List Char) (atStart atEnd : Bool) :
    trimAtEnd (ofText text) atEnd (bytes (afterStart atStart text))
      (text.length - (afterStart atStart text).length) =
      (offset (afterStart atStart text) (trimmed atStart atEnd text).length,
        text.length - (trimmed atStart atEnd text).length) := by
  have hsuffix := afterStart_suffix atStart text
  have hprefix := trimmed_prefix atStart atEnd text
  unfold trimmed at hprefix ⊢
  generalize afterStart atStart text = rest at hsuffix hprefix ⊢
  have hle := hsuffix.length_le
  have hle' := hprefix.length_le
  have hend : endOf rest rest.length = (trimEnd rest).length := by rw [endOf, List.take_length]
  unfold trimAtEnd
  split_ifs at hle' ⊢ with hatEnd hascii
  · have hascii : ∀ c ∈ rest, c.toNat < 0x80 := fun c hc =>
      (njsIsAsciiString_iff text).1 hascii c (hsuffix.subset hc)
    have hlength := (length_bytes_eq_iff rest).2 hascii
    rw [hlength, trimEndBytes_eq hascii (Nat.le_refl _), hend, offset_ascii hlength hle']
    congr 1
    omega
  · have hbytes := length_le_bytes rest
    rw [← offset_length rest, trimEndUtf8_eq (Nat.le_refl _) (by rw [offset_length]; omega)
      ⟨rfl, rfl⟩, hend]
    congr 1
    omega
  · rw [offset_length]

theorem njsStringTrim_eq (text : List Char) (atStart atEnd : Bool) :
    njsStringTrim (ofText text) atStart atEnd =
      (text.length - (trimmed atStart atEnd text).length, ofText (trimmed atStart atEnd text)) := by
  have hsuffix := afterStart_suffix atStart text
  have hprefix := trimmed_prefix atStart atEnd text
  have hle := hsuffix.length_le
  have hle' := hprefix.length_le
  have htake : (bytes (afterStart atStart text)).take
      (offset (afterStart atStart text) (trimmed atStart atEnd text).length) =
      bytes (trimmed atStart atEnd text) := by
    rw [take_offset, ← List.prefix_iff_eq_take.1 hprefix]
  have hsize : offset (afterStart atStart text) (trimmed atStart atEnd text).length = 0 ↔
      trimmed atStart atEnd text = [] := by
    rw [offset, ← List.prefix_iff_eq_take.1 hprefix, List.length_eq_zero_iff, bytes_eq_nil_iff]
  rw [njsStringTrim, trimAtStart_eq]
  dsimp only
  rw [trimAtEnd_eq]
  dsimp only
  rw [htake, if_congr hsize rfl rfl]
  split_ifs with hnil hlength
  · rw [hnil]
    rfl
  · congr 2
    have hlength : text.length ≠ 0 := hlength
    change text.length - (text.length - _) = _
    omega
  · have hzero : text.length = 0 := not_not.1 hlength
    rw [List.length_eq_zero_iff.1 (show (trimmed atStart atEnd text).length = 0 by omega)] at hnil
    exact absurd rfl hnil

end Njs.Strings
