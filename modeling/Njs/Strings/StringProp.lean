import Njs.Decoding.Stream
import Njs.Query.Parts

/-!
# Strings and their texts

A string has its bytes and its length in characters. Where the length is that of the bytes, all
characters are ASCII.
-/

namespace Njs.Strings

open Text
open Indices (bytes offset slice offset_length offset_zero)
open Query (UnicodeDecode njsUtf8Decode njsUtf8DecodeInit njsUnicodeMaxCodepoint Idle bytes_cons
  bytes_append)
open Decoding (lengthLoop njsUtf8StreamLength njsUtf8Size passesFor)

/-! ### Strings -/

/-- `njs_string_prop_t`, whose size is the number of its bytes. -/
@[ext]
structure StringProp where
  start : Bytes
  length : ℕ
  deriving DecidableEq

def StringProp.njsIsAsciiString (string : StringProp) : Bool :=
  string.length = string.start.length

/-- `NJS_STRING_MAX_LENGTH`. -/
def njsStringMaxLength : ℕ := 0x7fffffff

def ofText (text : List Char) : StringProp := ⟨bytes text, text.length⟩

theorem sequence_char (c : Char) : Utf8.Sequence (String.utf8EncodeChar c) c.toNat :=
  Utf8.sequence_iff.2 ⟨c.valid, by rw [Char.ofNat_toNat]⟩

theorem utf8EncodeChar_append_ne_nil (c : Char) (rest : Bytes) :
    String.utf8EncodeChar c ++ rest ≠ [] :=
  List.append_ne_nil_of_left_ne_nil (sequence_char c).ne_nil _

theorem next_char (c : Char) (rest : Bytes) :
    Utf8.next none (String.utf8EncodeChar c ++ rest) = .char c.toNat rest := by
  have hsequence := sequence_char c
  rcases Utf8.next_cases (utf8EncodeChar_append_ne_nil c rest) with ⟨s, n, l, hl, hs, hnext⟩ |
    ⟨p, hp, -⟩ | ⟨s, l, hl, hs, -⟩
  · obtain ⟨rfl, rfl⟩ := hsequence.unique hs hl
    obtain rfl := List.append_cancel_left hl
    exact hnext
  · refine absurd hsequence (hp.2.ill_formed _ _ ?_)
    rw [List.append_nil]
    exact List.prefix_append _ _
  · exact absurd hsequence (hs.ill_formed _ _ (hl ▸ List.prefix_append _ _))

theorem njsUtf8Decode_char {ctx : UnicodeDecode} (hctx : Idle ctx) (c : Char) (rest : Bytes) :
    ∃ ctx', njsUtf8Decode ctx (String.utf8EncodeChar c ++ rest) = (c.toNat, ctx', rest) ∧
      Idle ctx' := by
  have hagrees := Decoding.njsUtf8Decode_agrees (s := none) hctx
    (utf8EncodeChar_append_ne_nil c rest)
  rw [next_char] at hagrees
  obtain ⟨hcp, hrest, hidle⟩ := hagrees
  exact ⟨_, Prod.ext hcp (Prod.ext rfl hrest), hidle⟩

theorem length_le_bytes (text : List Char) : text.length ≤ (bytes text).length := by
  have h := @Indices.offset_mono text _ _ (Nat.zero_le _) (Nat.le_refl text.length)
  rw [offset_zero, offset_length] at h
  omega

theorem length_bytes_eq_iff (text : List Char) :
    (bytes text).length = text.length ↔ ∀ c ∈ text, c.toNat < 0x80 := by
  induction text with
  | nil => simp [bytes]
  | cons c text ih =>
    have hle := length_le_bytes text
    have hsize := c.utf8Size_pos
    have hone : c.utf8Size = 1 ↔ c.toNat < 0x80 := by
      rw [Char.utf8Size_eq_one_iff, UInt32.le_iff_toNat_le]
      exact Nat.lt_succ_iff.symm
    rw [bytes_cons, List.length_append, String.length_utf8EncodeChar, List.length_cons,
      List.forall_mem_cons, ← ih, ← hone]
    omega

theorem njsIsAsciiString_iff (text : List Char) :
    (ofText text).njsIsAsciiString ↔ ∀ c ∈ text, c.toNat < 0x80 := by
  rw [← length_bytes_eq_iff, StringProp.njsIsAsciiString, decide_eq_true_eq]
  exact eq_comm

theorem utf8EncodeChar_ascii {c : Char} (hc : c.toNat < 0x80) :
    ∃ b : UInt8, String.utf8EncodeChar c = [b] ∧ b.toNat = c.toNat := by
  have hsize : c.utf8Size = 1 := Char.utf8Size_eq_one_iff.2
    (UInt32.le_iff_toNat_le.2 (Nat.le_of_lt_succ hc))
  refine ⟨_, String.utf8EncodeChar_eq_singleton hsize, ?_⟩
  rw [UInt32.toNat_toUInt8]
  exact Nat.mod_eq_of_lt (Nat.lt_trans hc (by decide))

theorem toNat_char (x : UInt8) : (Char.ofNat x.toNat).toNat = x.toNat := by
  have hvalid : x.toNat.isValidChar := .inl (Nat.lt_trans x.toNat_lt (by decide))
  rw [Char.ofNat, dif_pos hvalid]
  rfl

theorem utf8EncodeChar_byte {x : UInt8} (hx : x.toNat < 0x80) :
    String.utf8EncodeChar (Char.ofNat x.toNat) = [x] := by
  obtain ⟨b, hchar, hb⟩ := utf8EncodeChar_ascii (toNat_char x ▸ hx)
  rw [hchar, UInt8.toNat_inj.1 (hb.trans (toNat_char x))]

theorem large_of_mem {c : Char} (hc : 0x80 ≤ c.toNat) {b : UInt8}
    (hb : b ∈ String.utf8EncodeChar c) : 0x80 ≤ b.toNat := by
  refine Query.utf8EncodeChar_large ?_ b hb
  intro hsize
  have hle : c.toNat ≤ 0x7f := UInt32.le_iff_toNat_le.1 (Char.utf8Size_eq_one_iff.1 hsize)
  omega

theorem first_eq_iff {c d : Char} (hd : d.toNat < 0x80) {b : UInt8} {l : Bytes}
    (hchar : String.utf8EncodeChar c = b :: l) : b = chr d ↔ c = d := by
  have hchr : (chr d).toNat = d.toNat := by
    rw [chr, Char.toUInt8, UInt32.toNat_toUInt8]
    exact Nat.mod_eq_of_lt (Nat.lt_trans hd (by decide))
  by_cases hc : c.toNat < 0x80
  · obtain ⟨b', hchar', hb⟩ := utf8EncodeChar_ascii hc
    obtain ⟨rfl, -⟩ := List.cons.inj (hchar'.symm.trans hchar)
    rw [← UInt8.toNat_inj, hb, hchr, Char.toNat_inj]
  have hlarge := large_of_mem (Nat.le_of_not_lt hc) (b := b) (hchar ▸ List.mem_cons_self)
  refine iff_of_false ?_ ?_
  · rintro rfl
    omega
  · rintro rfl
    exact hc hd

theorem bytes_eq_nil_iff {text : List Char} : bytes text = [] ↔ text = [] := by
  constructor
  · intro h
    exact Query.bytes_injective h
  · rintro rfl
    rfl

theorem take_offset (text : List Char) (i : ℕ) :
    (bytes text).take (offset text i) = bytes (text.take i) := by
  have h := bytes_append (text.take i) (text.drop i)
  rw [List.take_append_drop] at h
  rw [h, offset, List.take_left]

theorem length_bytes_eq_add (text : List Char) (i : ℕ) :
    (bytes text).length = offset text i + (bytes (text.drop i)).length := by
  have h := congrArg List.length (bytes_append (text.take i) (text.drop i))
  rwa [List.take_append_drop, List.length_append] at h

theorem drop_offset (text : List Char) (i : ℕ) :
    (bytes text).drop (offset text i) = bytes (text.drop i) := by
  have h := bytes_append (text.take i) (text.drop i)
  rw [List.take_append_drop] at h
  rw [h, offset, List.drop_left]

theorem offset_add (text : List Char) (i k : ℕ) :
    offset text (i + k) = offset text i + offset (text.drop i) k := by
  rw [offset, List.take_add, bytes_append, List.length_append]
  rfl

theorem slice_bytes (text : List Char) (i k : ℕ) :
    slice (bytes text) (offset text i) (offset (text.drop i) k) = bytes ((text.drop i).take k) := by
  rw [slice, drop_offset, take_offset]

/-- What a function of a string throws. -/
inductive Thrown
  | typeError (message : String)
  | rangeError (message : String)
  | uriError (message : String)
  | internalError (message : String)
  deriving DecidableEq

/-! ### Lengths -/

/-- `njs_utf8_length`, where -1 is none. -/
def njsUtf8Length (p : Bytes) : Option ℕ :=
  (njsUtf8StreamLength njsUtf8DecodeInit (some p) true true).2.map Prod.fst

/-- `njs_string_calc_length`, where -1 becomes the largest number of 32 bits. -/
def njsStringCalcLength (utf8 : Bool) (start : Bytes) : ℕ :=
  if utf8 then (njsUtf8Length start).getD 0xffffffff else start.length

theorem lengthLoop_bytes (text : List Char) {passes : ℕ} (hpasses : text.length ≤ passes)
    {ctx : UnicodeDecode} (hctx : Idle ctx) (size length : ℕ) :
    ∃ ctx' size', lengthLoop true passes ctx size length (bytes text) =
      (ctx', some (length + text.length, size')) ∧ Idle ctx' := by
  induction text generalizing passes ctx size length with
  | nil =>
    refine ⟨ctx, size, ?_, hctx⟩
    cases passes with
    | zero => rfl
    | succ passes => exact if_pos rfl
  | cons c text ih =>
    obtain ⟨passes, rfl⟩ : ∃ k, passes = k + 1 :=
      ⟨passes - 1, by rw [List.length_cons] at hpasses; omega⟩
    obtain ⟨ctx₁, hdecode, hctx₁⟩ := njsUtf8Decode_char hctx c (bytes text)
    have hne : bytes (c :: text) ≠ [] := fun h => List.cons_ne_nil c text (bytes_eq_nil_iff.1 h)
    obtain ⟨ctx', size', heq, hctx'⟩ := ih (Nat.le_of_succ_le_succ hpasses) hctx₁
      (size + njsUtf8Size c.toNat) (length + 1)
    have hmax : ¬njsUnicodeMaxCodepoint < c.toNat := Decoding.le_max_of_isValidChar c.valid
    refine ⟨ctx', size', ?_, hctx'⟩
    rw [lengthLoop, if_neg hne, bytes_cons, hdecode]
    dsimp only
    rw [if_neg hmax, heq, List.length_cons]
    congr 3
    omega

theorem njsUtf8Length_bytes (text : List Char) : njsUtf8Length (bytes text) = some text.length := by
  have hle := length_le_bytes text
  have hpasses : text.length ≤ passesFor (bytes text) := by
    rw [passesFor]
    omega
  obtain ⟨ctx', size', heq, hctx'⟩ := lengthLoop_bytes text hpasses
    (show Idle njsUtf8DecodeInit from ⟨rfl, rfl⟩) 0 0
  rw [njsUtf8Length, njsUtf8StreamLength]
  simp only [heq]
  rw [if_neg fun h => h.2 hctx'.1, Nat.zero_add]
  rfl

theorem njsStringCalcLength_eq {utf8 : Bool} {text : List Char}
    (h : utf8 = false → ∀ c ∈ text, c.toNat < 0x80) :
    njsStringCalcLength utf8 (bytes text) = text.length := by
  cases utf8 with
  | true => rw [njsStringCalcLength, if_pos rfl, njsUtf8Length_bytes, Option.getD_some]
  | false => exact (length_bytes_eq_iff text).2 (h rfl)

end Njs.Strings
