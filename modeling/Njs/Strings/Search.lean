import Njs.Lib.Occurrence
import Njs.Strings.StringProp

/-!
# Search in strings

A string is looked for in another one by its bytes. The bytes of a text that is not empty occur in
those of another text at its characters only.
-/

namespace Njs.Strings

open Text
open Indices (bytes offset slice njsUtf8Next njsUtf8Next_offset njsStringUtf8Offset
  njsStringUtf8Offset_eq offset_length offset_ascii)
open Query (bytes_cons bytes_append)
open Occurrence (dropInfix?_of_begins dropInfix?_cons dropInfix?_iff dropInfix?_eq_none_iff
  length_of_dropInfix? eq_of_dropInfix?)

/-! ### The code -/

/-- The loop of `njs_string_index_of` in an ASCII string. -/
def indexOfAscii (string search : Bytes) : ℕ → ℕ → Option ℕ
  | 0, _ => none
  | passes + 1, p =>
    if p + (search.length - 1) < string.length then
      if slice string p search.length = search then some p
      else indexOfAscii string search passes (p + 1)
    else none

/-- The loop of `njs_string_index_of` in another string. The bound that `njs_utf8_next` is given
there is the one of the loop, so that it cuts no position that the loop goes on from. -/
def indexOfUtf8 (string search : Bytes) : ℕ → ℕ → ℕ → Option ℕ
  | 0, _, _ => none
  | passes + 1, index, p =>
    if p + (search.length - 1) < string.length then
      if slice string p search.length = search then some index
      else indexOfUtf8 string search passes (index + 1) (njsUtf8Next string p)
    else none

/-- `njs_string_index_of`, where -1 is none. It is called for positions in the string only. -/
def njsStringIndexOf (string search : StringProp) (start : ℕ) : Option ℕ :=
  if search.length = 0 ∧ start ≤ string.length then some start
  else if search.length ≤ string.length - start then
    let passes := string.length + 1
    if string.start.length = string.length then
      indexOfAscii string.start search.start passes start
    else
      let p :=
        if start < string.length then njsStringUtf8Offset string.start start
        else string.start.length
      indexOfUtf8 string.start search.start passes start p
  else none

/-! ### Occurrences of bytes -/

variable {text x : List Char}

theorem prefix_bytes_iff : bytes x <+: bytes text ↔ x <+: text := by
  constructor
  · intro h
    induction x generalizing text with
    | nil => exact List.nil_prefix
    | cons c x ih =>
      obtain ⟨r, h⟩ := h
      rw [bytes_cons, List.append_assoc] at h
      obtain _ | ⟨d, text⟩ := text
      · exact absurd h (utf8EncodeChar_append_ne_nil c _)
      · rw [bytes_cons] at h
        obtain rfl := Query.eq_of_utf8EncodeChar (h ▸ List.prefix_append _ _)
        exact List.cons_prefix_cons.2 ⟨rfl, ih ⟨r, List.append_cancel_left h⟩⟩
  · rintro ⟨t, rfl⟩
    rw [bytes_append]
    exact List.prefix_append _ _

theorem not_continuation (hx : x ≠ []) {b : UInt8} {l r : Bytes} (h : bytes x ++ r = b :: l) :
    Indices.isContinuation b = false := by
  obtain ⟨c, x, rfl⟩ := List.exists_cons_of_ne_nil hx
  obtain ⟨b', l', hchar, hencoded⟩ := Indices.utf8EncodeChar_encoded c
  rw [bytes_cons, hchar, List.cons_append, List.cons_append] at h
  rw [← (List.cons.inj h).1]
  exact hencoded.first

theorem exists_of_bytes_eq (hx : x ≠ []) {l r : Bytes} (h : bytes text = l ++ bytes x ++ r) :
    ∃ l' r', text = l' ++ x ++ r' ∧ l = bytes l' := by
  induction text generalizing l with
  | nil =>
    have hnil := (List.append_eq_nil_iff.1 (List.append_eq_nil_iff.1 h.symm).1).2
    exact absurd (bytes_eq_nil_iff.1 hnil) hx
  | cons d text ih =>
    rw [List.append_assoc] at h
    obtain _ | ⟨b, l⟩ := l
    · obtain ⟨r', hr⟩ := prefix_bytes_iff.1 ⟨r, h.symm⟩
      exact ⟨[], r', hr.symm, rfl⟩
    obtain ⟨b', l', hchar, hencoded⟩ := Indices.utf8EncodeChar_encoded d
    rw [bytes_cons, hchar, List.cons_append, List.cons_append] at h
    obtain ⟨rfl, htail⟩ := List.cons.inj h
    -- Behind the first byte of the character there are its other bytes and those of the rest.
    obtain ⟨m, rfl, hm⟩ | ⟨m, rfl, hm⟩ := List.append_eq_append_iff.1 htail
    · obtain ⟨l'', r'', rfl, rfl⟩ := ih (hm.trans (List.append_assoc _ _ _).symm)
      exact ⟨d :: l'', r'', rfl, by rw [bytes_cons, hchar, List.cons_append]⟩
    obtain _ | ⟨b'', m⟩ := m
    · obtain ⟨l'', r'', rfl, hnil⟩ := ih (l := []) hm.symm
      obtain rfl := bytes_eq_nil_iff.1 hnil.symm
      rw [List.append_nil] at hchar
      exact ⟨[d], r'', rfl, by rw [bytes_cons, hchar]; exact (List.append_nil _).symm⟩
    · have hothers := hencoded.others b'' (List.mem_append_right _ List.mem_cons_self)
      rw [not_continuation hx hm] at hothers
      exact absurd hothers Bool.false_ne_true

theorem dropInfix?_bytes (hx : x ≠ []) : (bytes text).dropInfix? (bytes x) =
      (text.dropInfix? x).map fun p => (bytes p.1, bytes p.2) := by
  rcases hfirst : text.dropInfix? x with _ | ⟨l, r⟩
  · refine dropInfix?_eq_none_iff.2 fun l' r' h => ?_
    obtain ⟨l, r, htext, -⟩ := exists_of_bytes_eq hx h
    exact dropInfix?_eq_none_iff.1 hfirst l r htext
  obtain ⟨rfl, hmin⟩ := dropInfix?_iff.1 hfirst
  refine dropInfix?_iff.2 ⟨by rw [bytes_append, bytes_append], fun l' r' h => ?_⟩
  obtain ⟨l₁, r₁, htext, rfl⟩ := exists_of_bytes_eq hx h
  have hle := hmin l₁ r₁ htext
  rw [List.append_assoc, List.append_assoc] at htext
  obtain ⟨m, rfl⟩ := Occurrence.prefix_of_append_eq htext hle
  rw [bytes_append, List.length_append]
  exact Nat.le_add_right _ _

/-! ### Positions -/

/-- An occurrence behind `l` in the text from a character on, with `r` behind it. -/
structure OccursAt (text x : List Char) (i : ℕ) (l r : List Char) : Prop where
  length_eq : i + l.length + x.length + r.length = text.length
  take_eq : (text.drop i).take l.length = l
  drop_eq : text.drop (i + l.length) = x ++ r
  rest_eq : text.drop (i + l.length + x.length) = r
  offset_eq : offset text (i + l.length) = offset text i + (bytes l).length
  next_eq : offset text (i + l.length + x.length) =
    offset text (i + l.length) + (bytes x).length

theorem occursAt {i : ℕ} {l r : List Char} (hi : i ≤ text.length)
    (h : (text.drop i).dropInfix? x = some (l, r)) : OccursAt text x i l r := by
  have htext := eq_of_dropInfix? h
  have hlength := length_of_dropInfix? h
  rw [List.length_drop] at hlength
  have hdrop : text.drop (i + l.length) = x ++ r := by
    rw [← List.drop_drop, htext, List.append_assoc, List.drop_left]
  have htake : (text.drop i).take l.length = l := by
    rw [htext, List.append_assoc, List.take_left]
  refine ⟨by omega, htake, hdrop, ?_, ?_, ?_⟩
  · rw [← List.drop_drop, hdrop, List.drop_left]
  · rw [offset_add, offset, offset, htake]
  · rw [offset_add, hdrop, offset, offset, List.take_left]

theorem slice_eq_iff (text x : List Char) (i : ℕ) :
    slice (bytes text) (offset text i) (bytes x).length = bytes x ↔ x <+: text.drop i := by
  rw [slice, drop_offset, ← prefix_bytes_iff, List.prefix_iff_eq_take]
  exact eq_comm

theorem dropInfix?_eq_none {i : ℕ} (hx : x ≠ [])
    (h : ¬offset text i + ((bytes x).length - 1) < (bytes text).length) :
    (text.drop i).dropInfix? x = none := by
  refine dropInfix?_eq_none_iff.2 fun l r htext => h ?_
  have hpos := List.length_pos_iff.2 hx
  have hle := length_le_bytes x
  rw [length_bytes_eq_add text i, htext, bytes_append, bytes_append, List.length_append,
    List.length_append]
  omega

theorem indexOfUtf8_eq (hx : x ≠ []) {passes i : ℕ} (hi : i ≤ text.length)
    (hpasses : text.length < i + passes) :
    indexOfUtf8 (bytes text) (bytes x) passes i (offset text i) =
      ((text.drop i).dropInfix? x).map fun p => i + p.1.length := by
  induction passes generalizing i with
  | zero => omega
  | succ passes ih =>
    rw [indexOfUtf8]
    by_cases hroom : offset text i + ((bytes x).length - 1) < (bytes text).length
    · rw [if_pos hroom]
      by_cases hbegins : x <+: text.drop i
      · rw [if_pos ((slice_eq_iff text x i).2 hbegins), dropInfix?_of_begins hbegins]
        rfl
      have hlt : i < text.length := by
        refine Nat.lt_of_le_of_ne hi ?_
        rintro rfl
        rw [offset_length] at hroom
        omega
      rw [if_neg fun h => hbegins ((slice_eq_iff text x i).1 h), njsUtf8Next_offset hlt,
        ih hlt (by omega)]
      rw [← List.getElem_cons_drop (h := hlt)] at hbegins ⊢
      rw [dropInfix?_cons hbegins, Option.map_map]
      congr 1
      funext p
      rw [Function.comp_apply, List.length_cons]
      omega
    · rw [if_neg hroom, dropInfix?_eq_none hx hroom]
      rfl

theorem indexOfAscii_eq (hascii : (bytes text).length = text.length) (search : Bytes)
    (passes : ℕ) {i : ℕ} :
    indexOfAscii (bytes text) search passes i = indexOfUtf8 (bytes text) search passes i i := by
  induction passes generalizing i with
  | zero => rfl
  | succ passes ih =>
    rw [indexOfAscii, indexOfUtf8]
    split_ifs with hroom hslice
    · rfl
    · have hnext := @njsUtf8Next_offset text i (by omega)
      rw [offset_ascii hascii (by omega), offset_ascii hascii (by omega)] at hnext
      rw [hnext, ih]
    · rfl

theorem njsStringIndexOf_eq (text x : List Char) {i : ℕ} (hi : i ≤ text.length) :
    njsStringIndexOf (ofText text) (ofText x) i =
      ((text.drop i).dropInfix? x).map fun p => i + p.1.length := by
  have hloop := fun hx => @indexOfUtf8_eq text x hx (text.length + 1) i hi (by omega)
  have hne : ¬((ofText x).length = 0 ∧ i ≤ (ofText text).length) → x ≠ [] := by
    rintro hzero rfl
    exact hzero ⟨rfl, hi⟩
  rw [njsStringIndexOf]
  split_ifs with hzero hlength hascii hlt
  · obtain rfl := List.eq_nil_of_length_eq_zero hzero.1
    rw [List.dropInfix?_nil]
    rfl
  · change (bytes text).length = text.length at hascii
    have hoffset := offset_ascii hascii hi
    rw [← hloop (hne hzero), hoffset]
    exact indexOfAscii_eq hascii _ _
  · rw [← hloop (hne hzero), ← njsStringUtf8Offset_eq hlt]
    rfl
  · obtain rfl : i = text.length := Nat.le_antisymm hi (Nat.not_lt.1 hlt)
    rw [← hloop (hne hzero), offset_length]
    rfl
  have hnone : (text.drop i).dropInfix? x = none := by
    refine dropInfix?_eq_none_iff.2 fun l r htext => hlength ?_
    have hdrop := congrArg List.length htext
    rw [List.length_drop, List.length_append, List.length_append] at hdrop
    change x.length ≤ text.length - i
    omega
  rw [hnone]
  rfl

end Njs.Strings
