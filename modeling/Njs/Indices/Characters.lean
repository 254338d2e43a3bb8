import Mathlib.Data.List.GetD
import Njs.Lib.Text

/-!
# Characters of a string

A string is kept in UTF-8, and its positions are offsets of bytes. Every 32nd character of a long
string is found through a map of offsets.
-/

namespace Njs.Indices

open Text

/-! ### Positions -/

def isContinuation (c : UInt8) : Bool := c &&& 0xc0 = 0x80

def njsUtf8Next (s : Bytes) (p : ℕ) : ℕ :=
  if s.getD p 0 &&& 0x80 ≠ 0 then p + 1 + ((s.drop (p + 1)).takeWhile isContinuation).length
  else p + 1

/-- `njs_utf8_prev`. A valid string does not begin with a continuation byte. -/
def njsUtf8Prev (s : Bytes) : ℕ → ℕ
  | 0 => 0
  | p + 1 => if isContinuation (s.getD p 0) then njsUtf8Prev s p else p

/-- `NJS_STRING_MAP_STRIDE`. -/
def njsStringMapStride : ℕ := 32

/-- `njs_string_utf8_offset_map_init`. A pass goes on by at least a byte. -/
def njsStringUtf8OffsetMapInit (s : Bytes) : ℕ → ℕ → ℕ → List ℕ
  | 0, _, _ => []
  | passes + 1, p, offset =>
    let next := njsUtf8Next s p
    let rest (offset : ℕ) : List ℕ :=
      if next < s.length then njsStringUtf8OffsetMapInit s passes next (offset - 1) else []
    if offset = 0 then p :: rest njsStringMapStride else rest offset

def njsStringUtf8Offset (s : Bytes) (index : ℕ) : ℕ :=
  let start :=
    if njsStringMapStride ≤ index then
      let map := njsStringUtf8OffsetMapInit s s.length 0 njsStringMapStride
      map.getD (index / njsStringMapStride - 1) 0
    else 0
  (njsUtf8Next s)^[index % njsStringMapStride] start

def slice (s : Bytes) (p size : ℕ) : Bytes := (s.drop p).take size

/-! ### Texts -/

def bytes (text : List Char) : Bytes := text.flatMap String.utf8EncodeChar

def offset (text : List Char) (i : ℕ) : ℕ := (bytes (text.take i)).length

/-- The first byte of a character is no continuation byte, unlike the others. -/
structure Encoded (b : UInt8) (l : Bytes) : Prop where
  first : isContinuation b = false
  others : ∀ c ∈ l, isContinuation c
  single : b &&& 0x80 = 0 → l = []

theorem utf8EncodeChar_encoded (c : Char) :
    ∃ b l, String.utf8EncodeChar c = b :: l ∧ Encoded b l := by
  have hsingle : ∀ x : UInt8, x.toNat ≤ 0x7f → isContinuation x = false :=
    forall_byte (by decide)
  have hothers : ∀ x : UInt8, isContinuation ((x &&& 0x3f) ||| 0x80) = true :=
    forall_byte (by decide)
  have htwo : ∀ x : UInt8, isContinuation ((x &&& 0x1f) ||| 0xc0) = false ∧
      ((x &&& 0x1f) ||| 0xc0) &&& 0x80 ≠ 0 := forall_byte (by decide)
  have hthree : ∀ x : UInt8, isContinuation ((x &&& 0x0f) ||| 0xe0) = false ∧
      ((x &&& 0x0f) ||| 0xe0) &&& 0x80 ≠ 0 := forall_byte (by decide)
  have hfour : ∀ x : UInt8, isContinuation ((x &&& 0x07) ||| 0xf0) = false ∧
      ((x &&& 0x07) ||| 0xf0) &&& 0x80 ≠ 0 := forall_byte (by decide)
  obtain h | h | h | h := c.utf8Size_eq
  · have hle := UInt32.le_iff_toNat_le.mp (Char.utf8Size_eq_one_iff.mp h)
    have hle : c.val.toNat ≤ 0x7f := hle
    refine ⟨_, _, String.utf8EncodeChar_eq_singleton h, hsingle _ ?_, nofun, fun _ => rfl⟩
    rw [UInt32.toNat_toUInt8]
    omega
  · refine ⟨_, _, String.utf8EncodeChar_eq_cons_cons h, (htwo _).1, ?_,
      fun hzero => absurd hzero (htwo _).2⟩
    simpa using hothers _
  · refine ⟨_, _, String.utf8EncodeChar_eq_cons_cons_cons h, (hthree _).1, ?_,
      fun hzero => absurd hzero (hthree _).2⟩
    simpa using ⟨hothers _, hothers _⟩
  · refine ⟨_, _, String.utf8EncodeChar_eq_cons_cons_cons_cons h, (hfour _).1, ?_,
      fun hzero => absurd hzero (hfour _).2⟩
    simpa using ⟨hothers _, hothers _, hothers _⟩

variable {text : List Char} {i : ℕ}

/-- The bytes before a character, its first byte, its other bytes and those after it. -/
structure Split (text : List Char) (i : ℕ) (b : UInt8) (l after : Bytes) : Prop where
  encoded : Encoded b l
  bytes_eq : bytes text = bytes (text.take i) ++ b :: (l ++ after)
  after_eq : after = bytes (text.drop (i + 1))
  offset_eq : offset text (i + 1) = offset text i + 1 + l.length

theorem split_at (hi : i < text.length) :
    ∃ b l after, String.utf8EncodeChar text[i] = b :: l ∧ Split text i b l after := by
  obtain ⟨b, l, hchar, hencoded⟩ := utf8EncodeChar_encoded text[i]
  refine ⟨b, l, _, hchar, hencoded, ?_, rfl, ?_⟩
  · have htext : text = text.take i ++ text[i] :: text.drop (i + 1) := by
      rw [List.getElem_cons_drop, List.take_append_drop]
    conv_lhs => rw [htext]
    rw [bytes, List.flatMap_append, List.flatMap_cons, hchar]
    rfl
  · rw [offset, offset, List.take_succ_eq_append_getElem hi, bytes, List.flatMap_append,
      List.flatMap_singleton, hchar, List.length_append, List.length_cons, bytes]
    omega

theorem takeWhile_bytes (text : List Char) : (bytes text).takeWhile isContinuation = [] := by
  cases text with
  | nil => rfl
  | cons c text =>
    obtain ⟨b, l, hchar, hencoded⟩ := utf8EncodeChar_encoded c
    rw [bytes, List.flatMap_cons, hchar, List.cons_append, List.takeWhile_cons, hencoded.first]
    rfl

theorem length_take (text : List Char) (i : ℕ) : (bytes (text.take i)).length = offset text i := rfl

theorem Split.getD {b : UInt8} {l after : Bytes} (h : Split text i b l after) :
    (bytes text).getD (offset text i) 0 = b := by
  rw [h.bytes_eq, List.getD_append_right _ _ _ _ (Nat.le_of_eq (length_take text i)), length_take,
    Nat.sub_self, List.getD_cons_zero]

theorem Split.drop {b : UInt8} {l after : Bytes} (h : Split text i b l after) :
    (bytes text).drop (offset text i) = b :: (l ++ after) := by
  rw [h.bytes_eq, ← length_take, List.drop_left]

theorem Split.drop_succ {b : UInt8} {l after : Bytes} (h : Split text i b l after) :
    (bytes text).drop (offset text i + 1) = l ++ after := by
  rw [← List.drop_drop, h.drop, List.drop_one, List.tail_cons]

theorem njsUtf8Next_offset (hi : i < text.length) :
    njsUtf8Next (bytes text) (offset text i) = offset text (i + 1) := by
  obtain ⟨b, l, after, -, h⟩ := split_at hi
  rw [njsUtf8Next, h.getD, h.drop_succ, h.offset_eq]
  split_ifs with hb
  · rw [List.takeWhile_append_of_pos h.encoded.others, h.after_eq, takeWhile_bytes, List.append_nil]
  · rw [h.encoded.single (not_not.1 hb), List.length_nil, Nat.add_zero]

theorem Split.prev {b : UInt8} {l after : Bytes} (h : Split text i b l after) {k : ℕ}
    (hk : k ≤ l.length) : njsUtf8Prev (bytes text) (offset text i + 1 + k) = offset text i := by
  induction k with
  | zero =>
    rw [Nat.add_zero, njsUtf8Prev, h.getD, h.encoded.first]
    rfl
  | succ k ih =>
    have hget : (bytes text).getD (offset text i + 1 + k) 0 = l[k] := by
      rw [List.getD_eq_getElem?_getD, ← List.getElem?_drop, h.drop_succ,
        List.getElem?_append_left (by omega), List.getElem?_eq_getElem (by omega)]
      rfl
    rw [← Nat.add_assoc, njsUtf8Prev, hget, h.encoded.others _ (List.getElem_mem _), if_pos rfl]
    exact ih (by omega)

theorem njsUtf8Prev_offset (hi : i < text.length) :
    njsUtf8Prev (bytes text) (offset text (i + 1)) = offset text i := by
  obtain ⟨b, l, after, -, h⟩ := split_at hi
  rw [h.offset_eq]
  exact h.prev (Nat.le_refl _)

theorem slice_offset (hi : i < text.length) :
    slice (bytes text) (offset text i) (offset text (i + 1) - offset text i) =
      String.utf8EncodeChar text[i] := by
  obtain ⟨b, l, after, hchar, h⟩ := split_at hi
  have hsize : offset text (i + 1) - offset text i = (b :: l).length := by
    rw [h.offset_eq, List.length_cons]
    omega
  rw [slice, h.drop, hchar, hsize, ← List.cons_append, List.take_left]

theorem offset_lt (hi : i < text.length) : offset text i < offset text (i + 1) := by
  obtain ⟨b, l, after, -, h⟩ := split_at hi
  have := h.offset_eq
  omega

theorem offset_zero (text : List Char) : offset text 0 = 0 := rfl

theorem offset_length (text : List Char) : offset text text.length = (bytes text).length := by
  rw [offset, List.take_length]

theorem offset_mono {j : ℕ} (hij : i ≤ j) (hj : j ≤ text.length) :
    offset text i + (j - i) ≤ offset text j := by
  induction j with
  | zero =>
    rw [Nat.le_zero.1 hij]
    omega
  | succ j ih =>
    by_cases heq : i = j + 1
    · rw [heq]
      omega
    · have := ih (by omega) (by omega)
      have := @offset_lt text j (by omega)
      omega

theorem offset_ascii (h : (bytes text).length = text.length) (hi : i ≤ text.length) :
    offset text i = i := by
  have hbefore := @offset_mono text _ _ (Nat.zero_le i) hi
  have hafter := offset_mono hi (Nat.le_refl text.length)
  rw [offset_zero] at hbefore
  rw [offset_length] at hafter
  omega

/-! ### The map of offsets -/

theorem getD_mapInit {passes c : ℕ} (hpasses : text.length ≤ i + passes) (hi : i < text.length)
    {k : ℕ} (hk : i + c + njsStringMapStride * k < text.length) :
    (njsStringUtf8OffsetMapInit (bytes text) passes (offset text i) c).getD k 0 =
      offset text (i + c + njsStringMapStride * k) := by
  induction passes generalizing i c k with
  | zero => omega
  | succ passes ih =>
    have hmore : i + 1 < text.length → offset text (i + 1) < (bytes text).length := by
      intro hlt
      have := @offset_mono text _ _ (Nat.le_of_lt hlt) (Nat.le_refl _)
      rw [offset_length] at this
      omega
    rw [njsStringUtf8OffsetMapInit]
    simp only [njsUtf8Next_offset hi]
    split_ifs with hc hnext hnext
    · cases k with
      | zero => rw [List.getD_cons_zero, hc, Nat.mul_zero, Nat.add_zero]
      | succ k =>
        rw [njsStringMapStride] at *
        rw [List.getD_cons_succ, ih (by omega) (by omega) (by omega)]
        congr 1
        omega
    · cases k with
      | zero => rw [List.getD_cons_zero, hc, Nat.mul_zero, Nat.add_zero]
      | succ k =>
        rw [njsStringMapStride] at *
        exact absurd (hmore (by omega)) hnext
    · rw [ih (by omega) (by omega) (by omega)]
      congr 1
      omega
    · exact absurd (hmore (by omega)) hnext

theorem iterate_next {n : ℕ} (h : i + n ≤ text.length) :
    (njsUtf8Next (bytes text))^[n] (offset text i) = offset text (i + n) := by
  induction n generalizing i with
  | zero => rfl
  | succ n ih =>
    rw [Function.iterate_succ_apply, njsUtf8Next_offset (by omega), ih (by omega)]
    congr 1
    omega

theorem njsStringUtf8Offset_eq (hi : i < text.length) :
    njsStringUtf8Offset (bytes text) i = offset text i := by
  have hdiv := Nat.div_add_mod i njsStringMapStride
  have hmod := Nat.mod_lt i (show 0 < njsStringMapStride by decide)
  have hlong : text.length ≤ (bytes text).length := by
    have := @offset_mono text _ _ (Nat.zero_le text.length) (Nat.le_refl _)
    rw [offset_length] at this
    omega
  rw [njsStringUtf8Offset]
  dsimp only
  split_ifs with hlarge
  · have hpos : 1 ≤ i / njsStringMapStride := (Nat.one_le_div_iff (by decide)).2 hlarge
    have hentry := @getD_mapInit text 0 (bytes text).length njsStringMapStride (by omega)
      (by omega) (i / njsStringMapStride - 1)
    rw [njsStringMapStride] at *
    rw [offset_zero] at hentry
    rw [hentry (by omega), iterate_next (by omega)]
    congr 1
    omega
  · have h := @iterate_next text 0 (i % njsStringMapStride) (by
      rw [njsStringMapStride] at *
      omega)
    rw [offset_zero] at h
    rw [h, Nat.zero_add, Nat.mod_eq_of_lt (Nat.not_le.1 hlarge)]

end Njs.Indices
