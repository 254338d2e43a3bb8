import Mathlib.Data.UInt

/-!
# Bytes and the literals of C
-/

/-- Byte strings. -/
abbrev Bytes : Type := List UInt8

instance : LawfulBEq Bytes := inferInstance

namespace Text

/-- A character constant. -/
abbrev chr (c : Char) : UInt8 := c.toUInt8

/-- A string literal, of characters below 256. -/
def lit (s : String) : Bytes := s.toList.map chr

theorem forall_byte {p : UInt8 → Prop}
    (h : ∀ high < 16, ∀ low < 16, p (UInt8.ofNat (16 * high + low))) (b : UInt8) : p b := by
  have hlt := b.toNat_lt
  have hb := h (b.toNat / 16) (by omega) (b.toNat % 16) (by omega)
  rwa [Nat.div_add_mod, UInt8.ofNat_toNat] at hb

theorem forall_mem_of_all {p : UInt8 → Prop} [DecidablePred p] {l : Bytes}
    (h : l.all (fun c => p c) = true) : ∀ c ∈ l, p c := by
  simpa using h

/-! ### Literals without decoding -/

theorem lit_ascii {s : String} (h : s.toByteArray.data.toList.all (· < 0x80) = true) :
    lit s = s.toByteArray.data.toList := by
  rw [← String.utf8Encode_toList] at h ⊢
  rw [lit]
  generalize s.toList = l at h ⊢
  simp only [List.utf8Encode, List.data_toByteArray] at h ⊢
  have hmark : ∀ x mark : UInt8, 0x80 ≤ mark → (decide (x ||| mark < 0x80)) = false :=
    fun x mark hmark => decide_eq_false (UInt8.not_lt.2 (UInt8.le_trans hmark UInt8.right_le_or))
  induction l with
  | nil => rfl
  | cons c l ih =>
    rw [List.flatMap_cons, List.all_append, Bool.and_eq_true] at h
    have ih := ih h.2
    obtain hsize | hsize | hsize | hsize := c.utf8Size_eq
    · rw [List.flatMap_cons, String.utf8EncodeChar_eq_singleton hsize, List.map_cons, ih]
      rfl
    · rw [String.utf8EncodeChar_eq_cons_cons hsize] at h
      simp [hmark _ 0xc0 (by decide)] at h
    · rw [String.utf8EncodeChar_eq_cons_cons_cons hsize] at h
      simp [hmark _ 0xe0 (by decide)] at h
    · rw [String.utf8EncodeChar_eq_cons_cons_cons_cons hsize] at h
      simp [hmark _ 0xf0 (by decide)] at h

/-- A string literal, whose characters are decoded only if they are not ASCII. -/
def litUndecoded (s : String) : Bytes :=
  let b := s.toByteArray.data.toList
  if b.all (· < 0x80) then b else lit s

theorem lit_eq_litUndecoded : lit = litUndecoded := by
  funext s
  by_cases h : s.toByteArray.data.toList.all (· < 0x80) = true
  · exact (lit_ascii h).trans (if_pos h).symm
  · exact (if_neg h).symm

end Text
