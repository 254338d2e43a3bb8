import Njs.Json.Stringify
import Njs.Strings.StringProp

/-!
# Strings made by chains

A chain that is limited to the size of a string holds all that was appended to it, or it has
overflown.
-/

namespace Njs.Strings

open Text
open Indices (bytes)
open Query (bytes_append)
open Json (Chain njsChbReserve njsChbAppend)

def invalidStringLength : Thrown := .rangeError "invalid string length"

/-- `njs_string_alloc`, with the bytes that are copied. -/
def njsStringAlloc (start : Bytes) (length : ℕ) : Except Thrown StringProp :=
  if njsStringMaxLength < start.length then .error invalidStringLength else .ok ⟨start, length⟩

/-- `njs_string_create_chb`. Its chains do not become longer than a string. -/
def njsStringCreateChb : Chain → Except Thrown StringProp
  | none => .error invalidStringLength
  | some chain =>
    match njsUtf8Length chain with
    | some length => .ok ⟨chain, length⟩
    | none => .error (.internalError "invalid UTF-8 string")

def created (text : List Char) : Except Thrown StringProp :=
  if njsStringMaxLength < (bytes text).length then .error invalidStringLength else .ok (ofText text)

def chainOf (text : List Char) : Chain :=
  if njsStringMaxLength < (bytes text).length then none else some (bytes text)

variable (text t : List Char)

theorem njsChbAppend_some (msg s : Bytes) (hs : s.length ≤ njsStringMaxLength) :
    njsChbAppend njsStringMaxLength msg (some s) =
      if njsStringMaxLength < (s ++ msg).length then none else some (s ++ msg) := by
  have hmax : njsStringMaxLength ≠ 0 := by decide
  rw [njsChbAppend, njsChbReserve, Option.bind_some, List.length_append]
  split_ifs with hmsg hreserve hover hover hover
  · rfl
  · exact absurd hreserve.2 hover
  · exact absurd ⟨hmax, hover⟩ hreserve
  · rfl
  · omega
  · rw [List.eq_nil_of_length_eq_zero (not_not.1 hmsg), List.append_nil]

theorem njsChbAppend_chainOf :
    njsChbAppend njsStringMaxLength (bytes t) (chainOf text) = chainOf (text ++ t) := by
  rw [chainOf, chainOf, bytes_append]
  split_ifs with htext happend happend
  · rw [njsChbAppend, njsChbReserve]
    exact ite_self none
  · rw [List.length_append] at happend
    omega
  · rw [njsChbAppend_some _ _ (Nat.not_lt.1 htext), if_pos happend]
  · rw [njsChbAppend_some _ _ (Nat.not_lt.1 htext), if_neg happend]

theorem njsStringCreateChb_bytes : njsStringCreateChb (some (bytes text)) = .ok (ofText text) := by
  rw [njsStringCreateChb, njsUtf8Length_bytes]
  rfl

theorem njsStringCreateChb_chainOf : njsStringCreateChb (chainOf text) = created text := by
  rw [chainOf, created]
  split_ifs with hlong
  · rfl
  · exact njsStringCreateChb_bytes text

theorem njsStringMaxLength_lt {l : List Char} (h : njsStringMaxLength < (bytes text).length)
    (hl : text <:+: l) : njsStringMaxLength < (bytes l).length := by
  obtain ⟨u, v, rfl⟩ := hl
  rw [bytes_append, bytes_append, List.length_append, List.length_append]
  omega

end Njs.Strings
