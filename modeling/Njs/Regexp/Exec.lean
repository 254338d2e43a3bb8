import Njs.Regexp.Source

/-!
# The built-in `exec`

A sticky regular expression is matched at `lastIndex`, which counts characters, while the library
counts bytes.
-/

namespace Njs.Regexp

open Strings (StringProp ofText)
open Indices (bytes offset slice njsStringMapStride njsStringUtf8Offset njsStringUtf8OffsetMapInit
  njsUtf8Next njsUtf8Next_offset getD_mapInit njsStringUtf8Offset_eq offset_ascii offset_length
  offset_mono offset_zero)

/-! ### The code -/

/-- The first loop of `njs_string_index`: the offset and the index of the last character in the map
that is not behind a byte. -/
def mapScan (length position : ℕ) : List ℕ → ℕ → ℕ → ℕ × ℕ
  | [], last, index => (last, index)
  | entry :: map, last, index =>
    if index + njsStringMapStride < length ∧ entry ≤ position then
      mapScan length position map entry (index + njsStringMapStride)
    else (last, index)

/-- The second loop of `njs_string_index`. A pass goes on by at least a byte. -/
def nextScan (s : Bytes) (position : ℕ) : ℕ → ℕ → ℕ → ℕ
  | 0, _, index => index
  | passes + 1, p, index =>
    if p < position then nextScan s position passes (njsUtf8Next s p) (index + 1) else index

def njsStringIndex (string : StringProp) (position : ℕ) : ℕ :=
  if string.start.length = string.length then position
  else
    let (last, index) :=
      if njsStringMapStride < string.length then
        mapScan string.length position
          (njsStringUtf8OffsetMapInit string.start string.start.length 0 njsStringMapStride) 0 0
      else (0, 0)
    nextScan string.start position (string.start.length + 1) last index

/-- The captures of a match: the bounds of the match and those of the groups, if they are set. -/
structure Captures where
  span : ℕ × ℕ
  groups : List (Option (ℕ × ℕ))
  deriving DecidableEq

/-- `njs_regexp_match`: a match in a subject at an offset. -/
abbrev Matcher : Type := Bytes → ℕ → Option Captures

/-- An element of an array of strings, where `undefined` is `none`. -/
abbrev Element : Type := Option StringProp

/-- The elements of `njs_regexp_exec_result`. -/
def njsRegexpExecResult (string : StringProp) (c : Captures) : List Element :=
  (some c.span :: c.groups).map fun capture => capture.map fun c =>
    njsStringDecodeUtf8 (slice string.start c.1 (c.2 - c.1))

/-- `njs_regexp_builtin_exec` of a sticky pattern, with its code for each type: the result, where
`null` is `none`, and the new `lastIndex`. -/
def njsRegexpBuiltinExec (regex : Bool → Option Matcher) (string : StringProp) (lastIndex : ℕ) :
    Option (List Element) × ℕ :=
  if string.length < lastIndex then (none, 0)
  else
    let type : Bool := string.length ≠ 0
    let utf8 := type && !string.njsIsAsciiString
    let position :=
      if utf8 then
        if lastIndex < string.length then njsStringUtf8Offset string.start lastIndex
        else string.start.length
      else lastIndex
    match (regex type).bind fun njsRegexpMatch => njsRegexpMatch string.start position with
    | none => (none, 0)
    | some c =>
      (some (njsRegexpExecResult string c),
        if utf8 then njsStringIndex string c.span.2 else c.span.2)

/-! ### Characters and bytes -/

variable {text : List Char} {i : ℕ}

theorem offset_le_iff {j : ℕ} (hi : i ≤ text.length) (hj : j ≤ text.length) :
    offset text i ≤ offset text j ↔ i ≤ j := by
  constructor
  · intro h
    by_contra hlt
    have hmono : offset text j + (i - j) ≤ offset text i :=
      offset_mono (Nat.le_of_lt (not_le.1 hlt)) hi
    omega
  · intro h
    have hmono := offset_mono h hj
    omega

theorem mapScan_offset (hi : i ≤ text.length) {map : List ℕ} {index : ℕ} (hindex : index ≤ i)
    (hmap : ∀ k, index + njsStringMapStride * (k + 1) < text.length →
      map.getD k 0 = offset text (index + njsStringMapStride * (k + 1))) :
    ∃ j ≤ i, mapScan text.length (offset text i) map (offset text index) index =
      (offset text j, j) := by
  induction map generalizing index with
  | nil => exact ⟨index, hindex, rfl⟩
  | cons entry map ih =>
    rw [mapScan]
    split_ifs with h
    · have hentry := hmap 0 (by omega)
      rw [List.getD_cons_zero, Nat.zero_add, Nat.mul_one] at hentry
      rw [hentry] at h ⊢
      refine ih ((offset_le_iff (Nat.le_of_lt h.1) hi).1 h.2) fun k hk => ?_
      have hnext := hmap (k + 1) (by rw [Nat.mul_succ]; omega)
      rwa [List.getD_cons_succ, Nat.mul_succ, Nat.add_comm (_ * _), ← Nat.add_assoc] at hnext
    · exact ⟨index, hindex, rfl⟩

theorem nextScan_offset (hi : i ≤ text.length) {passes j : ℕ} (hj : j ≤ i) (hpasses :
    i < j + passes) :
    nextScan (bytes text) (offset text i) passes (offset text j) j = i := by
  induction passes generalizing j with
  | zero => omega
  | succ passes ih =>
    rw [nextScan]
    by_cases heq : j = i
    · rw [heq, if_neg (lt_irrefl _)]
    · have hlt : j < i := Nat.lt_of_le_of_ne hj heq
      rw [if_pos (not_le.1 (mt (offset_le_iff hi (hj.trans hi)).1 hlt.not_ge)),
        njsUtf8Next_offset (by omega)]
      exact ih hlt (by omega)

theorem njsStringIndex_offset (hi : i ≤ text.length) :
    njsStringIndex (ofText text) (offset text i) = i := by
  have hlength := Strings.length_le_bytes text
  rw [njsStringIndex, ofText]
  dsimp only
  by_cases hascii : (bytes text).length = text.length
  · rw [if_pos hascii, offset_ascii hascii hi]
  rw [if_neg hascii]
  by_cases hlong : njsStringMapStride < text.length
  · have hmap : ∀ k, 0 + njsStringMapStride * (k + 1) < text.length →
        (njsStringUtf8OffsetMapInit (bytes text) (bytes text).length 0 njsStringMapStride).getD k 0
          =
          offset text (0 + njsStringMapStride * (k + 1)) := by
      intro k hk
      have hentry := @getD_mapInit text 0 (bytes text).length njsStringMapStride (by omega)
        (by omega) k (by rw [Nat.mul_succ] at hk; omega)
      rw [offset_zero] at hentry
      rw [hentry, Nat.mul_succ]
      congr 1
      omega
    obtain ⟨j, hj, hscan⟩ := mapScan_offset hi (Nat.zero_le i) hmap
    rw [offset_zero] at hscan
    rw [if_pos hlong, hscan]
    exact nextScan_offset hi hj (by omega)
  · rw [if_neg hlong]
    exact nextScan_offset hi (Nat.zero_le i) (by omega)

theorem position_eq {utf8 : Bool} (hutf8 : utf8 = false → (bytes text).length = text.length)
    (hi : i ≤ text.length) : (if utf8 then
      if i < text.length then njsStringUtf8Offset (bytes text) i else (bytes text).length
      else i) = offset text i := by
  cases utf8 with
  | false => exact (offset_ascii (hutf8 rfl) hi).symm
  | true =>
    by_cases hlt : i < text.length
    · rw [if_pos rfl, if_pos hlt, njsStringUtf8Offset_eq hlt]
    · obtain rfl : i = text.length := by omega
      rw [if_pos rfl, if_neg hlt, offset_length]

/-! ### Regular expressions -/

def part (text : List Char) (c : ℕ × ℕ) : List Char := (text.drop c.1).take (c.2 - c.1)

/-- A sticky regular expression: the match in a text at a character. -/
structure Oracle where
  find : List Char → ℕ → Option Captures
  bounds : ∀ {text : List Char} {o : ℕ} {c : Captures}, find text o = some c →
    c.span.1 = o ∧ o ≤ c.span.2 ∧ c.span.2 ≤ text.length
  groups : ∀ {text : List Char} {o : ℕ} {c : Captures}, find text o = some c →
    ∀ g, some g ∈ c.groups → g.1 ≤ g.2 ∧ g.2 ≤ text.length

def Captures.inBytes (text : List Char) (c : Captures) : Captures :=
  ⟨(offset text c.span.1, offset text c.span.2),
    c.groups.map (Option.map fun g => (offset text g.1, offset text g.2))⟩

def Captures.texts (text : List Char) (c : Captures) : List (Option (List Char)) :=
  (some c.span :: c.groups).map (Option.map (part text))

/-- The code of a pattern finds the matches of a regular expression. -/
def Implements (regex : Bool → Option Matcher) (r : Oracle) : Prop :=
  ∀ text o, o ≤ text.length → ((regex (text.length ≠ 0)).bind fun njsRegexpMatch =>
      njsRegexpMatch (bytes text) (offset text o)) = (r.find text o).map (Captures.inBytes text)

theorem string_part (c : ℕ × ℕ) (hc : c.1 ≤ c.2) :
    njsStringDecodeUtf8 (slice (bytes text) (offset text c.1)
      (offset text c.2 - offset text c.1)) = ofText (part text c) := by
  have hend : c.2 = c.1 + (c.2 - c.1) := by omega
  have hsize : offset text c.2 - offset text c.1 = offset (text.drop c.1) (c.2 - c.1) := by
    conv_lhs => rw [hend, Strings.offset_add]
    exact Nat.add_sub_cancel_left _ _
  rw [hsize, Strings.slice_bytes, njsStringDecodeUtf8_bytes]
  rfl

variable {regex : Bool → Option Matcher} {r : Oracle}

theorem njsRegexpExecResult_eq {c : Captures} (hspan : c.span.1 ≤ c.span.2)
    (hgroups : ∀ g, some g ∈ c.groups → g.1 ≤ g.2) :
    njsRegexpExecResult (ofText text) (c.inBytes text) = (c.texts text).map (Option.map ofText)
      := by
  rw [njsRegexpExecResult, Captures.texts, Captures.inBytes]
  simp only [List.map_cons, List.map_map, Option.map_some]
  refine congrArg₂ List.cons (congrArg some (string_part c.span hspan)) ?_
  refine List.map_congr_left fun g hg => ?_
  cases g with
  | none => rfl
  | some g => exact congrArg some (string_part g (hgroups g hg))

/-- What is found, and `lastIndex` behind it. -/
theorem njsRegexpBuiltinExec_eq (h : Implements regex r) (hi : i ≤ text.length) :
    njsRegexpBuiltinExec regex (ofText text) i = match r.find text i with
      | none => (none, 0)
      | some c => (some ((c.texts text).map (Option.map ofText)), c.span.2) := by
  have hutf8 : (decide ((ofText text).length ≠ 0) && !(ofText text).njsIsAsciiString) = false →
      (bytes text).length = text.length := by
    rw [Bool.and_eq_false_iff, decide_eq_false_iff_not, not_not, Bool.not_eq_false',
      StringProp.njsIsAsciiString, decide_eq_true_eq]
    rintro (hempty | hascii)
    · obtain rfl := List.length_eq_zero_iff.1 (show text.length = 0 from hempty)
      rfl
    · exact hascii.symm
  rw [njsRegexpBuiltinExec, if_neg (show ¬(ofText text).length < i from not_lt.2 hi)]
  dsimp only
  generalize (decide ((ofText text).length ≠ 0) && !(ofText text).njsIsAsciiString) = utf8
    at hutf8 ⊢
  have hposition := position_eq hutf8 hi
  have hmatch := h text i hi
  change (match (regex (text.length ≠ 0)).bind fun njsRegexpMatch =>
    njsRegexpMatch (bytes text) (if utf8 then if i < text.length then
      njsStringUtf8Offset (bytes text) i else (bytes text).length else i) with
    | none => _
    | some c => _) = _
  rw [hposition, hmatch]
  rcases hfind : r.find text i with _ | c
  · rfl
  obtain ⟨hstart, hle, hstop⟩ := r.bounds hfind
  dsimp only [Option.map_some]
  rw [njsRegexpExecResult_eq (hstart ▸ hle) fun g hg => (r.groups hfind g hg).1]
  congr 1
  cases utf8 with
  | false => exact offset_ascii (hutf8 rfl) hstop
  | true => exact njsStringIndex_offset hstop

end Njs.Regexp
