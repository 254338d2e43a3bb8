import Njs.Regexp.Exec
import Njs.Strings.Split

/-!
# Splitting by a regular expression

The copy that is made for a split is sticky: it is tried at one character after the other, and a
match that ends where the last one ended is passed over.
-/

namespace Njs.Regexp

open Strings (Number StringProp njsNumberToUint32 njsStringCalcLength ofText)
open Indices (bytes offset slice njsStringUtf8Offset njsStringUtf8Offset_eq offset_ascii
  offset_length)

/-! ### The code -/

def addAll {α : Type} (limit : ℕ) (array : List α) : List α → List α × Bool
  | [] => (array, false)
  | value :: values =>
    let array := array ++ [value]
    if array.length = limit then (array, true) else addAll limit array values

/-- `njs_array_string_add` of the bytes between two positions. -/
def addString (utf8 : Bool) (s : Bytes) (start stop : ℕ) (array : List Element) : List Element :=
  let piece := slice s start (stop - start)
  array ++ [some ⟨piece, njsStringCalcLength utf8 piece⟩]

/-- The loop of `njs_regexp_prototype_symbol_split`, and the piece behind it. -/
def splitLoop (regex : Bool → Option Matcher) (string : StringProp) (utf8 : Bool) (limit : ℕ) :
    ℕ → ℕ → ℕ → List Element → List Element
  | 0, _, _, array => array
  | passes + 1, p, q, array =>
    if q < string.length then
      match njsRegexpBuiltinExec regex string q with
      | (none, _) => splitLoop regex string utf8 limit passes p (q + 1) array
      | (some z, lastIndex) =>
        let e := min lastIndex string.length
        if e = p then splitLoop regex string utf8 limit passes p (q + 1) array
        else
          let start := if utf8 then njsStringUtf8Offset string.start p else p
          let stop := if utf8 then njsStringUtf8Offset string.start q else q
          let array := addString utf8 string.start start stop array
          if array.length = limit then array
          else
            let (array, done) := addAll limit array (z.drop 1)
            if done then array else splitLoop regex string utf8 limit passes e e array
    else
      let stop := string.start.length
      let start := if utf8 then (if p < string.length then njsStringUtf8Offset string.start p
        else stop) else p
      addString utf8 string.start start stop array

/-- `njs_regexp_prototype_symbol_split` of the copy with its code for each type; no limit is
undefined. Two passes go on by at least a character. -/
def njsRegexpPrototypeSymbolSplit (regex : Bool → Option Matcher) (string : StringProp)
    (limit : Option Number) : List Element :=
  let limit := limit.elim 0xffffffff njsNumberToUint32
  if limit = 0 then []
  else if string.start.length = 0 then
    if (njsRegexpBuiltinExec regex string 0).1.isSome then [] else [some string]
  else
    splitLoop regex string (!string.njsIsAsciiString) limit (2 * string.length + 2) 0 0 []

/-! ### The specification -/

namespace Oracle

variable (r : Oracle) (text : List Char)

/-- The loop of the specification, and the piece behind it. -/
def splitLoop (limit : ℕ) : ℕ → ℕ → ℕ → List (Option (List Char)) → List (Option (List Char))
  | 0, _, _, array => array
  | passes + 1, p, q, array =>
    if q < text.length then
      match r.find text q with
      | none => splitLoop limit passes p (q + 1) array
      | some z =>
        if z.span.2 = p then splitLoop limit passes p (q + 1) array
        else
          let array := array ++ [some (part text (p, q))]
          if array.length = limit then array
          else
            let (array, done) := addAll limit array (z.groups.map (Option.map (part text)))
            if done then array else splitLoop limit passes z.span.2 z.span.2 array
    else array ++ [some (part text (p, text.length))]

def split (limit : ℕ) : List (Option (List Char)) :=
  if limit = 0 then []
  else if text = [] then (if (r.find text 0).isSome then [] else [some text])
  else r.splitLoop text limit (2 * text.length + 2) 0 0 []

end Oracle

/-- A piece of a text with the separator behind it and the captures of that. -/
structure Piece where
  piece : List Char
  separator : List Char
  captures : List (Option (List Char))

def Piece.elements (s : Piece) : List (Option (List Char)) := some s.piece :: s.captures

/-- The pieces of what is left of a text behind a character, with a match looked for from another
one on, and the last piece. -/
inductive Splits (r : Oracle) (text : List Char) : ℕ → ℕ → List Piece → List Char → Prop
  | last {p q : ℕ} (hq : text.length ≤ q) : Splits r text p q [] (part text (p, text.length))
  | none {p q : ℕ} {pieces : List Piece} {rest : List Char} (hq : q < text.length)
      (hfind : r.find text q = none) (h : Splits r text p (q + 1) pieces rest) :
      Splits r text p q pieces rest
  | here {p q : ℕ} {pieces : List Piece} {rest : List Char} {z : Captures} (hq : q < text.length)
      (hfind : r.find text q = some z) (hz : z.span.2 = p) (h :
        Splits r text p (q + 1) pieces rest) :
      Splits r text p q pieces rest
  | piece {p q : ℕ} {pieces : List Piece} {rest : List Char} {z : Captures} (hq : q < text.length)
      (hfind : r.find text q = some z) (hz : z.span.2 ≠ p)
      (h : Splits r text z.span.2 z.span.2 pieces rest) :
      Splits r text p q (⟨part text (p, q), part text z.span,
        z.groups.map (Option.map (part text))⟩ :: pieces) rest

variable {r : Oracle} {text : List Char} {regex : Bool → Option Matcher}

/-! ### Pieces -/

theorem part_append {p q : ℕ} (hpq : p ≤ q) (text : List Char) :
    part text (p, q) ++ text.drop q = text.drop p := by
  have hdrop : text.drop q = (text.drop p).drop (q - p) := by
    rw [List.drop_drop, Nat.add_sub_cancel' hpq]
  rw [part, hdrop, List.take_append_drop]

theorem part_length (p : ℕ) (text : List Char) : part text (p, text.length) = text.drop p := by
  rw [part, List.take_of_length_le (by rw [List.length_drop])]

theorem Splits.interleave {p q : ℕ} {pieces : List Piece} {rest : List Char}
    (h : Splits r text p q pieces rest) (hpq : p ≤ q) :
    pieces.flatMap (fun s => s.piece ++ s.separator) ++ rest = text.drop p := by
  induction h with
  | last hq => exact part_length _ text
  | none hq hfind h ih => exact ih (by omega)
  | here hq hfind hz h ih => exact ih (by omega)
  | @piece p q pieces rest z hq hfind hz h ih =>
    obtain ⟨hstart, hle, -⟩ := r.bounds hfind
    have hspan : z.span = (q, z.span.2) := Prod.ext hstart rfl
    rw [List.flatMap_cons, List.append_assoc, ih le_rfl, hspan, List.append_assoc,
      part_append hle, part_append hpq]

theorem addAll_eq {α : Type} {limit : ℕ} {array : List α} (harray : array.length < limit)
    (values : List α) : addAll limit array values =
      if limit ≤ array.length + values.length then ((array ++ values).take limit, true)
      else (array ++ values, false) := by
  induction values generalizing array with
  | nil => rw [addAll, if_neg (by simpa using harray), List.append_nil]
  | cons value values ih =>
    have hlength : (array ++ [value]).length = array.length + 1 := by
      rw [List.length_append, List.length_singleton]
    rw [addAll]
    by_cases heq : (array ++ [value]).length = limit
    · rw [if_pos heq, if_pos (by rw [List.length_cons]; omega), List.append_cons array value values,
        ← heq, List.take_left]
    · have hmore : (array ++ [value]).length + values.length =
          array.length + (value :: values).length := by
        rw [hlength, List.length_cons]
        omega
      rw [if_neg heq, ih (by omega), hmore, ← List.append_cons]

def elementsOf (pieces : List Piece) (rest : List Char) : List (Option (List Char)) :=
  pieces.flatMap Piece.elements ++ [some rest]

theorem Oracle.splitLoop_eq {limit passes p q : ℕ} {array : List (Option (List Char))}
    (hpq : p ≤ q) (hq : q ≤ text.length)
    (hpasses : 2 * (text.length - q) + (if p < q then 1 else 0) < passes)
    (harray : array.length < limit) : ∃ pieces rest, Splits r text p q pieces rest ∧
      r.splitLoop text limit passes p q array = (array ++ elementsOf pieces rest).take limit := by
  induction passes generalizing p q array with
  | zero => exact absurd hpasses (Nat.not_lt_zero _)
  | succ passes ih =>
    rw [splitLoop]
    by_cases hlt : q < text.length
    swap
    · refine ⟨[], _, .last (not_lt.1 hlt), ?_⟩
      rw [if_neg hlt, elementsOf, List.flatMap_nil, List.nil_append,
        List.take_of_length_le (by rw [List.length_append, List.length_singleton]; omega)]
    rw [if_pos hlt]
    have hnext : 2 * (text.length - (q + 1)) + (if p < q + 1 then 1 else 0) < passes := by
      rw [if_pos (by omega)]
      omega
    rcases hfind : r.find text q with _ | z
    · obtain ⟨pieces, rest, h, heq⟩ := ih (by omega) hlt hnext harray
      exact ⟨pieces, rest, .none hlt hfind h, heq⟩
    obtain ⟨-, hle, hstop⟩ := r.bounds hfind
    dsimp only
    by_cases hz : z.span.2 = p
    · obtain ⟨pieces, rest, h, heq⟩ := ih (by omega) hlt hnext harray
      exact ⟨pieces, rest, .here hlt hfind hz h, by rw [if_pos hz, heq]⟩
    rw [if_neg hz]
    have hrest : 2 * (text.length - z.span.2) + (if z.span.2 < z.span.2 then 1 else 0) < passes
      := by
      rw [if_neg (lt_irrefl _)]
      split_ifs at hpasses <;> omega
    have hcut : ∀ {pieces rest}, Splits r text z.span.2 z.span.2 pieces rest →
        Splits r text p q (⟨part text (p, q), part text z.span,
          z.groups.map (Option.map (part text))⟩ :: pieces) rest := .piece hlt hfind hz
    set array₁ := array ++ [some (part text (p, q))] with harray₁
    have helements : ∀ (pieces : List Piece) (rest : List Char),
        array ++ elementsOf (⟨part text (p, q), part text z.span,
          z.groups.map (Option.map (part text))⟩ :: pieces) rest =
        array₁ ++ z.groups.map (Option.map (part text)) ++ elementsOf pieces rest := by
      intro pieces rest
      rw [elementsOf, List.flatMap_cons, Piece.elements, harray₁]
      simp [elementsOf]
    have hlength : array₁.length = array.length + 1 := by
      rw [harray₁, List.length_append, List.length_singleton]
    obtain ⟨pieces, rest, h, -⟩ := ih le_rfl hstop hrest
      (show ([] : List (Option (List Char))).length < limit from Nat.zero_lt_of_lt harray)
    by_cases hlimit : array₁.length = limit
    · refine ⟨_, rest, hcut h, ?_⟩
      rw [if_pos hlimit, helements, List.append_assoc, ← hlimit, List.take_left]
    rw [if_neg hlimit, addAll_eq (by omega)]
    by_cases hfull : limit ≤ array₁.length + (z.groups.map (Option.map (part text))).length
    · refine ⟨_, rest, hcut h, ?_⟩
      have htake : (array₁ ++ z.groups.map (Option.map (part text)) ++ elementsOf pieces rest).take
          limit = (array₁ ++ z.groups.map (Option.map (part text))).take limit :=
        List.take_append_of_le_length (by rwa [List.length_append])
      rw [if_pos hfull, helements, htake]
      rfl
    have hroom : (array₁ ++ z.groups.map (Option.map (part text))).length < limit := by
      rw [List.length_append]
      omega
    obtain ⟨pieces, rest, h, heq⟩ := ih le_rfl hstop hrest hroom
    refine ⟨_, rest, hcut h, ?_⟩
    rw [if_neg hfull, helements, ← heq]
    rfl

theorem Oracle.split_eq (r : Oracle) (htext : text ≠ []) (limit : ℕ) : ∃ pieces rest,
    Splits r text 0 0 pieces rest ∧ r.split text limit = (elementsOf pieces rest).take limit ∧
      pieces.flatMap (fun s => s.piece ++ s.separator) ++ rest = text := by
  obtain ⟨pieces, rest, h, heq⟩ := @splitLoop_eq r text (limit + 1) (2 * text.length + 2) 0 0 []
    le_rfl (Nat.zero_le _) (by rw [if_neg (lt_irrefl _)]; omega) (Nat.succ_pos limit)
  have hinterleave := h.interleave le_rfl
  rw [List.drop_zero] at hinterleave
  by_cases hlimit : limit = 0
  · refine ⟨pieces, rest, h, ?_, hinterleave⟩
    rw [split, if_pos hlimit, hlimit, List.take_zero]
  obtain ⟨pieces, rest, h, heq⟩ := @splitLoop_eq r text limit (2 * text.length + 2) 0 0 []
    le_rfl (Nat.zero_le _) (by rw [if_neg (lt_irrefl _)]; omega) (Nat.pos_of_ne_zero hlimit)
  have hinterleave := h.interleave le_rfl
  rw [List.drop_zero] at hinterleave
  exact ⟨pieces, rest, h, by rw [split, if_neg hlimit, if_neg htext, heq, List.nil_append],
    hinterleave⟩

/-! ### The code -/

theorem addAll_map {α β : Type} (f : α → β) (limit : ℕ) (array values : List α) :
    addAll limit (array.map f) (values.map f) =
      ((addAll limit array values).1.map f, (addAll limit array values).2) := by
  induction values generalizing array with
  | nil => rfl
  | cons value values ih =>
    have hlength : (array.map f ++ [f value]).length = (array ++ [value]).length := by simp
    have hmap : array.map f ++ [f value] = (array ++ [value]).map f := by simp
    rw [List.map_cons, addAll, addAll, hmap, List.length_map]
    by_cases heq : (array ++ [value]).length = limit
    · rw [if_pos heq, if_pos heq]
    · rw [if_neg heq, if_neg heq, ih]

theorem addString_eq {utf8 : Bool} (hutf8 : utf8 = false → ∀ c ∈ text, c.toNat < 0x80) {p q : ℕ}
    (hpq : p ≤ q) (array : List (Option (List Char))) :
    addString utf8 (bytes text) (offset text p) (offset text q) (array.map (Option.map ofText)) =
      (array ++ [some (part text (p, q))]).map (Option.map ofText) := by
  have hpiece := Strings.piece_eq hutf8 p (q - p)
  rw [Nat.add_sub_cancel' hpq] at hpiece
  rw [addString, List.map_append]
  exact congrArg (fun s => _ ++ [some s]) hpiece

theorem splitLoop_map (h : Implements regex r) {utf8 : Bool}
    (hutf8 : utf8 = false → ∀ c ∈ text, c.toNat < 0x80) (limit passes : ℕ) {p q : ℕ} (hpq : p ≤ q)
    (hq : q ≤ text.length) (array : List (Option (List Char))) :
    splitLoop regex (ofText text) utf8 limit passes p q (array.map (Option.map ofText)) =
      (r.splitLoop text limit passes p q array).map (Option.map ofText) := by
  have hposition : ∀ i < text.length, (if utf8 then njsStringUtf8Offset (bytes text) i else i) =
      offset text i := by
    intro i hi
    cases utf8 with
    | false => exact (offset_ascii ((Strings.length_bytes_eq_iff text).2 (hutf8 rfl)) hi.le).symm
    | true => exact njsStringUtf8Offset_eq hi
  induction passes generalizing p q array with
  | zero => rfl
  | succ passes ih =>
    rw [splitLoop, Oracle.splitLoop]
    by_cases hlt : q < text.length
    swap
    · have hposition' := position_eq
        (fun h => (Strings.length_bytes_eq_iff text).2 (hutf8 h)) (hpq.trans hq)
      have hadd := addString_eq hutf8 (hpq.trans hq) (p := p) array
      rw [offset_length, ← hposition'] at hadd
      rw [if_neg hlt, if_neg (show ¬q < (ofText text).length from hlt)]
      exact hadd
    rw [if_pos hlt, if_pos (show q < (ofText text).length from hlt),
      njsRegexpBuiltinExec_eq h hlt.le]
    rcases hfind : r.find text q with _ | z
    · exact ih (by omega) hlt array
    obtain ⟨-, hle, hstop⟩ := r.bounds hfind
    have hmin : min z.span.2 (ofText text).length = z.span.2 := min_eq_left hstop
    dsimp only
    rw [hmin]
    by_cases hz : z.span.2 = p
    · rw [if_pos hz, if_pos hz]
      exact ih (by omega) hlt array
    have hfirst := hposition p (by omega)
    have hlast := hposition q hlt
    have hadd := addString_eq hutf8 hpq array
    rw [← hfirst, ← hlast] at hadd
    replace hadd : addString utf8 (ofText text).start
        (if utf8 then njsStringUtf8Offset (ofText text).start p else p)
        (if utf8 then njsStringUtf8Offset (ofText text).start q else q)
        (array.map (Option.map ofText)) =
          (array ++ [some (part text (p, q))]).map (Option.map ofText) := hadd
    have hgroups : ((z.texts text).map (Option.map ofText)).drop 1 =
        (z.groups.map (Option.map (part text))).map (Option.map ofText) := rfl
    rw [if_neg hz, if_neg hz, hgroups]
    rw [hadd, List.length_map]
    by_cases hlimit : (array ++ [some (part text (p, q))]).length = limit
    · rw [if_pos hlimit, if_pos hlimit]
    rw [if_neg hlimit, if_neg hlimit, addAll_map]
    rcases addAll limit (array ++ [some (part text (p, q))])
      (z.groups.map (Option.map (part text))) with ⟨array₂, done⟩
    cases done with
    | false => exact ih le_rfl hstop array₂
    | true => rfl

theorem njsRegexpPrototypeSymbolSplit_eq (h : Implements regex r) (text : List Char)
    (limit : Option Number) : njsRegexpPrototypeSymbolSplit regex (ofText text) limit =
      (r.split text (limit.elim 0xffffffff njsNumberToUint32)).map (Option.map ofText) := by
  rw [njsRegexpPrototypeSymbolSplit, Oracle.split]
  generalize limit.elim 0xffffffff njsNumberToUint32 = limit
  by_cases hlimit : limit = 0
  · rw [if_pos hlimit, if_pos hlimit]
    rfl
  rw [if_neg hlimit, if_neg hlimit]
  by_cases htext : text = []
  · subst htext
    have hexec := njsRegexpBuiltinExec_eq h (show 0 ≤ ([] : List Char).length from le_rfl)
    rw [if_pos rfl, if_pos (show (ofText []).start.length = 0 from rfl), hexec]
    rcases r.find [] 0 with _ | z <;> rfl
  have hne : (ofText text).start.length ≠ 0 :=
    mt (fun h => Strings.bytes_eq_nil_iff.1 (List.length_eq_zero_iff.1 h)) htext
  rw [if_neg htext, if_neg hne]
  refine splitLoop_map h (fun hascii => ?_) limit _ le_rfl (Nat.zero_le _) []
  rw [Bool.not_eq_false'] at hascii
  exact (Strings.njsIsAsciiString_iff text).1 hascii

/-- The code splits a string as it is specified, and the pieces and the separators make up the
string. -/
theorem symbolSplit_spec (h : Implements regex r) (text : List Char) (limit : Option Number) :
    njsRegexpPrototypeSymbolSplit regex (ofText text) limit =
      (r.split text (limit.elim 0xffffffff njsNumberToUint32)).map (Option.map ofText) ∧
    (text ≠ [] → ∃ pieces rest, Splits r text 0 0 pieces rest ∧
      r.split text (limit.elim 0xffffffff njsNumberToUint32) =
        (elementsOf pieces rest).take (limit.elim 0xffffffff njsNumberToUint32) ∧
      pieces.flatMap (fun s => s.piece ++ s.separator) ++ rest = text) :=
  ⟨njsRegexpPrototypeSymbolSplit_eq h text limit, fun htext => r.split_eq htext _⟩

def emptyGroup : Oracle where
  find text o := if o ≤ text.length then some ⟨(o, o), [some (o, o)]⟩ else none
  bounds h := by
    rw [Option.ite_none_right_eq_some, Option.some.injEq] at h
    obtain ⟨ho, rfl⟩ := h
    exact ⟨rfl, le_rfl, ho⟩
  groups h g hg := by
    rw [Option.ite_none_right_eq_some, Option.some.injEq] at h
    obtain ⟨ho, rfl⟩ := h
    obtain rfl := Option.some.inj (List.mem_singleton.1 hg)
    exact ⟨le_rfl, ho⟩

def emptyGroupCode : Bool → Option Matcher :=
  fun _ => some fun s p => if p ≤ s.length then some ⟨(p, p), [some (p, p)]⟩ else none

theorem implements_emptyGroup : Implements emptyGroupCode emptyGroup := by
  intro text o ho
  have hoffset : offset text o ≤ (bytes text).length := by
    have := Indices.offset_mono ho le_rfl
    rw [offset_length] at this
    omega
  simp only [emptyGroupCode, emptyGroup, Option.bind_some, if_pos hoffset, if_pos ho]
  rfl

/-- Two characters are split, with the empty group between them. -/
theorem symbolSplit_two : Implements emptyGroupCode emptyGroup ∧
    njsRegexpPrototypeSymbolSplit emptyGroupCode (ofText ['é', 'b']) none =
      [some ['é'], some [], some ['b']].map (Option.map ofText) := by
  refine ⟨implements_emptyGroup, ?_⟩
  rw [(symbolSplit_spec implements_emptyGroup ['é', 'b'] none).1]
  decide

end Njs.Regexp
