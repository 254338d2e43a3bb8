import Njs.Strings.Chains
import Njs.Strings.Search
import Njs.Strings.Slice

/-!
# `split` and `join`

`split` cuts a string at the bytes of a separator. `join` appends a separator behind each element
and drops the last one again, but only after the limits of a string have been checked with it.
-/

namespace Njs.Strings

open Text
open Indices (bytes offset slice njsUtf8Next njsUtf8Next_offset offset_length offset_ascii
  offset_mono)
open Query (bytes_append)
open Json (Chain njsChbAppend njsChbDrop)
open Occurrence (Pieces dropInfix?_eq_none_iff dropInfix?_of_begins dropInfix?_cons)

/-! ### `split` -/

/-- `njs_number_to_uint32`: the whole part modulo 2³². -/
def njsNumberToUint32 : Number → ℕ
  | .nan => 0
  | .negInfinity => 0
  | .infinity => 0
  | .finite n => (n % 2 ^ 32).toNat

/-- The inner loop of `njs_string_prototype_split`: the position of the separator, or the end. -/
def splitScan (string split : Bytes) : ℕ → ℕ → ℕ
  | 0, _ => string.length
  | passes + 1, p =>
    if p + split.length ≤ string.length then
      if slice string p split.length = split then p else splitScan string split passes (p + 1)
    else string.length

/-- The end of a piece and the start of the next one, by the position of the separator. -/
def splitNext (string split : Bytes) (utf8 : Bool) (p : ℕ) : ℕ × ℕ :=
  let next := p + split.length
  if p = next then
    let p := if utf8 then njsUtf8Next string p else p + 1
    (p, p)
  else (p, next)

/-- The loop of `njs_string_prototype_split`. A pass goes on by at least a byte. -/
def splitLoop (string split : Bytes) (utf8 : Bool) : ℕ → ℕ → ℕ → List StringProp
  | 0, _, _ => []
  | passes + 1, limit, start =>
    let p := splitScan string split (string.length + 1) start
    let (p, next) := splitNext string split utf8 p
    let piece := slice string start (p - start)
    let limit := limit - 1
    ⟨piece, njsStringCalcLength utf8 piece⟩ ::
      if limit ≠ 0 ∧ p < string.length then splitLoop string split utf8 passes limit next else []

/-- The `utf8` of `njs_string_prototype_split`. -/
def splitUtf8 (string : StringProp) : Bool := string.length ≠ 0 && !string.njsIsAsciiString

/-- `njs_string_prototype_split` for strings; no separator and no limit are undefined. -/
def njsStringPrototypeSplit (this : StringProp) (separator : Option StringProp)
    (limit : Option Number) : List StringProp :=
  let limit := limit.elim 0xffffffff njsNumberToUint32
  if limit = 0 then []
  else
    match separator with
    | none => [this]
    | some split =>
      if this.start.length = 0 then (if split.start.length ≠ 0 then [this] else [])
      else
        splitLoop this.start split.start (splitUtf8 this) (this.start.length + 1) limit 0

/-! ### `join` -/

/-- An element as `njs_array_prototype_join` reads it: null or undefined, a string, or another
value with what `njs_value_to_chain` appends. -/
inductive Element
  | nothing
  | string (value : StringProp)
  | other (appended : StringProp)

/-- A pass of the loop of `njs_array_prototype_join`. -/
def joinStep (separator : StringProp) (state : Chain × ℕ) (value : Element) :
    Except Thrown (Chain × ℕ) :=
  let (chain, length) :=
    match value with
    | .nothing => state
    | .string s => (njsChbAppend njsStringMaxLength s.start state.1, state.2 + s.length)
    | .other s => (njsChbAppend njsStringMaxLength s.start state.1, state.2 + s.length)
  let length := length + separator.length
  let chain := njsChbAppend njsStringMaxLength separator.start chain
  if njsStringMaxLength < length then .error invalidStringLength else .ok (chain, length)

/-- `njs_array_prototype_join` for an array; no separator is undefined. -/
def njsArrayPrototypeJoin (this : List Element) (separator : Option StringProp) :
    Except Thrown StringProp :=
  let separator := separator.getD ⟨lit ",", 1⟩
  if this.length = 0 then .ok ⟨[], 0⟩
  else
    match this.foldlM (joinStep separator) (some [], 0) with
    | .error thrown => .error thrown
    | .ok (chain, length) =>
      match njsChbDrop separator.start.length chain with
      | none => .error invalidStringLength
      | some s => njsStringAlloc s (length - separator.length)

/-! ### Pieces -/

/-- What is said of a string and a separator. -/
structure SplitsAndJoins (text sep : List Char) : Prop where
  join : njsArrayPrototypeJoin ((njsStringPrototypeSplit (ofText text) (some (ofText sep)) none).map
    .string) (some (ofText sep)) = .ok (ofText text)
  not_contains : sep ≠ [] → ∀ s ∈ njsStringPrototypeSplit (ofText text) (some (ofText sep)) none,
      ∃ piece, s = ofText piece ∧ ¬sep <:+: piece
  single : sep = [] →
    ∀ s ∈ njsStringPrototypeSplit (ofText text) (some (ofText sep)) none, ∃ c, s = ofText [c]
  limit : ∀ limit : Number, njsStringPrototypeSplit (ofText text) (some (ofText sep)) (some limit) =
    (njsStringPrototypeSplit (ofText text) (some (ofText sep)) none).take (njsNumberToUint32 limit)

variable {text sep : List Char} {utf8 : Bool} {i : ℕ}

theorem splitScan_eq (string split : Bytes) {passes p : ℕ} (hp : p ≤ string.length)
    (hpasses : string.length < p + passes) :
    splitScan string split passes p =
      ((string.drop p).dropInfix? split).elim string.length fun q => p + q.1.length := by
  induction passes generalizing p with
  | zero => omega
  | succ passes ih =>
    have hslice : slice string p split.length = split ↔ split <+: string.drop p := by
      rw [slice, List.prefix_iff_eq_take]
      exact eq_comm
    rw [splitScan]
    split_ifs with hroom hhere
    · rw [dropInfix?_of_begins (hslice.1 hhere)]
      rfl
    · have hnot : ¬split <+: string.drop p := fun h => hhere (hslice.2 h)
      have hlt : p < string.length := by
        refine Nat.lt_of_le_of_ne hp ?_
        rintro rfl
        obtain rfl := List.eq_nil_of_length_eq_zero (l := split) (by omega)
        exact hnot List.nil_prefix
      rw [ih hlt (by omega)]
      rw [← List.getElem_cons_drop (h := hlt)] at hnot ⊢
      rw [dropInfix?_cons hnot]
      rcases (string.drop (p + 1)).dropInfix? split with _ | q
      · rfl
      · exact (Nat.add_assoc p 1 _).trans (congrArg (p + ·) (Nat.add_comm 1 _))
    · have hnone : (string.drop p).dropInfix? split = none := by
        refine dropInfix?_eq_none_iff.2 fun l r h => hroom ?_
        have hlength := congrArg List.length h
        rw [List.length_drop, List.length_append, List.length_append] at hlength
        omega
      rw [hnone]
      rfl

theorem splitScan_offset (hsep : sep ≠ []) (hi : i ≤ text.length) :
    splitScan (bytes text) (bytes sep) ((bytes text).length + 1) (offset text i) =
      ((text.drop i).dropInfix? sep).elim (bytes text).length
        fun q => offset text (i + q.1.length) := by
  have hle := offset_mono hi (Nat.le_refl text.length)
  rw [offset_length] at hle
  rw [splitScan_eq _ _ (by omega) (by omega), drop_offset, dropInfix?_bytes hsep]
  rcases hfirst : (text.drop i).dropInfix? sep with _ | ⟨l, r⟩
  · rfl
  · exact (occursAt hi hfirst).offset_eq.symm

theorem piece_eq (hutf8 : utf8 = false → ∀ c ∈ text, c.toNat < 0x80) (i k : ℕ) :
    (⟨slice (bytes text) (offset text i) (offset text (i + k) - offset text i),
      njsStringCalcLength utf8 (slice (bytes text) (offset text i)
        (offset text (i + k) - offset text i))⟩ : StringProp) = ofText ((text.drop i).take k) := by
  rw [offset_add, Nat.add_sub_cancel_left, slice_bytes, njsStringCalcLength_eq]
  · rfl
  · exact fun h c hc => hutf8 h c (List.mem_of_mem_drop (List.mem_of_mem_take hc))

theorem splitNext_of_ne_nil {split : Bytes} (hsplit : 0 < split.length) (string : Bytes) (p : ℕ) :
    splitNext string split utf8 p = (p, p + split.length) := if_neg (by omega)

theorem splitNext_nil (hutf8 : utf8 = false → ∀ c ∈ text, c.toNat < 0x80) (hi : i < text.length) :
    splitNext (bytes text) [] utf8 (offset text i) =
      (offset text (i + 1), offset text (i + 1)) := by
  have hnext : (if utf8 then njsUtf8Next (bytes text) (offset text i) else offset text i + 1) =
      offset text (i + 1) := by
    obtain _ | _ := utf8
    · have hascii := (length_bytes_eq_iff text).2 (hutf8 rfl)
      rw [offset_ascii hascii hi, offset_ascii hascii (Nat.le_of_lt hi)]
      rfl
    · exact njsUtf8Next_offset hi
  rw [← hnext]
  exact if_pos rfl

theorem splitLoop_pieces (hsep : sep ≠ []) (hutf8 : utf8 = false → ∀ c ∈ text, c.toNat < 0x80)
    {passes : ℕ} (hi : i ≤ text.length) (hpasses : text.length < i + passes) :
    ∃ pieces, Pieces sep (text.drop i) pieces ∧ ∀ limit ≠ 0,
      splitLoop (bytes text) (bytes sep) utf8 passes limit (offset text i) =
        (pieces.take limit).map ofText := by
  induction passes generalizing i with
  | zero => omega
  | succ passes ih =>
    have hscan := splitScan_offset hsep hi
    have hpos := List.length_pos_iff.2 hsep
    have hsize := length_le_bytes sep
    have hlength := List.length_drop (i := i) (l := text)
    rcases hfirst : (text.drop i).dropInfix? sep with _ | ⟨l, r⟩
    · rw [hfirst] at hscan
      refine ⟨[text.drop i], .last hfirst, fun limit hlimit => ?_⟩
      have hpiece := piece_eq hutf8 i (text.length - i)
      rw [Nat.add_sub_cancel' hi, offset_length, ← hlength, List.take_length] at hpiece
      rw [splitLoop]
      simp only [hscan, Option.elim_none, splitNext_of_ne_nil (Nat.lt_of_lt_of_le hpos hsize)]
      rw [hpiece, if_neg fun h => Nat.lt_irrefl _ h.2, List.take_of_length_le]
      · rfl
      · exact Nat.one_le_iff_ne_zero.2 hlimit
    obtain hat := occursAt hi hfirst
    rw [hfirst] at hscan
    have hlength' := hat.length_eq
    obtain ⟨pieces, hpieces, heq⟩ := ih (i := i + l.length + sep.length) (by omega) (by omega)
    rw [hat.rest_eq] at hpieces
    have hend := offset_mono (show i + l.length + sep.length ≤ text.length by omega)
      (Nat.le_refl text.length)
    rw [offset_length, hat.next_eq] at hend
    have hpiece := piece_eq hutf8 i l.length
    rw [hat.take_eq] at hpiece
    refine ⟨l :: pieces, .piece hfirst hpieces, fun limit hlimit => ?_⟩
    rw [splitLoop]
    simp only [hscan, Option.elim_some, splitNext_of_ne_nil (Nat.lt_of_lt_of_le hpos hsize)]
    rw [hpiece, ← hat.next_eq]
    obtain ⟨limit, rfl⟩ := Nat.exists_eq_succ_of_ne_zero hlimit
    rw [Nat.succ_sub_one, List.take_succ_cons, List.map_cons]
    by_cases hmore : limit = 0
    · rw [if_neg fun h => h.1 hmore, hmore, List.take_zero, List.map_nil]
    · rw [if_pos ⟨hmore, by omega⟩, heq limit hmore]

theorem splitLoop_characters (hutf8 : utf8 = false → ∀ c ∈ text, c.toNat < 0x80)
    {passes : ℕ} (hi : i < text.length) (hpasses : text.length < i + passes) {limit : ℕ}
    (hlimit : limit ≠ 0) :
    splitLoop (bytes text) [] utf8 passes limit (offset text i) =
      (((text.drop i).map fun c => [c]).take limit).map ofText := by
  induction passes generalizing i limit with
  | zero => omega
  | succ passes ih =>
    have hle := offset_mono (Nat.le_of_lt hi) (Nat.le_refl text.length)
    rw [offset_length] at hle
    have hscan := splitScan_eq (bytes text) []
      (show offset text i ≤ (bytes text).length by omega)
      (show (bytes text).length < offset text i + ((bytes text).length + 1) by omega)
    rw [List.dropInfix?_nil] at hscan
    have hpiece := piece_eq hutf8 i 1
    have hdrop := List.getElem_cons_drop (h := hi)
    rw [← hdrop, List.take_succ_cons, List.take_zero] at hpiece
    obtain ⟨limit, rfl⟩ := Nat.exists_eq_succ_of_ne_zero hlimit
    rw [splitLoop]
    simp only [hscan, Option.elim_some, List.length_nil, Nat.add_zero, splitNext_nil hutf8 hi]
    rw [hpiece, ← hdrop, Nat.succ_sub_one, List.map_cons, List.take_succ_cons, List.map_cons]
    congr 1
    by_cases hmore : limit = 0
    · rw [if_neg fun h => h.1 hmore, hmore, List.take_zero, List.map_nil]
    by_cases hlt : i + 1 < text.length
    · have hend := offset_mono (Nat.le_of_lt hlt) (Nat.le_refl text.length)
      rw [offset_length] at hend
      rw [if_pos ⟨hmore, by omega⟩, ih hlt (by omega) hmore]
    · obtain hlast : i + 1 = text.length := by omega
      rw [hlast, offset_length, if_neg fun h => Nat.lt_irrefl _ h.2, List.drop_length,
        List.map_nil, List.take_nil, List.map_nil]

theorem ascii_of_splitUtf8 (h : splitUtf8 (ofText text) = false) : ∀ c ∈ text, c.toNat < 0x80 := by
  rw [splitUtf8, Bool.and_eq_false_iff, Bool.not_eq_false'] at h
  obtain hzero | hascii := h
  · obtain rfl := List.eq_nil_of_length_eq_zero (not_not.1 (of_decide_eq_false hzero))
    exact fun c hc => absurd hc List.not_mem_nil
  · exact (njsIsAsciiString_iff text).1 hascii

/-- The elements that `split` makes. -/
theorem njsStringPrototypeSplit_eq (text sep : List Char) :
    ∃ pieces, (sep ≠ [] → Pieces sep text pieces) ∧ (sep = [] → pieces = text.map fun c => [c]) ∧
      ∀ limit, njsStringPrototypeSplit (ofText text) (some (ofText sep)) limit =
        (pieces.take (limit.elim 0xffffffff njsNumberToUint32)).map ofText := by
  have hutf8 := @ascii_of_splitUtf8 text
  have hle := length_le_bytes text
  -- The first position is the offset of the first character.
  have hrun : ∀ pieces, (text ≠ [] → ∀ limit ≠ 0,
      splitLoop (bytes text) (bytes sep) (splitUtf8 (ofText text)) ((bytes text).length + 1) limit
        0 = (pieces.take limit).map ofText) →
      (text = [] → pieces = if sep = [] then [] else [[]]) →
      ∀ limit, njsStringPrototypeSplit (ofText text) (some (ofText sep)) limit =
        (pieces.take (limit.elim 0xffffffff njsNumberToUint32)).map ofText := by
    intro pieces hloop hnil limit
    rw [njsStringPrototypeSplit]
    generalize limit.elim 0xffffffff njsNumberToUint32 = n
    split_ifs with hn hempty hsep
    · rw [hn, List.take_zero, List.map_nil]
    · obtain rfl := bytes_eq_nil_iff.1 (List.eq_nil_of_length_eq_zero hempty)
      have hne : sep ≠ [] := by
        rintro rfl
        exact hsep rfl
      rw [hnil rfl, if_neg hne, List.take_of_length_le (Nat.one_le_iff_ne_zero.2 hn)]
      rfl
    · obtain rfl := bytes_eq_nil_iff.1 (List.eq_nil_of_length_eq_zero hempty)
      obtain rfl := bytes_eq_nil_iff.1 (List.eq_nil_of_length_eq_zero (not_not.1 hsep))
      rw [hnil rfl, if_pos rfl, List.take_nil]
      rfl
    · refine hloop ?_ n hn
      rintro rfl
      exact hempty rfl
  by_cases hsep : sep = []
  · refine ⟨text.map fun c => [c], fun h => absurd hsep h, fun _ => rfl, hrun _ ?_ ?_⟩
    · subst hsep
      exact fun hne limit hlimit => splitLoop_characters hutf8 (List.length_pos_iff.2 hne)
        (by omega) hlimit
    · rintro rfl
      rw [if_pos hsep, List.map_nil]
  obtain ⟨pieces, hpieces, hloop⟩ := splitLoop_pieces hsep hutf8 (Nat.zero_le text.length)
    (show text.length < 0 + ((bytes text).length + 1) by omega)
  refine ⟨pieces, fun _ => hpieces, fun h => absurd h hsep, hrun pieces (fun _ => hloop) ?_⟩
  rintro rfl
  have hnone : ([] : List Char).dropInfix? sep = none := by
    refine dropInfix?_eq_none_iff.2 fun l r h => hsep ?_
    exact (List.append_eq_nil_iff.1 (List.append_eq_nil_iff.1 h.symm).1).2
  rw [if_neg hsep]
  cases hpieces with
  | last h => rfl
  | piece h hrest => exact absurd (hnone.symm.trans h) (Option.some_ne_none _).symm

/-! ### Joining -/

theorem joinStep_chainOf (t piece sep : List Char) :
    joinStep (ofText sep) (chainOf t, t.length) (.string (ofText piece)) =
      if njsStringMaxLength < (t ++ (piece ++ sep)).length then .error invalidStringLength
      else .ok (chainOf (t ++ (piece ++ sep)), (t ++ (piece ++ sep)).length) := by
  have hlength : (t ++ (piece ++ sep)).length = t.length + piece.length + sep.length := by
    rw [List.length_append, List.length_append, Nat.add_assoc]
  rw [hlength, ← List.append_assoc, ← njsChbAppend_chainOf, ← njsChbAppend_chainOf]
  rfl

theorem foldlM_joinStep (t sep : List Char) (pieces : List (List Char)) :
    let all := t ++ pieces.flatMap (· ++ sep)
    (pieces.map fun p => Element.string (ofText p)).foldlM (joinStep (ofText sep))
        (chainOf t, t.length) = .ok (chainOf all, all.length) ∨
      (pieces.map fun p => Element.string (ofText p)).foldlM (joinStep (ofText sep))
        (chainOf t, t.length) = .error invalidStringLength ∧
        njsStringMaxLength < (bytes all).length := by
  induction pieces generalizing t with
  | nil => exact .inl (by rw [List.flatMap_nil, List.append_nil]; rfl)
  | cons piece pieces ih =>
    have hall : t ++ (piece ++ sep ++ pieces.flatMap (· ++ sep)) =
        t ++ (piece ++ sep) ++ pieces.flatMap (· ++ sep) := (List.append_assoc _ _ _).symm
    rw [List.map_cons, List.foldlM_cons, joinStep_chainOf, List.flatMap_cons, hall]
    split_ifs with hlong
    · refine .inr ⟨rfl, ?_⟩
      have hle := length_le_bytes (t ++ (piece ++ sep))
      exact njsStringMaxLength_lt _ (by omega) (List.prefix_append _ _).isInfix
    · exact ih (t ++ (piece ++ sep))

/-- The string that `join` makes of pieces. -/
theorem njsArrayPrototypeJoin_eq {text sep : List Char} {pieces : List (List Char)}
    (hne : pieces ≠ []) (htext : pieces.flatMap (· ++ sep) = text ++ sep) :
    njsArrayPrototypeJoin (pieces.map fun p => .string (ofText p)) (some (ofText sep)) =
      if njsStringMaxLength < (bytes (text ++ sep)).length then .error invalidStringLength
      else .ok (ofText text) := by
  have hloop := foldlM_joinStep [] sep pieces
  have hlength : (pieces.map fun p => Element.string (ofText p)).length ≠ 0 := by
    rw [List.length_map]
    exact fun h => hne (List.eq_nil_of_length_eq_zero h)
  rw [List.nil_append, htext] at hloop
  rw [njsArrayPrototypeJoin, Option.getD_some, if_neg hlength]
  obtain hok | ⟨herror, hlong⟩ := hloop
  · change List.foldlM _ (some [], 0) _ = _ at hok
    rw [hok]
    by_cases hlong : njsStringMaxLength < (bytes (text ++ sep)).length
    · rw [if_pos hlong, chainOf, if_pos hlong]
      rfl
    have hdrop : njsChbDrop (bytes sep).length (some (bytes (text ++ sep))) =
        some (bytes text) := by
      rw [njsChbDrop, Option.map_some, bytes_append, List.length_append, Nat.add_sub_cancel,
        List.take_left]
    have halloc : njsStringAlloc (bytes text) ((text ++ sep).length - sep.length) =
        .ok (ofText text) := by
      rw [bytes_append, List.length_append] at hlong
      rw [njsStringAlloc, if_neg (by omega), List.length_append, Nat.add_sub_cancel]
      rfl
    rw [if_neg hlong, chainOf, if_neg hlong, ← halloc]
    dsimp only [ofText]
    rw [hdrop]
  · change List.foldlM _ (some [], 0) _ = _ at herror
    rw [herror, if_pos hlong]

theorem length_le_of_alloc {start : Bytes} {length : ℕ} {s : StringProp}
    (h : njsStringAlloc start length = .ok s) : s.start.length ≤ njsStringMaxLength := by
  rw [njsStringAlloc] at h
  split_ifs at h with hlong
  rw [← Except.ok.inj h]
  exact Nat.not_lt.1 hlong

theorem length_le_of_join {this : List Element} {separator : Option StringProp} {s : StringProp}
    (h : njsArrayPrototypeJoin this separator = .ok s) : s.start.length ≤ njsStringMaxLength := by
  rw [njsArrayPrototypeJoin] at h
  split_ifs at h with hempty
  · rw [← Except.ok.inj h]
    exact Nat.zero_le _
  rcases hloop : this.foldlM (joinStep (separator.getD ⟨lit ",", 1⟩)) (some [], 0) with
    thrown | ⟨chain, length⟩
  · rw [hloop] at h
    cases h
  rw [hloop] at h
  dsimp only at h
  rcases hdrop : njsChbDrop (separator.getD ⟨lit ",", 1⟩).start.length chain with _ | bytes
  · rw [hdrop] at h
    cases h
  · rw [hdrop] at h
    exact length_le_of_alloc h

theorem exists_pieces {text : List Char} (hsize : (bytes text).length ≤ njsStringMaxLength)
    (sep : List Char) : ∃ pieces, (sep ≠ [] → Pieces sep text pieces) ∧
      (sep = [] → pieces = text.map fun c => [c]) ∧
      njsStringPrototypeSplit (ofText text) (some (ofText sep)) none = pieces.map ofText ∧
      (∀ limit : Number, njsStringPrototypeSplit (ofText text) (some (ofText sep)) (some limit) =
        (pieces.take (njsNumberToUint32 limit)).map ofText) ∧
      njsArrayPrototypeJoin (pieces.map fun p => .string (ofText p)) (some (ofText sep)) =
        if njsStringMaxLength < (bytes text).length + (bytes sep).length
          then .error invalidStringLength else .ok (ofText text) := by
  obtain ⟨pieces, hpieces, hsingle, hsplit⟩ := njsStringPrototypeSplit_eq text sep
  have hlength : pieces.length ≤ text.length + 1 := by
    by_cases hsep : sep = []
    · rw [hsingle hsep, List.length_map]
      exact Nat.le_succ _
    · exact (hpieces hsep).length_le hsep
  have hle := length_le_bytes text
  have hmax : njsStringMaxLength + 1 < 0xffffffff := by decide
  have hflat : pieces.flatMap (· ++ sep) = text ++ sep := by
    by_cases hsep : sep = []
    · rw [hsingle hsep, hsep, List.append_nil, List.flatMap_map]
      simp
    · exact (hpieces hsep).flatMap_append
  refine ⟨pieces, hpieces, hsingle, ?_, fun limit => hsplit (some limit), ?_⟩
  · rw [hsplit, Option.elim_none, List.take_of_length_le (by omega)]
  by_cases hne : pieces = []
  · rw [hne, List.flatMap_nil] at hflat
    obtain ⟨rfl, rfl⟩ := List.append_eq_nil_iff.1 hflat.symm
    rw [hne]
    rfl
  · rw [njsArrayPrototypeJoin_eq hne hflat, bytes_append, List.length_append]

theorem SplitsAndJoins.le (h : SplitsAndJoins text sep) :
    (bytes text).length + (bytes sep).length ≤ njsStringMaxLength := by
  have hjoin := h.join
  obtain ⟨pieces, -, -, hall, -, heq⟩ := exists_pieces (length_le_of_join hjoin) sep
  rw [hall, List.map_map] at hjoin
  by_contra hlong
  rw [if_pos (Nat.not_le.1 hlong)] at heq
  exact absurd (heq.symm.trans hjoin) fun h => by cases h

/-- A string of the greatest length is not given back. -/
theorem not_splitsAndJoins : ¬SplitsAndJoins (List.replicate njsStringMaxLength 'a') [','] := by
  intro h
  have hle := length_le_bytes (List.replicate njsStringMaxLength 'a')
  have hfit := h.le
  have hone : (bytes [',']).length = 1 := rfl
  rw [List.length_replicate] at hle
  omega

/-- A string and one more separator have to fit in a string, and nothing else can go wrong. -/
theorem splitsAndJoins_iff (text sep : List Char) : SplitsAndJoins text sep ↔
      (bytes text).length + (bytes sep).length ≤ njsStringMaxLength := by
  refine ⟨SplitsAndJoins.le, fun h => ?_⟩
  obtain ⟨pieces, hpieces, hsingle, hall, hlimit, hjoin⟩ :=
    exists_pieces (show (bytes text).length ≤ njsStringMaxLength by omega) sep
  refine ⟨?_, fun hsep s hs => ?_, fun hsep s hs => ?_, fun limit => ?_⟩
  · rw [hall, List.map_map]
    exact hjoin.trans (if_neg (Nat.not_lt.2 h))
  · rw [hall, List.mem_map] at hs
    obtain ⟨piece, hpiece, rfl⟩ := hs
    exact ⟨piece, rfl, (hpieces hsep).not_contains hsep piece hpiece⟩
  · rw [hall, hsingle hsep, List.map_map, List.mem_map] at hs
    obtain ⟨c, -, rfl⟩ := hs
    exact ⟨c, rfl⟩
  · rw [hall, hlimit, List.map_take]

end Njs.Strings
