import Njs.Strings.StringProp

/-!
# Global matches

The matches of a global pattern are looked for in what is left of the string, which is a subject of
its own, and not from a position of the whole string on.
-/

namespace Njs.Strings

open Text
open Indices (bytes offset slice njsUtf8Next njsUtf8Next_offset offset_zero offset_ascii
  offset_mono)
open Relation (ReflTransGen)

/-! ### The code -/

/-- `njs_regexp_match`: the bounds of the first match in a subject from an offset on, or none if
there is no match. -/
abbrev Matcher : Type := Bytes → ℕ → Option (ℕ × ℕ)

/-- A call of `njs_string_new` for a part of a string. -/
structure NewString where
  start : ℕ
  size : ℕ
  length : ℕ
  deriving DecidableEq

def njsStringNew (string : StringProp) (call : NewString) : StringProp :=
  ⟨slice string.start call.start call.size, call.length⟩

/-- The loop of `njs_string_match_multiple`, with the position of what is left. -/
def matchLoop (njsRegexpMatch : Matcher) (utf8 : Bool) : ℕ → ℕ → Bytes → List NewString
  | 0, _, _ => []
  | passes + 1, pos, p =>
    match njsRegexpMatch p 0 with
    | none => []
    | some (c0, c1) =>
      let start := p.drop c0
      if c1 = 0 then
        ⟨pos + c0, 0, 0⟩ :: if start ≠ [] then
            let next := if utf8 then njsUtf8Next start 0 else 1
            matchLoop njsRegexpMatch utf8 passes (pos + c0 + next) (start.drop next)
          else []
      else
        let size := c1 - c0
        ⟨pos + c0, size, njsStringCalcLength utf8 (start.take size)⟩ ::
          matchLoop njsRegexpMatch utf8 passes (pos + c1) (p.drop c1)

/-- `njs_string_match_multiple`, with the code of the pattern for each type. A pass goes on by at
least a byte. -/
def njsStringMatchMultiple (regex : Bool → Option Matcher) (string : StringProp) :
    Option (List NewString) :=
  let type : Bool := string.length ≠ 0
  let utf8 := type && !string.njsIsAsciiString
  (regex type).map fun njsRegexpMatch =>
    matchLoop njsRegexpMatch utf8 (string.start.length + 2) 0 string.start

/-! ### Regular expressions -/

/-- A regular expression: the first match in a text from a character on. -/
structure Regex where
  find : List Char → ℕ → Option (ℕ × ℕ)
  bounds : ∀ {text : List Char} {o c0 c1 : ℕ}, find text o = some (c0, c1) →
    o ≤ c0 ∧ c0 ≤ c1 ∧ c1 ≤ text.length

/-- The code of a pattern finds the matches of a regular expression. -/
def Implements (regex : Bool → Option Matcher) (r : Regex) : Prop :=
  ∀ type, ∃ njsRegexpMatch, regex type = some njsRegexpMatch ∧ ∀ text o, o ≤ text.length →
    njsRegexpMatch (bytes text) (offset text o) =
      (r.find text o).map fun c => (offset text c.1, offset text c.2)

namespace Regex

variable (r : Regex) (text : List Char)

/-- `exec` of a global regular expression, with its `lastIndex`. -/
def exec (lastIndex : ℕ) : Option (ℕ × ℕ) :=
  if text.length < lastIndex then none else r.find text lastIndex

/-- The next `lastIndex`, behind one more character if the match is empty. -/
def advance (c : ℕ × ℕ) : ℕ := if c.1 = c.2 then c.2 + 1 else c.2

/-- The matches of repeated `exec`. -/
def execAll : ℕ → ℕ → List (ℕ × ℕ)
  | 0, _ => []
  | passes + 1, lastIndex =>
    match r.exec text lastIndex with
    | none => []
    | some c => c :: execAll passes (advance c)

/-- The first match in what is left of a text, taken as a text of its own. -/
def rest (pos : ℕ) : Option (ℕ × ℕ) :=
  if text.length < pos then none
  else (r.find (text.drop pos) 0).map fun c => (pos + c.1, pos + c.2)

/-- What is left is behind a match, or behind one more character if the match ends where it was
looked for. -/
def skip (pos : ℕ) (c : ℕ × ℕ) : ℕ := if c.2 = pos then pos + 1 else c.2

/-- The matches in what is left of a text. -/
def restAll : ℕ → ℕ → List (ℕ × ℕ)
  | 0, _ => []
  | passes + 1, pos =>
    match r.rest text pos with
    | none => []
    | some c => c :: restAll passes (skip pos c)

/-- A match of `exec`, with the position of what is left and `lastIndex` before it and behind it. -/
def Next (before behind : ℕ × ℕ) : Prop :=
  ∃ c, r.exec text before.2 = some c ∧ behind = (skip before.1 c, advance c)

/-- For each repeated `exec`, the match in what is left is that of the whole text. -/
def SeesWhole : Prop :=
  ∀ at' : ℕ × ℕ, ReflTransGen (r.Next text) (0, 0) at' → r.rest text at'.1 = r.exec text at'.2

variable {r text}

theorem exec_bounds {lastIndex : ℕ} {c : ℕ × ℕ} (h : r.exec text lastIndex = some c) :
    lastIndex ≤ c.1 ∧ c.1 ≤ c.2 ∧ c.2 ≤ text.length := by
  rw [exec, Option.ite_none_left_eq_some] at h
  exact r.bounds h.2

variable {pos : ℕ}

theorem rest_bounds {c : ℕ × ℕ} (h : r.rest text pos = some c) :
    pos ≤ c.1 ∧ c.1 ≤ c.2 ∧ c.2 ≤ text.length := by
  rw [rest, Option.ite_none_left_eq_some, Option.map_eq_some_iff] at h
  obtain ⟨hpos, c', hc', rfl⟩ := h
  have := r.bounds hc'
  rw [List.length_drop] at this
  dsimp only
  omega

theorem lt_skip {c : ℕ × ℕ} (h : pos ≤ c.1 ∧ c.1 ≤ c.2 ∧ c.2 ≤ text.length) : pos < skip pos c := by
  rw [skip]
  split_ifs
  · exact Nat.lt_succ_self pos
  · omega

theorem restAll_eq_nil (hpos : text.length < pos) (passes : ℕ) :
    r.restAll text passes pos = [] := by
  cases passes with
  | zero => rfl
  | succ passes =>
    have hrest : r.rest text pos = none := if_pos hpos
    rw [restAll, hrest]

theorem restAll_passes {passes passes' : ℕ} (h : text.length < pos + passes)
    (hle : passes ≤ passes') : r.restAll text passes' pos = r.restAll text passes pos := by
  induction passes generalizing passes' pos with
  | zero => exact restAll_eq_nil h passes'
  | succ passes ih =>
    obtain ⟨k, rfl⟩ : ∃ k, passes' = k + 1 := ⟨passes' - 1, by omega⟩
    rw [restAll, restAll]
    cases hrest : r.rest text pos with
    | none => rfl
    | some c =>
      have hbounds := rest_bounds hrest
      have hskip := lt_skip hbounds
      exact congrArg (c :: ·) (ih (by omega) (Nat.le_of_succ_le_succ hle))

theorem bounds_of_mem_restAll {passes : ℕ} :
    ∀ c ∈ r.restAll text passes pos, c.1 ≤ c.2 ∧ c.2 ≤ text.length := by
  induction passes generalizing pos with
  | zero => exact fun c hc => absurd hc List.not_mem_nil
  | succ passes ih =>
    rw [restAll]
    cases hrest : r.rest text pos with
    | none => exact fun c hc => absurd hc List.not_mem_nil
    | some c => exact List.forall_mem_cons.2 ⟨(rest_bounds hrest).2, ih⟩

theorem bounds_of_mem_execAll {passes lastIndex : ℕ} :
    ∀ c ∈ r.execAll text passes lastIndex, c.1 ≤ c.2 ∧ c.2 ≤ text.length := by
  induction passes generalizing lastIndex with
  | zero => exact fun c hc => absurd hc List.not_mem_nil
  | succ passes ih =>
    rw [execAll]
    cases hexec : r.exec text lastIndex with
    | none => exact fun c hc => absurd hc List.not_mem_nil
    | some c => exact List.forall_mem_cons.2 ⟨(exec_bounds hexec).2, ih⟩

theorem head?_restAll (passes pos : ℕ) :
    (r.restAll text (passes + 1) pos).head? = r.rest text pos := by
  rw [restAll]
  cases r.rest text pos with
  | none => rfl
  | some c => rfl

theorem head?_execAll (passes lastIndex : ℕ) :
    (r.execAll text (passes + 1) lastIndex).head? = r.exec text lastIndex := by
  rw [execAll]
  cases r.exec text lastIndex with
  | none => rfl
  | some c => rfl

theorem restAll_eq_execAll_iff {passes pos lastIndex : ℕ} (hpos : text.length < pos + passes)
    (hlast : text.length < lastIndex + passes) :
    r.restAll text passes pos = r.execAll text passes lastIndex ↔
      ∀ at' : ℕ × ℕ, ReflTransGen (r.Next text) (pos, lastIndex) at' →
        r.rest text at'.1 = r.exec text at'.2 := by
  induction passes generalizing pos lastIndex with
  | zero =>
    have hrest : r.rest text pos = none := if_pos hpos
    have hexec : r.exec text lastIndex = none := if_pos hlast
    refine iff_of_true rfl fun at' h => ?_
    obtain rfl | ⟨behind, ⟨c, hc, -⟩, -⟩ := h.cases_head
    · exact hrest.trans hexec.symm
    · rw [hexec] at hc
      exact absurd hc (Option.some_ne_none c).symm
  | succ passes ih =>
    by_cases heq : r.rest text pos = r.exec text lastIndex
    · cases hexec : r.exec text lastIndex with
      | none =>
        have hrest := heq.trans hexec
        rw [restAll, execAll, hrest, hexec]
        refine iff_of_true rfl fun at' h => ?_
        obtain rfl | ⟨behind, ⟨c, hc, -⟩, -⟩ := h.cases_head
        · exact heq
        · rw [hexec] at hc
          exact absurd hc (Option.some_ne_none c).symm
      | some c =>
        have hrest := heq.trans hexec
        have hbounds := exec_bounds hexec
        have hbounds' := rest_bounds hrest
        have hskip := lt_skip hbounds'
        have hadvance : lastIndex + 1 ≤ advance c := by
          rw [advance]
          split_ifs
          · omega
          · omega
        rw [restAll, execAll, hrest, hexec]
        dsimp only
        rw [List.cons_eq_cons, and_iff_right rfl, ih (by omega) (by omega)]
        constructor
        · intro h at' hreach
          obtain rfl | ⟨behind, ⟨c', hc', rfl⟩, hreach⟩ := hreach.cases_head
          · exact heq
          · obtain rfl := Option.some.inj (hexec.symm.trans hc')
            exact h at' hreach
        · intro h at' hreach
          exact h at' (hreach.head ⟨c, hexec, rfl⟩)
    · refine iff_of_false (fun hlists => heq ?_) fun h => heq (h (pos, lastIndex) .refl)
      rw [← head?_restAll passes, ← head?_execAll passes, hlists]

end Regex

/-! ### The loop -/

variable {regex : Bool → Option Matcher} {r : Regex} {text : List Char}

def callOf (text : List Char) (c : ℕ × ℕ) : NewString :=
  ⟨offset text c.1, offset text c.2 - offset text c.1, c.2 - c.1⟩

theorem njsStringNew_callOf {c : ℕ × ℕ} (h : c.1 ≤ c.2 ∧ c.2 ≤ text.length) :
    njsStringNew (ofText text) (callOf text c) = ofText ((text.drop c.1).take (c.2 - c.1)) := by
  have hend : c.2 = c.1 + (c.2 - c.1) := by omega
  have hsize : offset text c.2 - offset text c.1 = offset (text.drop c.1) (c.2 - c.1) := by
    conv_lhs => rw [hend, offset_add]
    exact Nat.add_sub_cancel_left _ _
  ext
  · rw [njsStringNew, callOf, ofText]
    dsimp only
    rw [hsize, slice_bytes]
    rfl
  · have hlength : ((text.drop c.1).take (c.2 - c.1)).length = c.2 - c.1 := by
      rw [List.length_take, List.length_drop]
      omega
    exact hlength.symm

theorem offset_injective {i j : ℕ} (hi : i ≤ text.length) (hj : j ≤ text.length)
    (h : offset text i = offset text j) : i = j := by
  obtain hlt | heq | hlt := Nat.lt_trichotomy i j
  · have := offset_mono (Nat.le_of_lt hlt) hj
    omega
  · exact heq
  · have := offset_mono (Nat.le_of_lt hlt) hi
    omega

theorem map_callOf_inj {l l' : List (ℕ × ℕ)} (hl : ∀ c ∈ l, c.1 ≤ c.2 ∧ c.2 ≤ text.length)
    (hl' : ∀ c ∈ l', c.1 ≤ c.2 ∧ c.2 ≤ text.length) :
    l.map (callOf text) = l'.map (callOf text) ↔ l = l' := by
  refine ⟨fun h => ?_, congrArg _⟩
  induction l generalizing l' with
  | nil => exact (List.map_eq_nil_iff.1 h.symm).symm
  | cons c l ih =>
    obtain ⟨c', l', rfl⟩ := List.exists_cons_of_ne_nil (l := l') (by
      rintro rfl
      exact absurd h (List.cons_ne_nil _ _))
    obtain ⟨hc, hl⟩ := List.forall_mem_cons.1 hl
    obtain ⟨hc', hl'⟩ := List.forall_mem_cons.1 hl'
    obtain ⟨hcall, htail⟩ := List.cons.inj h
    have hstart : c.1 = c'.1 := offset_injective (by omega) (by omega)
      (congrArg NewString.start hcall)
    have hlength : c.2 - c.1 = c'.2 - c'.1 := congrArg NewString.length hcall
    rw [ih hl hl' htail, Prod.ext hstart (by omega)]

theorem next_eq {utf8 : Bool} (hutf8 : utf8 = false → ∀ c ∈ text, c.toNat < 0x80)
    (hne : text ≠ []) : (if utf8 then njsUtf8Next (bytes text) 0 else 1) = offset text 1 := by
  have hpos := List.length_pos_iff.2 hne
  cases utf8 with
  | true =>
    have hnext := njsUtf8Next_offset hpos
    rwa [offset_zero] at hnext
  | false => exact (offset_ascii ((length_bytes_eq_iff text).2 (hutf8 rfl)) hpos).symm

theorem matchLoop_eq {njsRegexpMatch : Matcher} (h : ∀ text o, o ≤ text.length →
      njsRegexpMatch (bytes text) (offset text o) =
        (r.find text o).map fun c => (offset text c.1, offset text c.2))
    {utf8 : Bool} (hutf8 : utf8 = false → ∀ c ∈ text, c.toNat < 0x80) {passes pos : ℕ}
    (hpos : pos ≤ text.length) :
    matchLoop njsRegexpMatch utf8 passes (offset text pos) (bytes (text.drop pos)) =
      (r.restAll text passes pos).map (callOf text) := by
  induction passes generalizing pos with
  | zero => rfl
  | succ passes ih =>
    have hmatch := h (text.drop pos) 0 (Nat.zero_le _)
    rw [offset_zero] at hmatch
    rw [matchLoop, Regex.restAll, Regex.rest, if_neg (Nat.not_lt.2 hpos), hmatch]
    cases hfind : r.find (text.drop pos) 0 with
    | none => rfl
    | some c =>
      have hbounds := r.bounds hfind
      rw [List.length_drop] at hbounds
      obtain ⟨c0, c1⟩ := c
      simp only [Option.map_some, List.map_cons]
      by_cases hc1 : c1 = 0
      · subst hc1
        obtain rfl : c0 = 0 := by omega
        have hcall : callOf text (pos + 0, pos + 0) = ⟨offset text pos, 0, 0⟩ := by
          rw [callOf, Nat.sub_self, Nat.sub_self, Nat.add_zero]
        have hskip : Regex.skip pos (pos + 0, pos + 0) = pos + 1 := if_pos rfl
        rw [hcall, hskip, if_pos (offset_zero _), offset_zero, Nat.add_zero, List.drop_zero]
        congr 1
        by_cases hne : text.drop pos = []
        · have hend := List.drop_eq_nil_iff.1 hne
          have hnil : bytes (text.drop pos) = [] := bytes_eq_nil_iff.2 hne
          rw [if_neg (not_not.2 hnil), Regex.restAll_eq_nil (by omega), List.map_nil]
        have hlt : pos + 1 ≤ text.length := by
          rw [List.drop_eq_nil_iff] at hne
          omega
        have hnext := next_eq (fun hu c hc => hutf8 hu c (List.mem_of_mem_drop hc)) hne
        rw [if_pos fun hnil => hne (bytes_eq_nil_iff.1 hnil), hnext, ← offset_add, drop_offset,
          List.drop_drop]
        exact ih hlt
      · have hle := @offset_mono (text.drop pos) _ _ (Nat.zero_le c1) (by
          rw [List.length_drop]
          omega)
        have hskip : Regex.skip pos (pos + c0, pos + c1) = pos + c1 := if_neg (by
          dsimp only
          omega)
        have hsize : offset (text.drop pos) c1 - offset (text.drop pos) c0 =
            offset ((text.drop pos).drop c0) (c1 - c0) := by
          conv_lhs => rw [show c1 = c0 + (c1 - c0) by omega, offset_add]
          exact Nat.add_sub_cancel_left _ _
        have hlength : (((text.drop pos).drop c0).take (c1 - c0)).length = c1 - c0 := by
          rw [List.length_take, List.length_drop, List.length_drop]
          omega
        have hascii : utf8 = false →
            ∀ c ∈ ((text.drop pos).drop c0).take (c1 - c0), c.toNat < 0x80 := fun hu c hc =>
          hutf8 hu c (List.mem_of_mem_drop (List.mem_of_mem_drop (List.mem_of_mem_take hc)))
        have hdrop : text.drop (pos + c1) = (text.drop pos).drop c1 := List.drop_drop.symm
        rw [if_neg (by omega), hskip, ← ih (by omega), callOf, offset_add, offset_add,
          Nat.add_sub_add_left, Nat.add_sub_add_left, drop_offset, drop_offset, hdrop, hsize,
          take_offset, njsStringCalcLength_eq hascii, hlength]

theorem njsStringMatchMultiple_eq (h : Implements regex r) (text : List Char) :
    njsStringMatchMultiple regex (ofText text) =
      some ((r.restAll text ((bytes text).length + 2) 0).map (callOf text)) := by
  obtain ⟨njsRegexpMatch, hregex, hmatch⟩ := h (decide ((ofText text).length ≠ 0))
  have hutf8 : (decide ((ofText text).length ≠ 0) && !(ofText text).njsIsAsciiString) = false →
      ∀ c ∈ text, c.toNat < 0x80 := by
    intro hutf8 c hc
    rw [Bool.and_eq_false_iff, Bool.not_eq_false', decide_eq_false_iff_not, not_not] at hutf8
    obtain hzero | hascii := hutf8
    · rw [List.length_eq_zero_iff.1 hzero] at hc
      exact absurd hc List.not_mem_nil
    · exact (njsIsAsciiString_iff text).1 hascii c hc
  rw [njsStringMatchMultiple, hregex]
  exact congrArg some (matchLoop_eq hmatch hutf8 (Nat.zero_le _))

/-- The matches of a global pattern are those of repeated `exec` if for each `exec` the first match
in what is left of the string, taken as a string of its own, is that in the whole string. Then the
strings are the same, too. -/
theorem njsStringMatchMultiple_iff (h : Implements regex r) (text : List Char) :
    ∃ calls, njsStringMatchMultiple regex (ofText text) = some calls ∧
      (calls = (r.execAll text (text.length + 2) 0).map (callOf text) ↔ r.SeesWhole text) ∧
        (r.SeesWhole text → calls.map (njsStringNew (ofText text)) =
          (r.execAll text (text.length + 2) 0).map fun c =>
            ofText ((text.drop c.1).take (c.2 - c.1))) := by
  have hle := length_le_bytes text
  have hpasses : r.restAll text ((bytes text).length + 2) 0 =
      r.restAll text (text.length + 2) 0 := Regex.restAll_passes (by omega) (by omega)
  have hiff := @Regex.restAll_eq_execAll_iff r text (text.length + 2) 0 0 (by omega) (by omega)
  refine ⟨_, njsStringMatchMultiple_eq h text, ?_, fun hsees => ?_⟩
  · rw [hpasses, map_callOf_inj Regex.bounds_of_mem_restAll Regex.bounds_of_mem_execAll]
    exact hiff
  · rw [hpasses, hiff.2 hsees, List.map_map]
    refine List.map_congr_left fun c hc => ?_
    exact njsStringNew_callOf (Regex.bounds_of_mem_execAll c hc)

/-! ### A pattern with an anchor -/

/-- The match of `^a`. -/
def caretFind (text : List Char) (o : ℕ) : Option (ℕ × ℕ) :=
  if o = 0 ∧ text.head? = some 'a' then some (0, 1) else none

theorem caretFind_bounds {text : List Char} {o c0 c1 : ℕ}
    (h : caretFind text o = some (c0, c1)) : o ≤ c0 ∧ c0 ≤ c1 ∧ c1 ≤ text.length := by
  rw [caretFind, Option.ite_none_right_eq_some] at h
  obtain ⟨⟨rfl, hhead⟩, hc⟩ := h
  cases hc
  refine ⟨Nat.le_refl 0, Nat.zero_le 1, List.length_pos_iff.2 ?_⟩
  rintro rfl
  simp at hhead

/-- The regular expression `^a`. -/
def caret : Regex := ⟨caretFind, caretFind_bounds⟩

/-- The code of `^a`. -/
def caretMatch : Matcher := fun s o =>
  if o = 0 ∧ s.head? = some (chr 'a') then some (0, 1) else none

theorem head?_bytes_iff (text : List Char) :
    (bytes text).head? = some (chr 'a') ↔ text.head? = some 'a' := by
  cases text with
  | nil => simp [bytes]
  | cons c text =>
    obtain ⟨b, l, hchar, -⟩ := Indices.utf8EncodeChar_encoded c
    rw [Query.bytes_cons, hchar, List.cons_append, List.head?_cons, List.head?_cons,
      Option.some_inj, Option.some_inj, first_eq_iff (by decide) hchar]

theorem caret_implements : Implements (fun _ => some caretMatch) caret := by
  intro type
  refine ⟨caretMatch, rfl, fun text o ho => ?_⟩
  have hzero : offset text o = 0 ↔ o = 0 := by
    have := @offset_mono text _ _ (Nat.zero_le o) ho
    constructor
    · omega
    · rintro rfl
      rfl
  have hiff : offset text o = 0 ∧ (bytes text).head? = some (chr 'a') ↔
      o = 0 ∧ text.head? = some 'a' := and_congr hzero (head?_bytes_iff text)
  have hfind : caret.find text o = caretFind text o := rfl
  rw [caretMatch, hfind, caretFind, if_congr hiff rfl rfl]
  split_ifs with h
  · obtain ⟨c, text, rfl⟩ := List.exists_cons_of_ne_nil (l := text) (by
      rintro rfl
      simp at h)
    obtain rfl := Option.some.inj h.2
    rfl
  · rfl

/-- An anchor in a string of two characters. -/
theorem match_caret : ∃ calls,
    njsStringMatchMultiple (fun _ => some caretMatch) (ofText ['a', 'a']) = some calls ∧
      (calls = (caret.execAll ['a', 'a'] (['a', 'a'].length + 2) 0).map (callOf ['a', 'a']) ↔
        caret.SeesWhole ['a', 'a']) ∧
        (caret.SeesWhole ['a', 'a'] → calls.map (njsStringNew (ofText ['a', 'a'])) =
          (caret.execAll ['a', 'a'] (['a', 'a'].length + 2) 0).map fun c =>
            ofText ((['a', 'a'].drop c.1).take (c.2 - c.1))) :=
  njsStringMatchMultiple_iff caret_implements ['a', 'a']

/-- The anchor matches at the start of what is left, too. -/
theorem not_match_exec : ¬∀ text : List Char,
    (njsStringMatchMultiple (fun _ => some caretMatch) (ofText text)).map
        (·.map (njsStringNew (ofText text))) =
      some ((caret.execAll text (text.length + 2) 0).map fun c =>
        ofText ((text.drop c.1).take (c.2 - c.1))) := by
  intro h
  exact absurd (h ['a', 'a']) (by decide)

end Njs.Strings
