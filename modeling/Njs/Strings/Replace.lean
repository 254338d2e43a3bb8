import Njs.Strings.Chains
import Njs.Strings.Search

/-!
# Replacement templates

A dollar sign of a template and what is behind it refer to the match, to what is before or behind
it, or to a capture of a regular expression.
-/

namespace Njs.Strings

open Text
open Indices (bytes offset njsStringUtf8Offset njsStringUtf8Offset_eq offset_length offset_ascii)
open Query (bytes_cons bytes_append)
open Json (Chain njsChbAppend)

/-! ### The code -/

def njsStringOffset (string : StringProp) (index : ℕ) : ℕ :=
  if string.njsIsAsciiString then index
  else if index = string.length then string.start.length
  else njsStringUtf8Offset string.start index

/-- The arguments of `njs_string_get_substitution` but for the template. A group is found by its
name; it may be undefined, and its value may throw where it is converted. -/
structure Substitution where
  matched : StringProp
  string : StringProp
  pos : ℕ
  captures : List (Option StringProp)
  ncaptures : ℕ
  groups : Option (Bytes → Except Thrown (Option StringProp))

/-- What is before the next dollar sign that is not the last byte, the byte behind it, and what is
left behind that. -/
def nextDollar (p : Bytes) : Option (Bytes × UInt8 × Bytes) :=
  match p.dropWhile (· ≠ chr '$') with
  | _ :: c :: rest => some (p.takeWhile (· ≠ chr '$'), c, rest)
  | _ => none

def isCaptureDigit (c : UInt8) : Bool := chr '0' ≤ c && c ≤ chr '9'

def definedBytes (value : Option StringProp) : Bytes := (value.map StringProp.start).getD []

/-- What is appended for a dollar sign and a byte behind it, and what is left of the template. -/
def reference (s : Substitution) (c : UInt8) (rest : Bytes) : Except Thrown (Bytes × Bytes) :=
  if c = chr '$' then .ok ([chr '$'], rest)
  else if c = chr '&' then .ok (s.matched.start, rest)
  else if c = 0x60 then .ok (s.string.start.take (njsStringOffset s.string s.pos), rest)
  else if c = 0x27 then
    let tail := njsStringOffset s.string (s.pos + s.matched.length)
    .ok ((s.string.start.drop tail).take (s.string.start.length - tail), rest)
  else if c = chr '<' then
    match s.groups with
    | none => .ok ([chr '$', c], rest)
    | some groups =>
      match rest.dropWhile (· ≠ chr '>') with
      | [] => .ok ([chr '$', c], rest)
      | _ :: left =>
        (groups (rest.takeWhile (· ≠ chr '>'))).map fun value => (definedBytes value, left)
  else if isCaptureDigit c then
    let n := (c - chr '0').toNat
    let c2 := rest.headD 0
    let n2 := n * 10 + (c2 - chr '0').toNat
    if isCaptureDigit c2 ∧ n2 ≤ s.ncaptures then
      if n2 = 0 ∨ s.ncaptures < n2 then .ok ([chr '$', c, c2], rest.drop 1)
      else .ok (definedBytes (s.captures.getD n2 none), rest.drop 1)
    else if n = 0 ∨ s.ncaptures < n then .ok ([chr '$', c], rest)
    else .ok (definedBytes (s.captures.getD n none), rest)
  else .ok ([chr '$'], c :: rest)

/-- The loop of `njs_string_get_substitution`. A pass goes on by at least the dollar sign. -/
def substitutionLoop (s : Substitution) : ℕ → Bytes → Chain → Except Thrown Chain
  | 0, _, chain => .ok chain
  | passes + 1, p, chain =>
    if p = [] then .ok chain
    else
      match nextDollar p with
      | none => .ok (njsChbAppend njsStringMaxLength p chain)
      | some (before, c, rest) =>
        let chain := njsChbAppend njsStringMaxLength before chain
        match reference s c rest with
        | .error thrown => .error thrown
        | .ok (msg, rest) =>
          substitutionLoop s passes rest (njsChbAppend njsStringMaxLength msg chain)

/-- `njs_string_get_substitution`. A template without a dollar sign to look at is its own
expansion. -/
def njsStringGetSubstitution (s : Substitution) (replacement : StringProp) :
    Except Thrown StringProp :=
  if replacement.start ≠ [] ∧ nextDollar replacement.start = none then .ok replacement
  else
    match substitutionLoop s (replacement.start.length + 1) replacement.start (some []) with
    | .error thrown => .error thrown
    | .ok chain => njsStringCreateChb chain

/-! ### The language -/

section

variable (x before after : List Char)

/-- What a dollar sign and a character behind it stand for. -/
def meaning (d : Char) : Option (List Char) :=
  if d = '$' then some ['$']
  else if d = '&' then some x
  else if d = '\x60' then some before
  else if d = '\x27' then some after
  else none

/-- The expansion of a template for a match with what is before and behind it. -/
def expand : List Char → List Char
  | [] => []
  | [c] => [c]
  | c :: d :: rest =>
    if c = '$' then
      match meaning x before after d with
      | some l => l ++ expand rest
      | none => c :: expand (d :: rest)
    else c :: expand (d :: rest)

variable {x before after}

theorem expand_cons {c : Char} (hc : c ≠ '$') (rest : List Char) :
    expand x before after (c :: rest) = c :: expand x before after rest := by
  obtain _ | ⟨d, rest⟩ := rest
  · rfl
  · rw [expand, if_neg hc]

theorem expand_append {plain : List Char} (hplain : ∀ c ∈ plain, c ≠ '$') (rest : List Char) :
    expand x before after (plain ++ rest) = plain ++ expand x before after rest := by
  induction plain with
  | nil => rfl
  | cons c plain ih =>
    obtain ⟨hc, hplain⟩ := List.forall_mem_cons.1 hplain
    rw [List.cons_append, expand_cons hc, ih hplain, List.cons_append]

theorem expand_some {d : Char} {l : List Char} (h : meaning x before after d = some l)
    (rest : List Char) :
    expand x before after ('$' :: d :: rest) = l ++ expand x before after rest := by
  rw [expand, if_pos rfl, h]

theorem expand_none {d : Char} (h : meaning x before after d = none) (rest : List Char) :
    expand x before after ('$' :: d :: rest) = '$' :: expand x before after (d :: rest) := by
  rw [expand, if_pos rfl, h]

end

/-! ### Bytes of ASCII characters in a text -/

variable {text x before after template : List Char}

variable {d : Char}

theorem chr_not_mem {c : Char} (hd : d.toNat < 0x80) (hne : c ≠ d) :
    ∀ b ∈ String.utf8EncodeChar c, b ≠ chr d := by
  by_cases hc : c.toNat < 0x80
  · obtain ⟨b, hchar, -⟩ := utf8EncodeChar_ascii hc
    rw [hchar]
    intro b' hb'
    obtain rfl := List.mem_singleton.1 hb'
    exact fun h => hne ((first_eq_iff hd hchar).1 h)
  · rintro b hb rfl
    have hlarge := large_of_mem (Nat.le_of_not_lt hc) hb
    rw [chr, Char.toUInt8, UInt32.toNat_toUInt8] at hlarge
    have hmod : d.val.toNat % 2 ^ 8 = d.toNat := Nat.mod_eq_of_lt (Nat.lt_trans hd (by decide))
    omega

theorem bytes_ascii (hd : d.toNat < 0x80) : String.utf8EncodeChar d = [chr d] := by
  obtain ⟨b, hchar, -⟩ := utf8EncodeChar_ascii hd
  rw [hchar, (first_eq_iff hd hchar).2 rfl]

theorem span_bytes (hd : d.toNat < 0x80) (text : List Char) :
    (bytes text).takeWhile (· ≠ chr d) = bytes (text.takeWhile (· ≠ d)) ∧
      (bytes text).dropWhile (· ≠ chr d) = bytes (text.dropWhile (· ≠ d)) := by
  induction text with
  | nil => exact ⟨rfl, rfl⟩
  | cons c text ih =>
    by_cases hc : c = d
    · subst hc
      rw [bytes_cons, bytes_ascii hd]
      simp [bytes_cons, bytes_ascii hd, bytes_eq_nil_iff]
    · have hb : ∀ b ∈ String.utf8EncodeChar c, (fun b => decide (b ≠ chr d)) b = true :=
        fun b hmem => decide_eq_true (chr_not_mem hd hc b hmem)
      rw [bytes_cons, List.takeWhile_append_of_pos hb, List.dropWhile_append_of_pos hb, ih.1, ih.2]
      simp [hc, bytes_cons]

theorem ascii_of_first {b : UInt8} {l : Bytes} (hchar : String.utf8EncodeChar d = b :: l)
    (hb : b.toNat < 0x80) : d.toNat < 0x80 ∧ b = chr d ∧ l = [] := by
  have hd : d.toNat < 0x80 := by
    by_contra hlarge
    have := large_of_mem (Nat.le_of_not_lt hlarge) (b := b) (hchar ▸ List.mem_cons_self)
    omega
  rw [bytes_ascii hd] at hchar
  obtain ⟨rfl, rfl⟩ := List.cons.inj hchar
  exact ⟨hd, rfl, rfl⟩

theorem toNat_of_isCaptureDigit {b : UInt8} (h : isCaptureDigit b) :
    0x30 ≤ b.toNat ∧ b.toNat < 0x3a := by
  rw [isCaptureDigit, Bool.and_eq_true, decide_eq_true_eq, decide_eq_true_eq,
    UInt8.le_iff_toNat_le, UInt8.le_iff_toNat_le] at h
  exact ⟨h.1, Nat.lt_succ_of_le h.2⟩

theorem exists_of_isCaptureDigit (h : isCaptureDigit ((bytes text).headD 0)) :
    ∃ e rest, text = e :: rest ∧ e ≠ '$' ∧ String.utf8EncodeChar e = [(bytes text).headD 0] := by
  have hdigit := toNat_of_isCaptureDigit h
  obtain _ | ⟨e, rest⟩ := text
  · exact absurd h (by decide)
  obtain ⟨b, l, hchar, -⟩ := Indices.utf8EncodeChar_encoded e
  have hbytes : bytes (e :: rest) = b :: (l ++ bytes rest) := by
    rw [bytes_cons, hchar, List.cons_append]
  rw [hbytes] at hdigit ⊢
  obtain ⟨-, hb, rfl⟩ := ascii_of_first hchar (Nat.lt_trans hdigit.2 (by decide))
  refine ⟨e, rest, rfl, ?_, hchar⟩
  rintro rfl
  rw [List.headD_cons, hb] at hdigit
  exact absurd hdigit (by decide)

theorem njsStringOffset_eq {i : ℕ} (hi : i ≤ text.length) :
    njsStringOffset (ofText text) i = offset text i := by
  rw [njsStringOffset]
  split_ifs with hascii hend
  · have hsize := (length_bytes_eq_iff text).2 ((njsIsAsciiString_iff text).1 hascii)
    exact (offset_ascii hsize hi).symm
  · obtain rfl : i = text.length := hend
    exact (offset_length text).symm
  · exact njsStringUtf8Offset_eq (Nat.lt_of_le_of_ne hi hend)

/-! ### The expansion -/

/-- The arguments for a match of a string. -/
def substitutionOf (text x : List Char) (pos : ℕ) : Substitution :=
  ⟨ofText x, ofText text, pos, [], 0, none⟩

theorem reference_eq (htext : text = before ++ x ++ after) {b : UInt8} {l : Bytes}
    (hchar : String.utf8EncodeChar d = b :: l) (rest : List Char) :
    ∃ m q, reference (substitutionOf text x before.length) b (l ++ bytes rest) =
        .ok (bytes m, bytes q) ∧
      expand x before after ('$' :: d :: rest) = m ++ expand x before after q ∧
      q.length ≤ rest.length + 1 := by
  have hfirst : ∀ e : Char, e.toNat < 0x80 → (b = chr e ↔ d = e) := fun e he =>
    first_eq_iff he hchar
  have hle : before.length + x.length ≤ text.length := by
    rw [htext, List.length_append, List.length_append]
    omega
  have hgrave : (0x60 : UInt8) = chr '\x60' := by decide
  have hapostrophe : (0x27 : UInt8) = chr '\x27' := by decide
  -- The byte is that of one of the characters that are looked at, or of none of them.
  have hcase : ∀ e : Char, e.toNat < 0x80 → b = chr e →
      d = e ∧ l ++ bytes rest = bytes rest ∧ b = chr e := by
    intro e he hb
    obtain rfl := (hfirst e he).1 hb
    rw [bytes_ascii he] at hchar
    exact ⟨rfl, by rw [← (List.cons.inj hchar).2]; rfl, hb⟩
  have hother : ∀ e : Char, e.toNat < 0x80 → b ≠ chr e → d ≠ e := fun e he hb h =>
    hb ((hfirst e he).2 h)
  let ok (rest : List Char) (m : Bytes) : Except Thrown (Bytes × Bytes) := .ok (m, bytes rest)
  rw [reference, hgrave, hapostrophe]
  by_cases h₁ : b = chr '$'
  · obtain ⟨rfl, hl, -⟩ := hcase '$' (by decide) h₁
    rw [if_pos h₁, hl]
    exact ⟨['$'], rest, rfl, expand_some rfl rest, Nat.le_succ _⟩
  rw [if_neg h₁]
  by_cases h₂ : b = chr '&'
  · obtain ⟨rfl, hl, -⟩ := hcase '&' (by decide) h₂
    rw [if_pos h₂, hl]
    exact ⟨x, rest, rfl, expand_some rfl rest, Nat.le_succ _⟩
  rw [if_neg h₂]
  by_cases h₃ : b = chr '\x60'
  · obtain ⟨rfl, hl, -⟩ := hcase '\x60' (by decide) h₃
    have hbefore : (bytes text).take (njsStringOffset (ofText text) before.length) =
        bytes before := by
      rw [njsStringOffset_eq (by omega), take_offset, htext, List.append_assoc, List.take_left]
    rw [if_pos h₃, hl]
    exact ⟨before, rest, congrArg (ok rest) hbefore, expand_some rfl rest, Nat.le_succ _⟩
  rw [if_neg h₃]
  by_cases h₄ : b = chr '\x27'
  · obtain ⟨rfl, hl, -⟩ := hcase '\x27' (by decide) h₄
    have hafter : ((bytes text).drop (njsStringOffset (ofText text)
        (before.length + x.length))).take ((bytes text).length -
          njsStringOffset (ofText text) (before.length + x.length)) = bytes after := by
      rw [njsStringOffset_eq hle, drop_offset, htext, ← List.length_append, List.drop_left,
        List.take_of_length_le]
      rw [bytes_append, offset, List.take_left, List.length_append]
      omega
    rw [if_pos h₄, hl]
    exact ⟨after, rest, congrArg (ok rest) hafter, expand_some rfl rest, Nat.le_succ _⟩
  rw [if_neg h₄]
  have hmeaning : meaning x before after d = none := by
    rw [meaning, if_neg (hother _ (by decide) h₁), if_neg (hother _ (by decide) h₂),
      if_neg (hother _ (by decide) h₃), if_neg (hother _ (by decide) h₄)]
  have hplain : d ≠ '$' := hother _ (by decide) h₁
  by_cases h₅ : b = chr '<'
  · obtain ⟨rfl, hl, -⟩ := hcase '<' (by decide) h₅
    rw [if_pos h₅, hl]
    refine ⟨['$', '<'], rest, by rw [h₅]; rfl, ?_, Nat.le_succ _⟩
    rw [expand_none hmeaning, expand_cons hplain]
    rfl
  rw [if_neg h₅]
  by_cases h₆ : isCaptureDigit b
  · have hdigit := toNat_of_isCaptureDigit h₆
    obtain ⟨hd, hb, rfl⟩ := ascii_of_first hchar (Nat.lt_trans hdigit.2 (by decide))
    have hbytes : ∀ t, bytes (d :: t) = b :: bytes t := fun t => by
      rw [bytes_cons, hchar, List.singleton_append]
    rw [if_pos h₆, List.nil_append]
    by_cases htwo : isCaptureDigit ((bytes rest).headD 0) ∧
        (b - chr '0').toNat * 10 + ((bytes rest).headD 0 - chr '0').toNat ≤ 0
    · obtain ⟨e, rest', rfl, he, hrest⟩ := exists_of_isCaptureDigit htwo.1
      refine ⟨['$', d, e], rest', ?_, ?_, Nat.le_succ_of_le (Nat.le_succ _)⟩
      · have hmsg : bytes ['$', d, e] = [chr '$', b, (bytes (e :: rest')).headD 0] := by
          rw [bytes_cons, hbytes, bytes_cons, hrest]
          rfl
        have hdrop : (bytes (e :: rest')).drop 1 = bytes rest' := by
          rw [bytes_cons, hrest]
          rfl
        rw [hmsg, ← hdrop]
        exact (if_pos htwo).trans (if_pos (Nat.eq_zero_or_pos _))
      · rw [expand_none hmeaning, expand_cons hplain, expand_cons he]
        rfl
    · refine ⟨['$', d], rest, ?_, ?_, Nat.le_succ _⟩
      · have hmsg : bytes ['$', d] = [chr '$', b] := congrArg (chr '$' :: ·) (hbytes [])
        rw [hmsg]
        exact (if_neg htwo).trans (if_pos (Nat.eq_zero_or_pos _))
      · rw [expand_none hmeaning, expand_cons hplain]
        rfl
  · have hbytes : bytes (d :: rest) = b :: (l ++ bytes rest) := by
      rw [bytes_cons, hchar, List.cons_append]
    rw [if_neg h₆, ← hbytes]
    exact ⟨['$'], d :: rest, rfl, expand_none hmeaning rest, Nat.le_refl _⟩

theorem template_cases (template : List Char) :
    (nextDollar (bytes template) = none ∧ expand x before after template = template) ∨
      ∃ plain d b l rest, template = plain ++ '$' :: d :: rest ∧ (∀ c ∈ plain, c ≠ '$') ∧
        String.utf8EncodeChar d = b :: l ∧
        nextDollar (bytes template) = some (bytes plain, b, l ++ bytes rest) := by
  have hspan := span_bytes (show '$'.toNat < 0x80 by decide) template
  have htemplate := List.takeWhile_append_dropWhile (p := (· ≠ '$')) (l := template)
  have hplain : ∀ c ∈ template.takeWhile (· ≠ '$'), c ≠ '$' := fun c hc =>
    of_decide_eq_true (List.all_eq_true.1 List.all_takeWhile c hc)
  have hhead := List.head?_dropWhile_not (· ≠ '$') template
  rw [nextDollar, hspan.1, hspan.2]
  generalize template.takeWhile (· ≠ '$') = plain at *
  generalize template.dropWhile (· ≠ '$') = tail at *
  obtain _ | ⟨c, _ | ⟨d, rest⟩⟩ := tail
  · refine .inl ⟨rfl, ?_⟩
    rw [← htemplate, expand_append hplain]
    rfl
  · obtain rfl : c = '$' := not_not.1 (of_decide_eq_false hhead)
    refine .inl ⟨rfl, ?_⟩
    rw [← htemplate, expand_append hplain]
    rfl
  · obtain rfl : c = '$' := not_not.1 (of_decide_eq_false hhead)
    obtain ⟨b, l, hchar, -⟩ := Indices.utf8EncodeChar_encoded d
    refine .inr ⟨plain, d, b, l, rest, htemplate.symm, hplain, hchar, ?_⟩
    rw [bytes_cons, bytes_cons, hchar]
    rfl

theorem substitutionLoop_eq (htext : text = before ++ x ++ after) (t : List Char) {passes : ℕ}
    (hpasses : template.length < passes) :
    substitutionLoop (substitutionOf text x before.length) passes (bytes template) (chainOf t) =
      .ok (chainOf (t ++ expand x before after template)) := by
  induction passes generalizing template t with
  | zero => omega
  | succ passes ih =>
    rw [substitutionLoop]
    by_cases hempty : bytes template = []
    · obtain rfl := bytes_eq_nil_iff.1 hempty
      rw [if_pos hempty, expand, List.append_nil]
    rw [if_neg hempty]
    obtain ⟨hnext, hexpand⟩ | ⟨plain, d, b, l, rest, rfl, hplain, hchar, hnext⟩ :=
      @template_cases x before after template
    · rw [hnext, hexpand]
      exact congrArg Except.ok (njsChbAppend_chainOf t template)
    obtain ⟨m, q, href, hexpand, hq⟩ := reference_eq htext hchar rest
    have hlt : q.length < passes := by
      rw [List.length_append, List.length_cons, List.length_cons] at hpasses
      omega
    rw [hnext, expand_append hplain, hexpand]
    dsimp only
    rw [href]
    dsimp only
    rw [njsChbAppend_chainOf, njsChbAppend_chainOf, ih _ hlt]
    simp only [List.append_assoc]

theorem njsStringGetSubstitution_eq (htext : text = before ++ x ++ after) {template : List Char}
    (hsize : (bytes template).length ≤ njsStringMaxLength) :
    njsStringGetSubstitution (substitutionOf text x before.length) (ofText template) =
      created (expand x before after template) := by
  have hle := length_le_bytes template
  have hloop := @substitutionLoop_eq text x before after template htext []
    ((bytes template).length + 1) (by omega)
  rw [njsStringGetSubstitution]
  split_ifs with hwhole
  · obtain ⟨-, hexpand⟩ | ⟨plain, d, b, l, rest, -, -, -, hnext⟩ :=
      @template_cases x before after template
    · rw [hexpand, created, if_neg (Nat.not_lt.2 hsize)]
    · exact absurd (hwhole.2.symm.trans hnext) (Option.some_ne_none _).symm
  · change substitutionLoop _ _ _ (some []) = _ at hloop
    dsimp only [ofText]
    rw [hloop]
    exact njsStringCreateChb_chainOf _

end Njs.Strings

/-!
## `replace` and `replaceAll`

The first occurrence of a string or all of them are replaced, from left to right. The empty string
occurs before each character and at the end.
-/

namespace Njs.Strings

open Text
open Indices (bytes offset slice offset_length)
open Query (bytes_append)
open Json (Chain njsChbAppend)
open Occurrence (replaceFirst replaceAll replaceEach replaceAll_of_none replaceAll_of_some)

/-! ### The code -/

/-- The second argument: a template, or a function with the string that a call for a position
gives. -/
inductive Replacement
  | template (value : StringProp)
  | function (call : ℕ → Except Thrown StringProp)

/-- What a match at a position is replaced by. -/
def replaceValue (search this : StringProp) : Replacement → ℕ → Except Thrown StringProp
  | .template value, pos => njsStringGetSubstitution ⟨search, this, pos, [], 0, none⟩ value
  | .function call, pos => call pos

def nextMatch (string s : StringProp) (endOfLastMatch : ℕ) : Option ℕ :=
  if s.length = 0 then
    if string.length ≤ endOfLastMatch then none else some (endOfLastMatch + 1)
  else njsStringIndexOf string s endOfLastMatch

/-- The loop of `njs_string_prototype_replace` and what is appended behind it. A pass goes on by at
least a character. -/
def replaceAllLoop (string s : StringProp) (value : ℕ → Except Thrown StringProp) :
    ℕ → ℕ → ℕ → Chain → Except Thrown Chain
  | 0, _, _, chain => .ok chain
  | passes + 1, pos, start, chain =>
    match value pos with
    | .error thrown => .error thrown
    | .ok retString =>
      let stop := njsStringOffset string pos
      let chain := njsChbAppend njsStringMaxLength (slice string.start start (stop - start)) chain
      let chain := njsChbAppend njsStringMaxLength retString.start chain
      let start := stop + s.start.length
      match nextMatch string s (pos + s.length) with
      | none =>
        .ok (njsChbAppend njsStringMaxLength
          (slice string.start start (string.start.length - start)) chain)
      | some pos => replaceAllLoop string s value passes pos start chain

/-- `njs_string_prototype_replace` for strings. -/
def njsStringPrototypeReplace (all : Bool) (this search : StringProp) (replace : Replacement) :
    Except Thrown StringProp :=
  match njsStringIndexOf this search 0 with
  | none => .ok this
  | some pos =>
    let value := replaceValue search this replace
    if all then
      (replaceAllLoop this search value (this.length + 1) pos 0 (some [])).bind njsStringCreateChb
    else
      (value pos).bind fun retString =>
        let stop := njsStringOffset this pos
        njsStringAlloc (slice this.start 0 stop ++ retString.start ++
            slice this.start (stop + search.start.length)
              (this.start.length - search.start.length - stop))
          (this.length + retString.length - search.length)

/-! ### The language -/

variable {text x r : List Char}

/-- A text with the first occurrence of `x` or all of them replaced by the expansions of a
template. -/
def replaced (all : Bool) (text x r : List Char) : List Char :=
  let e (before after : List Char) := expand x before after r
  if all then if hx : x = [] then replaceEach e [] text else replaceAll e hx [] text
  else replaceFirst e x text

/-! ### One occurrence -/

theorem slice_between (text : List Char) {i j : ℕ} (hij : i ≤ j) :
    slice (bytes text) (offset text i) (offset text j - offset text i) =
      bytes ((text.drop i).take (j - i)) := by
  obtain ⟨k, rfl⟩ := Nat.exists_eq_add_of_le hij
  rw [offset_add, Nat.add_sub_cancel_left, Nat.add_sub_cancel_left, slice_bytes]

theorem slice_rest (text : List Char) (i : ℕ) :
    slice (bytes text) (offset text i) ((bytes text).length - offset text i) =
      bytes (text.drop i) := by
  rw [slice, drop_offset, List.take_of_length_le]
  have hlength := length_bytes_eq_add text i
  omega

theorem replaceValue_eq {before after : List Char} (htext : text = before ++ x ++ after)
    (hr : (bytes r).length ≤ njsStringMaxLength) :
    replaceValue (ofText x) (ofText text) (.template (ofText r)) before.length =
      created (expand x before after r) := njsStringGetSubstitution_eq htext hr

section

variable {value : ℕ → Except Thrown StringProp} {e t : List Char} {passes pos j : ℕ}

theorem replaceAllLoop_last (hpos : pos ≤ text.length) (hj : j ≤ pos)
    (hx : offset text (pos + x.length) = offset text pos + (bytes x).length)
    (hvalue : value pos = .ok (ofText e))
    (hnext : nextMatch (ofText text) (ofText x) (pos + x.length) = none) :
    replaceAllLoop (ofText text) (ofText x) value (passes + 1) pos (offset text j) (chainOf t) =
      .ok (chainOf (t ++ (text.drop j).take (pos - j) ++ e ++ text.drop (pos + x.length))) := by
  change nextMatch _ _ (pos + (ofText x).length) = none at hnext
  rw [replaceAllLoop, hvalue]
  dsimp only
  rw [njsStringOffset_eq hpos, hnext]
  dsimp only [ofText]
  rw [← hx, slice_between text hj, slice_rest, njsChbAppend_chainOf, njsChbAppend_chainOf,
    njsChbAppend_chainOf]

theorem replaceAllLoop_next (hpos : pos ≤ text.length) (hj : j ≤ pos)
    (hx : offset text (pos + x.length) = offset text pos + (bytes x).length)
    (hvalue : value pos = .ok (ofText e)) {pos' : ℕ}
    (hnext : nextMatch (ofText text) (ofText x) (pos + x.length) = some pos') :
    replaceAllLoop (ofText text) (ofText x) value (passes + 1) pos (offset text j) (chainOf t) =
      replaceAllLoop (ofText text) (ofText x) value passes pos' (offset text (pos + x.length))
        (chainOf (t ++ (text.drop j).take (pos - j) ++ e)) := by
  change nextMatch _ _ (pos + (ofText x).length) = some pos' at hnext
  rw [replaceAllLoop, hvalue]
  dsimp only
  rw [njsStringOffset_eq hpos, hnext]
  dsimp only [ofText]
  rw [← hx, slice_between text hj, njsChbAppend_chainOf, njsChbAppend_chainOf]

def finished (run : Except Thrown Chain) : Except Thrown StringProp := run.bind njsStringCreateChb

theorem finished_error (hvalue : value pos = created e)
    (hlong : njsStringMaxLength < (bytes e).length) (s : ℕ) (chain : Chain) {l : List Char}
    (hl : e <:+: l) :
    finished (replaceAllLoop (ofText text) (ofText x) value (passes + 1) pos s chain) =
      created l := by
  rw [created, if_pos hlong] at hvalue
  rw [created, if_pos (njsStringMaxLength_lt _ hlong hl), replaceAllLoop, hvalue]
  rfl

end

/-! ### All occurrences -/

theorem replaceAllLoop_eq (hx : x ≠ []) {value : ℕ → Except Thrown StringProp}
    {e : List Char → List Char → List Char}
    (hvalue : ∀ before after, text = before ++ x ++ after →
      value before.length = created (e before after))
    {passes k : ℕ} (hk : k ≤ text.length) {l after t : List Char}
    (hfirst : (text.drop k).dropInfix? x = some (l, after)) (hpasses : after.length < passes) :
    finished (replaceAllLoop (ofText text) (ofText x) value passes (k + l.length) (offset text k)
      (chainOf t)) = created (t ++ replaceAll e hx (text.take k) (text.drop k)) := by
  induction passes generalizing k l after t with
  | zero => omega
  | succ passes ih =>
    have hat := occursAt hk hfirst
    have hlength := hat.length_eq
    have hpos := List.length_pos_iff.2 hx
    have hbefore : text.take (k + l.length) = text.take k ++ l := by
      rw [List.take_add, hat.take_eq]
    have hval := hvalue (text.take k ++ l) after (by
      rw [← hbefore, List.append_assoc, ← hat.drop_eq, List.take_append_drop])
    rw [← hbefore, List.length_take, Nat.min_eq_left (by omega), hbefore] at hval
    rw [replaceAll_of_some _ hfirst]
    by_cases hlong : njsStringMaxLength < (bytes (e (text.take k ++ l) after)).length
    · refine finished_error hval hlong _ _
        ⟨t ++ l, replaceAll e hx (text.take k ++ l ++ x) after, ?_⟩
      simp only [List.append_assoc]
    rw [created, if_neg hlong] at hval
    have hseg : (text.drop k).take (k + l.length - k) = l := by
      rw [Nat.add_sub_cancel_left, hat.take_eq]
    have hbehind : text.take (k + l.length + x.length) = text.take k ++ l ++ x := by
      rw [List.take_add, hbefore, hat.drop_eq, List.take_left]
    have hnext : nextMatch (ofText text) (ofText x) (k + l.length + x.length) =
        (after.dropInfix? x).map fun p => k + l.length + x.length + p.1.length := by
      have hne : ¬(ofText x).length = 0 := Nat.ne_of_gt hpos
      rw [nextMatch, if_neg hne, ← hat.rest_eq]
      exact njsStringIndexOf_eq text x (by omega)
    rcases hsecond : after.dropInfix? x with _ | ⟨l', after'⟩
    · rw [hsecond] at hnext
      rw [replaceAllLoop_last (by omega) (Nat.le_add_right _ _) hat.next_eq hval hnext, hseg,
        hat.rest_eq, replaceAll_of_none _ hsecond, ← List.append_assoc t, ← List.append_assoc t]
      exact njsStringCreateChb_chainOf _
    rw [hsecond] at hnext
    have hlt := Occurrence.length_lt_of_dropInfix? hx hsecond
    rw [← hat.rest_eq] at hsecond
    have hrest := ih (by omega) (t := t ++ l ++ e (text.take k ++ l) after) hsecond (by omega)
    rw [hbehind, hat.rest_eq] at hrest
    rw [replaceAllLoop_next (by omega) (Nat.le_add_right _ _) hat.next_eq hval hnext, hseg,
      hrest]
    simp only [List.append_assoc]

theorem replaceEachLoop_eq {value : ℕ → Except Thrown StringProp}
    {e : List Char → List Char → List Char}
    (hvalue : ∀ before after, text = before ++ [] ++ after →
      value before.length = created (e before after))
    {passes k j : ℕ} (hk : k ≤ text.length) (hj : j ≤ k) (hpasses : text.length < k + passes)
    (t : List Char) :
    finished (replaceAllLoop (ofText text) (ofText []) value passes k (offset text j) (chainOf t)) =
        created (t ++ (text.drop j).take (k - j) ++ replaceEach e (text.take k) (text.drop k)) := by
  induction passes generalizing k j t with
  | zero => omega
  | succ passes ih =>
    have hval := hvalue (text.take k) (text.drop k) (by rw [List.append_nil, List.take_append_drop])
    rw [List.length_take, Nat.min_eq_left hk] at hval
    have hend : nextMatch (ofText text) (ofText []) k =
        if text.length ≤ k then none else some (k + 1) := if_pos rfl
    have hbegins : e (text.take k) (text.drop k) <+: replaceEach e (text.take k) (text.drop k) := by
      rcases text.drop k with _ | ⟨c, rest⟩
      · exact List.prefix_refl _
      · exact List.prefix_append _ _
    by_cases hlong : njsStringMaxLength < (bytes (e (text.take k) (text.drop k))).length
    · exact finished_error hval hlong _ _ (hbegins.isInfix.trans (List.suffix_append _ _).isInfix)
    rw [created, if_neg hlong] at hval
    by_cases hlast : text.length ≤ k
    · rw [if_pos hlast] at hend
      rw [replaceAllLoop_last hk hj rfl hval hend]
      change njsStringCreateChb (chainOf (_ ++ text.drop k)) = _
      rw [njsStringCreateChb_chainOf, List.drop_eq_nil_of_le hlast, List.append_nil]
      rfl
    rw [if_neg hlast] at hend
    have hlt := Nat.not_le.1 hlast
    have hrest := ih (k := k + 1) (j := k) hlt (Nat.le_succ k) (by omega)
      (t ++ (text.drop j).take (k - j) ++ e (text.take k) (text.drop k))
    rw [replaceAllLoop_next hk hj rfl hval hend]
    refine hrest.trans ?_
    rw [Nat.add_sub_cancel_left, ← List.getElem_cons_drop (h := hlt), replaceEach,
      List.take_succ_eq_append_getElem hlt, List.take_succ_cons, List.take_zero]
    simp only [List.append_assoc, List.singleton_append]

/-! ### The methods -/

/-- The only occurrence that `replace` looks at. -/
theorem replaceOne_eq {l after e : List Char} (h : text.dropInfix? x = some (l, after))
    {value : Except Thrown StringProp} (hvalue : value = created e) :
    (value.bind fun retString =>
      let stop := njsStringOffset (ofText text) l.length
      njsStringAlloc (slice (bytes text) 0 stop ++ retString.start ++
          slice (bytes text) (stop + (bytes x).length)
            ((bytes text).length - (bytes x).length - stop))
        (text.length + retString.length - x.length)) = created (l ++ e ++ after) := by
  have hat : OccursAt text x 0 l after := occursAt (Nat.zero_le _) h
  have hlength := hat.length_eq
  have hoffset := hat.next_eq
  rw [Nat.zero_add] at hlength hoffset
  by_cases hlong : njsStringMaxLength < (bytes e).length
  · rw [created, if_pos hlong] at hvalue
    rw [hvalue, created, if_pos (njsStringMaxLength_lt e hlong ⟨l, after, rfl⟩)]
    rfl
  rw [created, if_neg hlong] at hvalue
  have hrest := hat.rest_eq
  have htake := hat.take_eq
  rw [Nat.zero_add] at hrest
  rw [List.drop_zero] at htake
  have hbefore : slice (bytes text) 0 (offset text l.length) = bytes l := by
    rw [slice, List.drop_zero, take_offset, htake]
  have hafter : slice (bytes text) (offset text l.length + (bytes x).length)
      ((bytes text).length - (bytes x).length - offset text l.length) = bytes after := by
    rw [Nat.sub_sub, Nat.add_comm (bytes x).length, ← hoffset, slice_rest, hrest]
  rw [hvalue]
  change njsStringAlloc (_ ++ bytes e ++ _) (text.length + e.length - x.length) = _
  rw [njsStringOffset_eq (by omega), hbefore, hafter, ← bytes_append, ← bytes_append,
    njsStringAlloc, created]
  have hcount : text.length + e.length - x.length = (l ++ e ++ after).length := by
    rw [List.length_append, List.length_append]
    omega
  rw [hcount]
  rfl

/-- The methods replace as the language says. -/
theorem njsStringPrototypeReplace_eq (all : Bool) (x : List Char) {text r : List Char}
    (htext : (bytes text).length ≤ njsStringMaxLength)
    (hr : (bytes r).length ≤ njsStringMaxLength) :
    njsStringPrototypeReplace all (ofText text) (ofText x) (.template (ofText r)) =
      created (replaced all text x r) := by
  have hindex := njsStringIndexOf_eq text x (Nat.zero_le text.length)
  have hvalue (before after : List Char) (h : text = before ++ x ++ after) :=
    replaceValue_eq h hr
  rw [List.drop_zero] at hindex
  rw [njsStringPrototypeReplace]
  rcases hfirst : text.dropInfix? x with _ | ⟨l, after⟩
  · have hx : x ≠ [] := by
      rintro rfl
      rw [List.dropInfix?_nil] at hfirst
      exact absurd hfirst (Option.some_ne_none _)
    have hsame : replaced all text x r = text := by
      rw [replaced]
      split_ifs
      · exact replaceAll_of_none [] hfirst
      · rw [replaceFirst, hfirst]
    rw [hfirst] at hindex
    rw [hindex, hsame, created, if_neg (Nat.not_lt.2 htext)]
    rfl
  rw [hfirst] at hindex
  rw [hindex]
  dsimp only [Option.map_some]
  rw [replaced]
  split_ifs with hall hx
  · subst hx
    obtain ⟨rfl, rfl⟩ := Prod.mk.inj (Option.some.inj ((List.dropInfix?_nil).symm.trans hfirst))
    exact replaceEachLoop_eq hvalue (Nat.zero_le _) (Nat.zero_le 0)
      (show text.length < 0 + (text.length + 1) by omega) []
  · have hlt := Occurrence.length_lt_of_dropInfix? hx hfirst
    have hloop := replaceAllLoop_eq hx hvalue (Nat.zero_le _) (t := []) hfirst
      (show after.length < text.length + 1 by omega)
    exact hloop
  · rw [Nat.zero_add, replaceFirst, hfirst]
    exact replaceOne_eq hfirst (hvalue l after (Occurrence.eq_of_dropInfix? hfirst))

/-- Two matches beside each other, with what is behind each. -/
theorem njsStringPrototypeReplace_adjacent : (bytes ['ä', 'ä']).length ≤ njsStringMaxLength ∧
    (bytes ['-', '$', '\x27']).length ≤ njsStringMaxLength ∧
    njsStringPrototypeReplace true (ofText ['ä', 'ä']) (ofText ['ä'])
      (.template (ofText ['-', '$', '\x27'])) = .ok (ofText ['-', 'ä', '-']) := by
  have htext : (bytes ['ä', 'ä']).length ≤ njsStringMaxLength := by decide
  have hr : (bytes ['-', '$', '\x27']).length ≤ njsStringMaxLength := by decide
  refine ⟨htext, hr, (njsStringPrototypeReplace_eq true ['ä'] htext hr).trans ?_⟩
  have hfirst : ['ä', 'ä'].dropInfix? ['ä'] = some ([], ['ä']) := by decide
  have hsecond : ['ä'].dropInfix? ['ä'] = some ([], []) := by decide
  have hend : ([] : List Char).dropInfix? ['ä'] = none := by decide
  rw [replaced, if_pos rfl, dif_neg (List.cons_ne_nil _ _), replaceAll_of_some _ hfirst,
    replaceAll_of_some _ hsecond, replaceAll_of_none _ hend]
  decide

end Njs.Strings
