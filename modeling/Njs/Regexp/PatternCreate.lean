import Njs.Regexp.Escape

/-!
# Patterns and possessive quantifiers

`njs_regexp_pattern_create` refuses the possessive quantifiers of PCRE, has the empty classes
written for PCRE2 and has the text compiled, once for bytes and once for UTF-8. It looks for a plus
sign with the two bytes before it and not with the parts of the pattern.
-/

namespace Njs.Regexp

open Text

/-! ### The code -/

/-- `njs_regex_flags_t`, without the one for UTF-8. -/
@[ext]
structure RegexFlags where
  global : Bool
  ignoreCase : Bool
  multiline : Bool
  sticky : Bool
  deriving DecidableEq

/-- What the library makes of a text: code with its number of captures, or none. -/
inductive Compiled (Regex : Type) where
  | ok (regex : Regex) (ncaptures : ℕ)
  | declined
  | error

/-- The regular expression library. -/
structure Library (Regex : Type) where
  compile : Bytes → RegexFlags → Bool → Compiled Regex
  namedCaptures : Regex → List (Bytes × ℕ)

/-- `njs_regexp_pattern_t`, whose source is the text with a NUL byte behind it. -/
@[ext]
structure Pattern (Regex : Type) where
  source : Bytes
  flags : RegexFlags
  regex : Option Regex × Option Regex
  ncaptures : ℕ
  groups : List (Bytes × ℕ)

/-- What a pattern is refused for. -/
inductive PatternError where
  | nothingToRepeat (text : Bytes)
  | compileFailed
  | library
  deriving DecidableEq

/-- The loop of `njs_regexp_pattern_create`, with the bytes before the pointer, the last one first.
It finds a plus sign that the pattern is refused for. -/
def repeatLoop (inside : Bool) (before : Bytes) : Bytes → Bool
  | [] => false
  | c :: p =>
    if c = chr '[' then repeatLoop true (c :: before) p
    else if c = chr ']' then repeatLoop false (c :: before) p
    else if c = chr '\\' then
      match p with
      | [] => false
      | d :: p => repeatLoop inside (d :: c :: before) p
    else if c = chr '+' ∧ inside = false ∧ 2 ≤ before.length ∧ before.getD 0 0 ∈ lit "+*?" ∧
        before.getD 1 0 ≠ chr '\\' then true
    else repeatLoop inside (c :: before) p

variable {Regex : Type}

/-- `njs_regexp_pattern_create` from `njs_regex_escape` on: the text is compiled for bytes and for
UTF-8, and one of them may be declined. -/
def compileText (lib : Library Regex) (text : Bytes) (flags : RegexFlags) :
    Except PatternError (Pattern Regex) := do
  let byte ← match lib.compile text flags false with
    | .ok regex ncaptures => .ok (some regex, ncaptures)
    | .declined => .ok (none, 0)
    | .error => .error .library
  let utf8 ← match lib.compile text flags true with
    | .ok regex n =>
      if byte.1.isSome ∧ n ≠ byte.2 then .error .compileFailed else .ok (some regex, n)
    | .declined => .ok (none, byte.2)
    | .error => .error .library
  match byte.1.or utf8.1 with
  | none => .error .library
  | some regex => .ok ⟨text ++ [0], flags, (byte.1, utf8.1), utf8.2, lib.namedCaptures regex⟩

def njsRegexpPatternCreate (lib : Library Regex) (start : Bytes) (flags : RegexFlags) :
    Except PatternError (Pattern Regex) :=
  if repeatLoop false [] start then .error (.nothingToRepeat start)
  else compileText lib (njsRegexEscape start).start flags

theorem compileText_ne (lib : Library Regex) (text p : Bytes) (flags : RegexFlags) :
    compileText lib text flags ≠ .error (.nothingToRepeat p) := by
  rw [compileText]
  cases lib.compile text flags false <;> cases lib.compile text flags true <;>
    simp only [bind, Except.bind] <;> (try split_ifs) <;> simp

/-! ### Quantifiers -/

/-- A quantifier: a star, a plus sign or a question mark, or numbers in braces. -/
inductive Quantifier : List Token → Prop
  | sign (c : UInt8) : c ∈ lit "+*?" → Quantifier [.other c]
  | braces (n m : Bytes) : n ≠ [] → (∀ c ∈ n, c ∈ lit "0123456789") →
      (m = [] ∨ ∃ k, m = chr ',' :: k ∧ ∀ c ∈ k, c ∈ lit "0123456789") →
      Quantifier ((chr '{' :: (n ++ m ++ [chr '}'])).map .other)

/-- A plus sign outside of the classes is behind a quantifier. -/
def Possessive (p : Bytes) : Prop :=
  ∃ a q b, Quantifier q ∧ tokens p = a ++ q ++ .other (chr '+') :: b

/-- The parts end with a quantifier sign that is neither the first part nor behind an escaped
backslash. -/
def SeenAt (pre : List Token) : Prop :=
  ∃ a c, c ∈ lit "+*?" ∧ pre = a ++ [.other c] ∧ a ≠ [] ∧ a.getLast? ≠ some (.escape (chr '\\'))

/-- A plus sign is behind a star, a plus sign or a question mark that is neither the first part of
the pattern nor behind an escaped backslash. -/
def Seen (p : Bytes) : Prop :=
  ∃ a b, SeenAt a ∧ tokens p = a ++ .other (chr '+') :: b

theorem Seen.possessive {p : Bytes} (h : Seen p) : Possessive p := by
  obtain ⟨_, b, ⟨a, c, hc, rfl, -⟩, hp⟩ := h
  exact ⟨a, [.other c], b, .sign c hc, hp⟩

/-! ### What the loop sees -/

/-- A plus sign among the last of some parts is seen. -/
def Found (pre ts : List Token) : Prop :=
  ∃ a b, SeenAt (pre ++ a) ∧ ts = a ++ .other (chr '+') :: b

theorem found_nil (pre : List Token) : ¬Found pre [] := by
  rintro ⟨a, b, -, h⟩
  exact List.append_ne_nil_of_right_ne_nil _ (List.cons_ne_nil _ _) h.symm

theorem found_cons (pre ts : List Token) (t : Token) :
    Found pre (t :: ts) ↔ t = .other (chr '+') ∧ SeenAt pre ∨ Found (pre ++ [t]) ts := by
  constructor
  · rintro ⟨a, b, hseen, h⟩
    obtain - | ⟨x, a⟩ := a
    · exact .inl ⟨(List.cons.inj h).1, by rwa [List.append_nil] at hseen⟩
    · obtain ⟨rfl, htail⟩ := List.cons.inj h
      exact .inr ⟨a, b, by rwa [List.append_assoc], htail⟩
  · rintro (⟨rfl, hseen⟩ | ⟨a, b, hseen, rfl⟩)
    · exact ⟨[], ts, by rwa [List.append_nil], rfl⟩
    · exact ⟨t :: a, b, by rwa [List.append_assoc] at hseen, rfl⟩

theorem found_cons_of_ne {pre ts : List Token} {t : Token} (ht : t ≠ .other (chr '+')) :
    Found pre (t :: ts) ↔ Found (pre ++ [t]) ts := by
  rw [found_cons, or_iff_right fun h => ht h.1]

theorem head?_reverse_text {a : List Token} (ha : ∀ t ∈ a, t.Inner) :
    (a.flatMap Token.text).reverse.head? = some (chr '\\') ↔
      a.getLast? = some (.escape (chr '\\')) := by
  obtain rfl | ⟨a, t, rfl⟩ := a.eq_nil_or_concat'
  · simp
  have ht := ha t (by simp)
  rw [List.getLast?_concat, List.flatMap_append, List.flatMap_singleton, List.reverse_append]
  cases t with
  | escape c => simp [Token.text]
  | cls parts =>
    have hclose : chr ']' ≠ chr '\\' := by decide
    simpa [Token.text] using hclose
  | other c => simpa [Token.text] using ht.1
  | unclosed rest => exact ht.elim
  | backslash => exact ht.elim

theorem Token.text_ne_nil (t : Token) : t.text ≠ [] := by
  cases t <;> exact List.cons_ne_nil _ _

theorem seenAt_concat {a : List Token} {t : Token} : SeenAt (a ++ [t]) ↔
    ∃ c ∈ lit "+*?", t = .other c ∧ a ≠ [] ∧ a.getLast? ≠ some (.escape (chr '\\')) := by
  constructor
  · rintro ⟨a', c, hc, heq, ha⟩
    obtain ⟨rfl, ht⟩ := List.append_inj' heq rfl
    exact ⟨c, hc, (List.cons.inj ht).1, ha⟩
  · rintro ⟨c, hc, rfl, ha⟩
    exact ⟨a, c, hc, rfl, ha⟩

theorem seenAt_iff {pre : List Token} (hpre : ∀ t ∈ pre, t.Inner) {before : Bytes}
    (hbefore : before = (pre.flatMap Token.text).reverse) :
    2 ≤ before.length ∧ before.getD 0 0 ∈ lit "+*?" ∧ before.getD 1 0 ≠ chr '\\' ↔ SeenAt pre := by
  obtain rfl | ⟨a, t, rfl⟩ := pre.eq_nil_or_concat'
  · subst hbefore
    refine iff_of_false (fun h => absurd h.1 (by decide)) ?_
    rintro ⟨a, c, -, h, -⟩
    exact List.append_ne_nil_of_right_ne_nil _ (List.cons_ne_nil _ _) h.symm
  rw [List.flatMap_append, List.flatMap_singleton, List.reverse_append] at hbefore
  rw [seenAt_concat]
  cases t with
  | escape c =>
    subst hbefore
    refine iff_of_false (fun h => h.2.2 rfl) ?_
    rintro ⟨_, _, h, _⟩
    exact Token.noConfusion h
  | cls parts =>
    have hlast : before.getD 0 0 = chr ']' := by simp [hbefore, Token.text]
    rw [hlast]
    refine iff_of_false (fun h => absurd h.2.1 (by decide)) ?_
    rintro ⟨_, _, h, _⟩
    exact Token.noConfusion h
  | other c =>
    have ha : ∀ t ∈ a, t.Inner := fun t ht => hpre t (List.mem_append_left _ ht)
    have hhead := head?_reverse_text ha
    have hnil : a = [] ↔ (a.flatMap Token.text).reverse = [] := by
      rw [List.reverse_eq_nil_iff, List.flatMap_eq_nil_iff]
      exact ⟨by rintro rfl; simp, fun h => List.eq_nil_iff_forall_not_mem.2 fun t ht =>
        t.text_ne_nil (h t ht)⟩
    have hbefore : before = c :: (a.flatMap Token.text).reverse := hbefore
    generalize (a.flatMap Token.text).reverse = l at hbefore hhead hnil
    subst hbefore
    obtain - | ⟨d, l⟩ := l
    · refine iff_of_false (fun h => absurd h.1 (Nat.not_succ_le_self 1)) ?_
      rintro ⟨_, _, _, hne, _⟩
      exact hne (hnil.2 rfl)
    have hd : d = chr '\\' ↔ a.getLast? = some (.escape (chr '\\')) := by
      rw [← hhead, List.head?_cons, Option.some.injEq]
    constructor
    · rintro ⟨-, hc, hd'⟩
      exact ⟨c, hc, rfl, fun h => List.cons_ne_nil _ _ (hnil.1 h), mt hd.2 hd'⟩
    · rintro ⟨c', hc, heq, -, hlast⟩
      obtain rfl := Token.other.inj heq
      exact ⟨Nat.le_add_left _ _, hc, mt hd.1 hlast⟩
  | unclosed rest => exact (hpre (.unclosed rest) (by simp)).elim
  | backslash => exact (hpre .backslash (by simp)).elim

theorem repeatLoop_open (inside : Bool) (before p : Bytes) :
    repeatLoop inside before (chr '[' :: p) = repeatLoop true (chr '[' :: before) p := by
  rw [repeatLoop.eq_def]
  exact if_pos rfl

theorem repeatLoop_close (inside : Bool) (before p : Bytes) :
    repeatLoop inside before (chr ']' :: p) = repeatLoop false (chr ']' :: before) p := by
  rw [repeatLoop.eq_def]
  exact (if_neg (by decide)).trans (if_pos rfl)

theorem repeatLoop_escape (inside : Bool) (before p : Bytes) (d : UInt8) :
    repeatLoop inside before (chr '\\' :: d :: p) =
      repeatLoop inside (d :: chr '\\' :: before) p := by
  rw [repeatLoop.eq_def]
  exact (if_neg (by decide)).trans ((if_neg (by decide)).trans (if_pos rfl))

theorem repeatLoop_inside {c : UInt8} (hc : c ≠ chr ']') (hc' : c ≠ chr '\\') (before p : Bytes) :
    repeatLoop true before (c :: p) = repeatLoop true (c :: before) p := by
  rw [repeatLoop.eq_def]
  simp only [hc, hc', if_false, Bool.true_eq_false, false_and, and_false]
  split_ifs <;> rfl

theorem repeatLoop_outside {c : UInt8} (hc : c ≠ chr '[') (hc' : c ≠ chr '\\') (before p : Bytes) :
    repeatLoop false before (c :: p) = true ↔
      c = chr '+' ∧ (2 ≤ before.length ∧ before.getD 0 0 ∈ lit "+*?" ∧
        before.getD 1 0 ≠ chr '\\') ∨ repeatLoop false (c :: before) p = true := by
  by_cases hclose : c = chr ']'
  · subst hclose
    rw [repeatLoop_close]
    exact (or_iff_right fun h => absurd h.1 (by decide)).symm
  · rw [repeatLoop.eq_def]
    simp only [hc, hc', hclose, if_false, true_and, ite_eq_left_iff]
    exact or_iff_not_imp_left.symm

theorem repeatLoop_unclosed {p : Bytes} (h : classParts p = none) (before : Bytes) :
    repeatLoop true before p = false := by
  fun_induction classParts p generalizing before with
  | case1 => rfl
  | case2 => exact absurd h (Option.some_ne_none _)
  | case3 => rfl
  | case4 d p hc ih =>
    rw [repeatLoop_escape]
    exact ih (Option.map_eq_none_iff.1 h) _
  | case5 c p hc hc' ih =>
    rw [repeatLoop_inside hc hc']
    exact ih (Option.map_eq_none_iff.1 h) _

theorem repeatLoop_class {parts : List Part} (hparts : ∀ x ∈ parts, x.WellFormed)
    (before rest : Bytes) :
    repeatLoop true before (parts.flatMap Part.text ++ chr ']' :: rest) =
      repeatLoop false (chr ']' :: ((parts.flatMap Part.text).reverse ++ before)) rest := by
  induction parts generalizing before with
  | nil => exact repeatLoop_close true before rest
  | cons x parts ih =>
    obtain ⟨hx, hwell⟩ := List.forall_mem_cons.1 hparts
    rw [List.flatMap_cons, List.reverse_append, List.append_assoc, List.append_assoc]
    cases x with
    | escape c => exact (repeatLoop_escape true before _ c).trans (ih hwell _)
    | plain c => exact (repeatLoop_inside hx.2 hx.1 before _).trans (ih hwell _)

theorem reverse_text_concat (pre : List Token) (t : Token) :
    ((pre ++ [t]).flatMap Token.text).reverse =
      t.text.reverse ++ (pre.flatMap Token.text).reverse := by
  rw [List.flatMap_append, List.flatMap_singleton, List.reverse_append]

theorem inner_concat {pre : List Token} (hpre : ∀ t ∈ pre, t.Inner) {t : Token} (ht : t.Inner) :
    ∀ t' ∈ pre ++ [t], t'.Inner := by
  rw [List.forall_mem_append, List.forall_mem_singleton]
  exact ⟨hpre, ht⟩

theorem repeatLoop_found {pre : List Token} (hpre : ∀ t ∈ pre, t.Inner) (p : Bytes) :
    repeatLoop false (pre.flatMap Token.text).reverse p = true ↔ Found pre (tokens p) := by
  fun_induction tokens p generalizing pre with
  | case1 => exact iff_of_false Bool.false_ne_true (found_nil pre)
  | case2 =>
    rw [found_cons_of_ne Token.noConfusion]
    exact iff_of_false Bool.false_ne_true (found_nil _)
  | case3 d p ih =>
    rw [found_cons_of_ne Token.noConfusion, ← ih (inner_concat (t := .escape d) hpre trivial),
      repeatLoop_escape,
      reverse_text_concat]
    rfl
  | case4 p hp hopen =>
    rw [found_cons_of_ne Token.noConfusion, repeatLoop_open, repeatLoop_unclosed hp]
    exact iff_of_false Bool.false_ne_true (found_nil _)
  | case5 p parts rest hp _ ih =>
    obtain ⟨rfl, hparts⟩ := classParts_eq_some hp
    rw [found_cons_of_ne Token.noConfusion, ← ih (inner_concat (t := .cls parts) hpre hparts),
      repeatLoop_open, repeatLoop_class hparts, reverse_text_concat, Token.text]
    simp
  | case6 c p hc hc' ih =>
    rw [found_cons, ← ih (inner_concat (t := .other c) hpre ⟨hc, hc'⟩),
      repeatLoop_outside hc' hc, seenAt_iff hpre rfl, reverse_text_concat, Token.other.injEq]
    rfl

theorem repeatLoop_iff (p : Bytes) : repeatLoop false [] p = true ↔ Seen p := by
  have hfound := @repeatLoop_found [] (by simp) p
  exact hfound

variable (lib : Library Regex) (flags : RegexFlags)

theorem njsRegexpPatternCreate_refused (p : Bytes) :
    njsRegexpPatternCreate lib p flags = .error (.nothingToRepeat p) ↔ Seen p := by
  rw [← repeatLoop_iff, njsRegexpPatternCreate]
  split_ifs with h
  · exact iff_of_true rfl h
  · exact iff_of_false (compileText_ne _ _ _ _) h

/-! ### Translated patterns -/

/-- A pattern is translated as it is read: its empty classes and nothing else are written in the
form of PCRE2, with the length that was counted, a second time nothing is changed, and the pattern
is refused if and only if a plus sign is behind a quantifier. -/
structure Translates (lib : Library Regex) (flags : RegexFlags) (p : Bytes) : Prop where
  escaped : (njsRegexEscape p).start = (tokens p).flatMap Token.translate
  length : (njsRegexEscape p).length = (njsRegexEscape p).start.length
  twice : njsRegexEscape (njsRegexEscape p).start = njsRegexEscape p
  refused : njsRegexpPatternCreate lib p flags = .error (.nothingToRepeat p) ↔ Possessive p

/-- A pattern is translated as it is read, just when the end of no class is taken for an empty class
and a plus sign behind a quantifier, if there is one, is also behind a sign that the code sees. -/
theorem translates_iff (p : Bytes) : Translates lib flags p ↔
    (∀ parts, .cls parts ∈ tokens p → ¬Misread parts) ∧ (Possessive p → Seen p) := by
  rw [← njsRegexEscape_iff]
  constructor
  · intro h
    exact ⟨h.escaped, fun hp => (njsRegexpPatternCreate_refused lib flags p).1 (h.refused.2 hp)⟩
  · rintro ⟨hescaped, hseen⟩
    refine ⟨hescaped, length_njsRegexEscape p, njsRegexEscape_twice p, ?_⟩
    rw [njsRegexpPatternCreate_refused]
    exact ⟨Seen.possessive, hseen⟩

def compilesAll : Library Unit := ⟨fun _ _ _ => .ok () 1, fun _ => []⟩

/-- The class `[\\][]` has two brackets in it, and its end is taken for an empty class. -/
theorem not_translates_class : ¬∀ p, Translates compilesAll ⟨false, false, false, false⟩ p := by
  intro h
  have hparts : classParts (lit "\\][]") = some ([.escape (chr ']'), .plain (chr '[')], []) := by
    decide
  have hmem := tokens_cls hparts
  rw [tokens_nil] at hmem
  have hmisread := (njsRegexEscape_iff _).1 (h (chr '[' :: lit "\\][]")).escaped _
    (hmem ▸ List.mem_singleton_self _)
  exact hmisread ⟨[], [], [], rfl, List.not_mem_nil, .inl rfl⟩

end Njs.Regexp
