import Njs.Regexp.PatternCreate
import Njs.Strings.Search

/-!
# Regular expressions that are made again

A regular expression keeps the text that was compiled, with the empty classes written for PCRE2, as
a C string. Where the pattern has no NUL character, the text is read again as it is: it is accepted
once more, it is not changed by a second escaping, and its bytes are UTF-8. The copy that `split`
makes is sticky.
-/

namespace Njs.Regexp

open Text
open Strings (StringProp)
open Indices (bytes)
open Query (njsUtf8DecodeInit bytes_cons bytes_append)
open Decoding (lengthLoop njsUtf8StreamEncode njsUtf8StreamLength passesFor)

/-! ### The code -/

/-- The flags of `njs_regexp_flags`. -/
inductive Flag where
  | global
  | ignoreCase
  | multiline
  | sticky
  deriving DecidableEq

def Flag.letter : Flag → UInt8
  | .global => chr 'g'
  | .ignoreCase => chr 'i'
  | .multiline => chr 'm'
  | .sticky => chr 'y'

def Flag.ofLetter (c : UInt8) : Option Flag :=
  if c = chr 'g' then some .global
  else if c = chr 'i' then some .ignoreCase
  else if c = chr 'm' then some .multiline
  else if c = chr 'y' then some .sticky
  else none

namespace RegexFlags

/-- `NJS_REGEX_NO_FLAGS`. -/
def noFlags : RegexFlags := ⟨false, false, false, false⟩

def has (flags : RegexFlags) : Flag → Bool
  | .global => flags.global
  | .ignoreCase => flags.ignoreCase
  | .multiline => flags.multiline
  | .sticky => flags.sticky

def add (flags : RegexFlags) : Flag → RegexFlags
  | .global => { flags with global := true }
  | .ignoreCase => { flags with ignoreCase := true }
  | .multiline => { flags with multiline := true }
  | .sticky => { flags with sticky := true }

end RegexFlags

/-- `njs_regexp_flags`, with the text that is left. -/
def njsRegexpFlags (flags : RegexFlags) : Bytes → Option RegexFlags × Bytes
  | [] => (some flags, [])
  | c :: p =>
    match Flag.ofLetter c with
    | none => if chr 'a' ≤ c ∧ c ≤ chr 'z' then (none, p) else (some flags, c :: p)
    | some flag => if flags.has flag then (none, p) else njsRegexpFlags (flags.add flag) p

/-- What the constructor throws. -/
inductive RegexpError where
  | invalidFlags (flags : Bytes)
  | pattern (error : PatternError)
  deriving DecidableEq

variable {Regex : Type}

/-- The part of `vm->shared` that is used: the pattern of an empty text. -/
structure Shared (lib : Library Regex) where
  emptyRegexpPattern : Pattern Regex
  created : njsRegexpPatternCreate lib (lit "(?:)") .noFlags = .ok emptyRegexpPattern

/-- The first argument of the constructor, where one that is not a regular expression is converted
to a string. -/
inductive Argument (Regex : Type) where
  | undefined
  | string (text : Bytes)
  | regexp (pattern : Pattern Regex)

def njsStringDecodeUtf8 (src : Bytes) : StringProp :=
  ⟨(njsUtf8StreamEncode njsUtf8DecodeInit src true false).2.getD [],
    ((njsUtf8StreamLength njsUtf8DecodeInit (some src) true false).2.map Prod.fst).getD 0⟩

/-- `njs_regexp_prototype_source`, which reads the text as a C string. -/
def njsRegexpPrototypeSource (pattern : Pattern Regex) : StringProp :=
  njsStringDecodeUtf8 (pattern.source.takeWhile (· ≠ 0))

def njsRegexpPrototypeFlags (pattern : Pattern Regex) : Bytes :=
  ([.global, .ignoreCase, .multiline, .sticky].filter pattern.flags.has).map Flag.letter

variable (lib : Library Regex) (shared : Shared lib)

def njsRegexpCreate (start : Bytes) (flags : RegexFlags) : Except RegexpError (Pattern Regex) :=
  if start.length ≠ 0 ∨ flags ≠ .noFlags then
    (njsRegexpPatternCreate lib (if start.length = 0 then lit "(?:)" else start) flags).mapError
      .pattern
  else .ok shared.emptyRegexpPattern

def njsRegexpConstructor (pattern : Argument Regex) (flags : Option Bytes) :
    Except RegexpError (Pattern Regex) := do
  let (string, reFlags) := match pattern with
    | .undefined => (none, RegexFlags.noFlags)
    | .string text => (some text, RegexFlags.noFlags)
    | .regexp pattern => (some (njsRegexpPrototypeSource pattern).start, pattern.flags)
  let reFlags ← match flags with
    | none => .ok reFlags
    | some string =>
      match njsRegexpFlags .noFlags string with
      | (some reFlags, []) => .ok reFlags
      | _ => .error (.invalidFlags string)
  njsRegexpCreate lib shared (string.getD []) reFlags

/-- The copy of `njs_regexp_prototype_symbol_split`, where the constructor for the species is the
one of regular expressions. -/
def splitCopy (rx : Pattern Regex) : Except RegexpError (Pattern Regex) :=
  let s := njsRegexpPrototypeFlags rx
  njsRegexpConstructor lib shared (.regexp rx) (some (if chr 'y' ∈ s then s else s ++ [chr 'y']))

/-! ### What is accepted once more -/

/-- What the loop looks at before a plus sign. -/
def Sees (before : Bytes) : Prop :=
  2 ≤ before.length ∧ before.getD 0 0 ∈ lit "+*?" ∧ before.getD 1 0 ≠ chr '\\'

/-- Before a plus sign at once or behind one more character, the loop sees no more in a text than in
another one. -/
structure Covers (before before' : Bytes) : Prop where
  sees : Sees before' → Sees before
  next : ∀ c, Sees (c :: before') → Sees (c :: before)

theorem sees_cons {c d : UInt8} {before : Bytes} :
    Sees (c :: d :: before) ↔ c ∈ lit "+*?" ∧ d ≠ chr '\\' :=
  and_iff_right (Nat.le_add_left _ _)

theorem covers_refl (before : Bytes) : Covers before before := ⟨id, fun _ => id⟩

theorem Covers.cons {before before' : Bytes} (h : Covers before before') (c : UInt8) :
    Covers (c :: before) (c :: before') :=
  ⟨h.next c, fun _ hd => sees_cons.2 (sees_cons.1 hd)⟩

theorem Covers.append {before before' : Bytes} (h : Covers before before') (l : Bytes) :
    Covers (l ++ before) (l ++ before') := by
  induction l with
  | nil => exact h
  | cons c l ih => exact ih.cons c

theorem covers_closed {c c' : UInt8} (hc : c ≠ chr '\\') (hc' : c' ∉ lit "+*?")
    (before before' : Bytes) : Covers (c :: before) (c' :: before') := by
  constructor
  · intro h
    exact absurd h.2.1 hc'
  · intro d h
    exact sees_cons.2 ⟨(sees_cons.1 h).1, hc⟩

theorem repeatLoop_plain {c : UInt8} (hc : c ∉ lit "[]\\+") (inside : Bool) (before p : Bytes) :
    repeatLoop inside before (c :: p) = repeatLoop inside (c :: before) p := by
  obtain ⟨hopen, hclose, hescape, hplus⟩ :
      c ≠ chr '[' ∧ c ≠ chr ']' ∧ c ≠ chr '\\' ∧ c ≠ chr '+' := by
    simpa [lit] using hc
  rw [repeatLoop.eq_def]
  simp only [hopen, hclose, hescape, hplus, if_false, false_and]

theorem repeatLoop_plus (inside : Bool) (before p : Bytes) :
    repeatLoop inside before (chr '+' :: p) = true ↔
      inside = false ∧ Sees before ∨ repeatLoop inside (chr '+' :: before) p = true := by
  cases inside with
  | false => rw [repeatLoop_outside (by decide) (by decide), Sees]; simp
  | true => rw [repeatLoop_inside (by decide) (by decide)]; simp

theorem exists_repeatLoop_body (body : Bytes) (hbody : chr ']' ∉ body) : ∃ inside, ∀ before r,
    repeatLoop true before (body ++ chr ']' :: r) =
      repeatLoop inside (chr ']' :: (body.reverse ++ before)) r := by
  match body with
  | [] => exact ⟨false, fun before r => repeatLoop_close true before r⟩
  | c :: body =>
    obtain ⟨hc, htail⟩ := not_or.1 (mt List.mem_cons.2 hbody)
    by_cases hescape : c = chr '\\'
    · subst hescape
      match body with
      | [] => exact ⟨true, fun before r => repeatLoop_escape true before r (chr ']')⟩
      | d :: body =>
        obtain ⟨inside, h⟩ := exists_repeatLoop_body body (not_or.1 (mt List.mem_cons.2 htail)).2
        refine ⟨inside, fun before r => ?_⟩
        rw [List.cons_append, List.cons_append, repeatLoop_escape, h]
        simp
    · obtain ⟨inside, h⟩ := exists_repeatLoop_body body htail
      refine ⟨inside, fun before r => ?_⟩
      rw [List.cons_append, repeatLoop_inside (Ne.symm hc) hescape, h]
      simp

theorem classParts_of_not_mem {p : Bytes} (hp : chr ']' ∉ p) : classParts p = none := by
  refine Option.eq_none_iff_forall_ne_some.2 fun x hx => hp ?_
  obtain ⟨rfl, -⟩ := classParts_eq_some hx
  exact List.mem_append_right _ List.mem_cons_self

theorem repeatLoop_written (p : Bytes) {inside inside' : Bool} {before before' : Bytes}
    (hinside : inside = true → inside' = true) (hbefore : Covers before before')
    (h : repeatLoop inside' before' (writeLoop p) = true) : repeatLoop inside before p = true := by
  fun_induction writeLoop p generalizing inside inside' before before' with
  | case1 => exact h
  | case2 p ih =>
    cases p with
    | nil =>
      rw [List.take_nil, List.drop_nil, writeLoop_nil] at h
      exact absurd h Bool.false_ne_true
    | cons d p =>
      change repeatLoop inside' before' (chr '\\' :: d :: writeLoop p) = true at h
      rw [repeatLoop_escape] at h ⊢
      exact ih hinside ((hbefore.cons _).cons d) h
  | case3 p hempty hc ih =>
    obtain ⟨q, rfl⟩ : ∃ q, p = chr ']' :: q := List.head?_eq_some_iff.1 hempty
    change repeatLoop inside' before' (chr '(' :: chr '?' :: chr '!' :: chr ')' :: _) = true at h
    rw [repeatLoop_plain (by decide), repeatLoop_plain (by decide), repeatLoop_plain (by decide),
      repeatLoop_plain (by decide)] at h
    rw [repeatLoop_open, repeatLoop_close]
    exact ih (fun h => absurd h Bool.false_ne_true) (covers_closed (by decide) (by decide) _ _) h
  | case4 p hempty hany hc ih =>
    obtain ⟨q, rfl⟩ : ∃ q, p = chr '^' :: chr ']' :: q :=
      ⟨p.drop 2, (List.take_append_drop 2 p).symm.trans (congrArg (· ++ _) hany)⟩
    change repeatLoop inside' before' (chr '[' :: chr '\\' :: chr 's' :: chr '\\' :: chr 'S' ::
      chr ']' :: _) = true at h
    rw [repeatLoop_open, repeatLoop_escape, repeatLoop_escape, repeatLoop_close] at h
    rw [repeatLoop_open, repeatLoop_inside (by decide) (by decide), repeatLoop_close]
    exact ih id (covers_closed (by decide) (by decide) _ _) h
  | case5 p hempty hany close hc =>
    rename_i ih
    have hbody : chr ']' ∉ p.takeWhile (· ≠ chr ']') := fun h => by
      simpa using List.mem_takeWhile_imp h
    have hp : p.takeWhile (· ≠ chr ']') ++ close = p := List.takeWhile_append_dropWhile
    cases hclose : close with
    | nil =>
      -- nothing is found in a class that is not closed
      rw [hclose, List.append_nil] at hp
      simp only [hclose, hp, List.take_nil, List.drop_nil, writeLoop_nil, List.append_nil] at h
      rw [repeatLoop_open, repeatLoop_unclosed (classParts_of_not_mem (hp ▸ hbody))] at h
      exact absurd h Bool.false_ne_true
    | cons d q =>
      have hd := List.head?_dropWhile_not (· ≠ chr ']') p
      rw [show p.dropWhile (· ≠ chr ']') = d :: q from hclose] at hd
      obtain rfl : d = chr ']' := by simpa using hd
      obtain ⟨inside₂, hleave⟩ := exists_repeatLoop_body _ hbody
      rw [hclose] at hp ih h
      have htext : (chr '[' :: p.takeWhile (· ≠ chr ']') ++ [chr ']'] ++ writeLoop q) =
          chr '[' :: (p.takeWhile (· ≠ chr ']') ++ chr ']' :: writeLoop q) := by simp
      change repeatLoop inside' before' (chr '[' :: p.takeWhile (· ≠ chr ']') ++ [chr ']'] ++
        writeLoop q) = true at h
      rw [htext, repeatLoop_open, hleave] at h
      rw [← hp, repeatLoop_open, hleave]
      exact ih id (((hbefore.cons _).append _).cons _) h
  | case6 c p hc hc' ih =>
    by_cases hclose : c = chr ']'
    · subst hclose
      rw [repeatLoop_close] at h ⊢
      exact ih id (hbefore.cons _) h
    by_cases hplus : c = chr '+'
    · subst hplus
      rw [repeatLoop_plus] at h ⊢
      refine h.imp (fun h => ⟨?_, hbefore.sees h.2⟩) (ih hinside (hbefore.cons _))
      exact Bool.eq_false_iff.2 fun htrue => absurd (hinside htrue) (Bool.eq_false_iff.1 h.1)
    · have hplain : c ∉ lit "[]\\+" := by
        simp [lit, hc, hc', hclose, hplus]
      rw [repeatLoop_plain hplain] at h ⊢
      exact ih hinside (hbefore.cons _) h

/-! ### The text of a pattern -/

theorem exists_bytes_replace {x y : List Char} (hx : x ≠ []) {q r : Bytes}
    (h : ∃ text, bytes text = q ++ (bytes x ++ r)) :
    ∃ text, bytes text = q ++ bytes y ++ r := by
  obtain ⟨text, htext⟩ := h
  rw [← List.append_assoc] at htext
  obtain ⟨l, r', rfl, rfl⟩ := Strings.exists_of_bytes_eq hx htext
  rw [bytes_append, bytes_append] at htext
  obtain rfl := List.append_cancel_left htext
  exact ⟨l ++ y ++ r', by rw [bytes_append, bytes_append]⟩

theorem exists_bytes_writeLoop (p : Bytes) {q : Bytes} (h : ∃ text, bytes text = q ++ p) :
    ∃ text, bytes text = q ++ writeLoop p := by
  fun_induction writeLoop p generalizing q with
  | case1 => exact h
  | case2 p ih =>
    have hq := @ih (q ++ chr '\\' :: p.take 1) (by
      rwa [List.append_assoc, List.cons_append, List.take_append_drop])
    simpa using hq
  | case3 p hempty hc ih =>
    obtain ⟨r, rfl⟩ : ∃ r, p = chr ']' :: r := List.head?_eq_some_iff.1 hempty
    have hq := ih (exists_bytes_replace (x := ['[', ']']) (y := ['(', '?', '!', ')'])
      (List.cons_ne_nil _ _) h)
    rwa [List.append_assoc] at hq
  | case4 p hempty hany hc ih =>
    obtain ⟨r, rfl⟩ : ∃ r, p = chr '^' :: chr ']' :: r :=
      ⟨p.drop 2, (List.take_append_drop 2 p).symm.trans (congrArg (· ++ _) hany)⟩
    have hq := ih (exists_bytes_replace (x := ['[', '^', ']'])
      (y := ['[', '\\', 's', '\\', 'S', ']']) (List.cons_ne_nil _ _) h)
    rwa [List.append_assoc] at hq
  | case5 p hempty hany close hc =>
    rename_i ih
    have hp : p = p.takeWhile (· ≠ chr ']') ++ (close.take 1 ++ close.drop 1) := by
      rw [List.take_append_drop]
      exact List.takeWhile_append_dropWhile.symm
    have hq := @ih (q ++ chr '[' :: p.takeWhile (· ≠ chr ']') ++ close.take 1) (by
      rw [hp] at h
      simpa using h)
    simpa using hq
  | case6 c p hc hc' ih =>
    have hq := @ih (q ++ [c]) (by simpa using h)
    simpa using hq

theorem forall_mem_writeLoop {P : UInt8 → Prop} (hwritten : ∀ c ∈ lit "(?!)[\\s\\S]", P c)
    {p : Bytes} (hp : ∀ c ∈ p, P c) : ∀ c ∈ writeLoop p, P c := by
  fun_induction writeLoop p with
  | case1 => exact hp
  | case2 p ih =>
    obtain ⟨hc, hp⟩ := List.forall_mem_cons.1 hp
    rw [List.cons_append, List.forall_mem_cons, List.forall_mem_append]
    exact ⟨hc, fun c h => hp c (List.mem_of_mem_take h), ih fun c h =>
      hp c (List.mem_of_mem_drop h)⟩
  | case3 p hempty hc ih =>
    rw [List.forall_mem_append]
    exact ⟨fun c h => hwritten c (List.mem_append_left (lit "[\\s\\S]") h),
      ih fun c h => hp c (List.mem_cons_of_mem _ (List.mem_of_mem_drop h))⟩
  | case4 p hempty hany hc ih =>
    rw [List.forall_mem_append]
    exact ⟨fun c h => hwritten c (List.mem_append_right (lit "(?!)") h),
      ih fun c h => hp c (List.mem_cons_of_mem _ (List.mem_of_mem_drop h))⟩
  | case5 p hempty hany close hc =>
    rename_i ih
    obtain ⟨hc, hp⟩ := List.forall_mem_cons.1 hp
    have hclose : ∀ c ∈ close, P c := fun c h => hp c ((List.dropWhile_sublist _).mem h)
    rw [List.cons_append, List.cons_append, List.forall_mem_cons, List.forall_mem_append,
      List.forall_mem_append]
    exact ⟨hc, ⟨fun c h => hp c ((List.takeWhile_sublist _).mem h),
      fun c h => hclose c (List.mem_of_mem_take h)⟩, ih fun c h =>
        hclose c (List.mem_of_mem_drop h)⟩
  | case6 c p hc hc' ih =>
    obtain ⟨hc, hp⟩ := List.forall_mem_cons.1 hp
    exact List.forall_mem_cons.2 ⟨hc, ih hp⟩

theorem ne_zero_of_mem_bytes {text : List Char} (h : '\x00' ∉ text) : ∀ b ∈ bytes text, b ≠ 0 := by
  intro b hb hzero
  obtain ⟨c, hc, hb⟩ := List.mem_flatMap.1 hb
  by_cases hlarge : 0x80 ≤ c.toNat
  · have := Strings.large_of_mem hlarge hb
    rw [hzero] at this
    exact absurd this (by decide)
  · obtain ⟨x, hx, hxc⟩ := Strings.utf8EncodeChar_ascii (Nat.lt_of_not_le hlarge)
    rw [hx, List.mem_singleton] at hb
    rw [← hb, hzero] at hxc
    have hnul : c = '\x00' := Char.toNat_inj.1 hxc.symm
    exact h (hnul ▸ hc)

theorem decodes_bytes (text : List Char) : Utf8.Decodes (bytes text) (text.map Char.toNat) := by
  induction text with
  | nil => exact .nil
  | cons c text ih =>
    rw [bytes_cons]
    exact .char (Strings.sequence_char c) ih

theorem encode_toNat (text : List Char) : Utf8.encode (text.map Char.toNat) = bytes text := by
  rw [Utf8.encode, List.flatMap_map, bytes]
  simp only [Char.ofNat_toNat]

theorem lengthLoop_false {passes : ℕ} {ctx ctx' : Query.UnicodeDecode} {size length : ℕ} {l : Bytes}
    {r : ℕ × ℕ} (h : lengthLoop true passes ctx size length l = (ctx', some r)) :
    lengthLoop false passes ctx size length l = (ctx', some r) := by
  induction passes generalizing ctx size length l with
  | zero => exact h
  | succ passes ih =>
    rw [lengthLoop] at h ⊢
    by_cases hl : l = []
    · rwa [if_pos hl] at h ⊢
    rw [if_neg hl] at h ⊢
    generalize Query.njsUtf8Decode ctx l = decoded at h ⊢
    obtain ⟨cp, ctx₁, rest⟩ := decoded
    dsimp only at h ⊢
    by_cases hmax : Query.njsUnicodeMaxCodepoint < cp
    · rw [if_pos hmax] at h ⊢
      by_cases hcontinue : cp = Query.njsUnicodeContinue
      · rwa [if_pos hcontinue] at h ⊢
      · rw [if_neg hcontinue, if_pos rfl] at h
        exact absurd (Prod.mk.inj h).2 (Option.some_ne_none r).symm
    · rw [if_neg hmax] at h ⊢
      exact ih h

theorem njsStringDecodeUtf8_bytes (text : List Char) :
    njsStringDecodeUtf8 (bytes text) = Strings.ofText text := by
  obtain ⟨ctx, ns, heq, -, hns⟩ :=
    Decoding.njsUtf8StreamEncode_part Decoding.after_init (bytes text) true
  have hdecode : ns = Utf8.decode (bytes text) := hns
  have hns := (Utf8.decodes_decode (bytes text)).unique (decodes_bytes text)
  have hpasses : text.length ≤ passesFor (bytes text) := by
    have := Strings.length_le_bytes text
    rw [passesFor]
    omega
  obtain ⟨ctx', size, hlength, hidle⟩ := Strings.lengthLoop_bytes text hpasses
    (show Query.Idle njsUtf8DecodeInit from ⟨rfl, rfl⟩) 0 0
  ext1
  · rw [njsStringDecodeUtf8, heq, hdecode, hns]
    exact encode_toNat text
  · rw [njsStringDecodeUtf8, njsUtf8StreamLength]
    simp only [lengthLoop_false hlength]
    rw [if_neg fun h => h.2 hidle.1, Nat.zero_add]
    rfl

/-! ### Flags -/

theorem ofLetter_letter (flag : Flag) : Flag.ofLetter flag.letter = some flag := by
  cases flag <;> rfl

theorem letter_of_ofLetter {c : UInt8} {flag : Flag} (h : Flag.ofLetter c = some flag) :
    flag.letter = c := by
  rw [Flag.ofLetter] at h
  split_ifs at h with h₁ h₂ h₃ h₄ <;> obtain rfl := Option.some.inj h <;> exact Eq.symm ‹_›

theorem has_add (flags : RegexFlags) (flag flag' : Flag) :
    (flags.add flag).has flag' = (decide (flag' = flag) || flags.has flag') := by
  cases flag <;> cases flag' <;> rfl

theorem RegexFlags.ext_has {flags flags' : RegexFlags} (h : ∀ flag,
    flags.has flag = flags'.has flag) :
    flags = flags' :=
  RegexFlags.ext (h .global) (h .ignoreCase) (h .multiline) (h .sticky)

theorem njsRegexpFlags_iff (flags flags' : RegexFlags) (p : Bytes) :
    njsRegexpFlags flags p = (some flags', []) ↔
      ∃ l : List Flag, p = l.map Flag.letter ∧ l.Nodup ∧ (∀ flag ∈ l, flags.has flag = false) ∧
        ∀ flag, flags'.has flag = (decide (flag ∈ l) || flags.has flag) := by
  induction p generalizing flags with
  | nil =>
    rw [njsRegexpFlags]
    constructor
    · intro h
      obtain rfl := Option.some.inj (Prod.mk.inj h).1
      exact ⟨[], rfl, List.nodup_nil, by simp, by simp⟩
    · rintro ⟨l, hl, -, -, hflags⟩
      obtain rfl := List.map_eq_nil_iff.1 hl.symm
      obtain rfl : flags' = flags := RegexFlags.ext_has fun flag => (hflags flag).trans (by simp)
      rfl
  | cons c p ih =>
    rw [njsRegexpFlags]
    cases hc : Flag.ofLetter c with
    | none =>
      refine iff_of_false ?_ ?_
      · dsimp only
        split_ifs <;> simp
      · rintro ⟨l, hl, -⟩
        obtain ⟨flag, l, -, rfl, -⟩ := List.map_eq_cons_iff.1 hl.symm
        rw [ofLetter_letter] at hc
        exact Option.some_ne_none _ hc
    | some flag =>
      obtain rfl := letter_of_ofLetter hc
      dsimp only
      split_ifs with hhas
      · refine iff_of_false (by simp) ?_
        rintro ⟨l, hl, -, hnone, -⟩
        obtain ⟨flag', l, rfl, hletter, -⟩ := List.map_eq_cons_iff.1 hl.symm
        have heq : some flag' = some flag := by
          rw [← ofLetter_letter flag', hletter, ofLetter_letter]
        have hfalse := hnone flag' List.mem_cons_self
        rw [Option.some.inj heq, hhas] at hfalse
        exact Bool.true_eq_false_eq_False hfalse
      rw [ih]
      constructor
      · rintro ⟨l, rfl, hnodup, hnone, hflags⟩
        have hflag : flag ∉ l := fun h => by simpa [has_add] using hnone flag h
        refine ⟨flag :: l, rfl, List.nodup_cons.2 ⟨hflag, hnodup⟩, ?_, fun flag' => ?_⟩
        · intro flag' hmem
          obtain rfl | hmem := List.mem_cons.1 hmem
          · exact Bool.eq_false_iff.2 hhas
          · have hadd := hnone flag' hmem
            rw [has_add, Bool.or_eq_false_iff] at hadd
            exact hadd.2
        · rw [hflags, has_add]
          by_cases h : flag' = flag <;> simp [h]
      rintro ⟨l, hl, hnodup, hnone, hflags⟩
      obtain ⟨flag', l, rfl, hletter, rfl⟩ := List.map_eq_cons_iff.1 hl.symm
      obtain rfl : flag' = flag := by
        rw [← Option.some_inj, ← ofLetter_letter flag', hletter, ofLetter_letter]
      obtain ⟨hflag, hnodup⟩ := List.nodup_cons.1 hnodup
      refine ⟨l, rfl, hnodup, fun x hx => ?_, fun x => ?_⟩
      · rw [has_add, hnone x (List.mem_cons_of_mem _ hx), Bool.or_false]
        exact decide_eq_false fun h => hflag (h ▸ hx)
      · rw [hflags, has_add]
        by_cases h : x = flag' <;> simp [h]

/-- All flags, in the order of `njs_regexp_prototype_flags`. -/
def flagsOf (flags : RegexFlags) : List Flag :=
  [.global, .ignoreCase, .multiline, .sticky].filter flags.has

theorem mem_flagsOf {flags : RegexFlags} {flag : Flag} :
    flag ∈ flagsOf flags ↔ flags.has flag = true := by
  rw [flagsOf, List.mem_filter, and_iff_right]
  cases flag <;> decide

theorem nodup_flagsOf (flags : RegexFlags) : (flagsOf flags).Nodup :=
  List.Nodup.filter _ (by decide)

theorem njsRegexpFlags_flagsOf (flags : RegexFlags) :
    njsRegexpFlags .noFlags ((flagsOf flags).map Flag.letter) = (some flags, []) := by
  obtain ⟨global, ignoreCase, multiline, sticky⟩ := flags
  cases global <;> cases ignoreCase <;> cases multiline <;> cases sticky <;> rfl

/-- The flags of the copy that `split` makes. -/
theorem njsRegexpFlags_sticky (flags : RegexFlags) {s : Bytes}
    (hs : (flagsOf flags).map Flag.letter = s) :
    njsRegexpFlags .noFlags (if chr 'y' ∈ s then s else s ++ [chr 'y']) =
      (some { flags with sticky := true }, []) := by
  obtain ⟨global, ignoreCase, multiline, sticky⟩ := flags
  subst hs
  cases global <;> cases ignoreCase <;> cases multiline <;> cases sticky <;> rfl

theorem flagsOf_perm {flags : RegexFlags} {p : Bytes}
    (h : njsRegexpFlags .noFlags p = (some flags, [])) :
    ((flagsOf flags).map Flag.letter).Perm p := by
  obtain ⟨l, rfl, hnodup, -, hflags⟩ := (njsRegexpFlags_iff _ _ _).1 h
  refine List.Perm.map _ ((List.perm_ext_iff_of_nodup (nodup_flagsOf flags) hnodup).2 fun flag =>
    ?_)
  rw [mem_flagsOf, hflags]
  cases flag <;> simp [RegexFlags.has, RegexFlags.noFlags]

/-! ### The pattern of a regular expression -/

variable {lib : Library Regex} {shared : Shared lib} {r : Pattern Regex}

def Pattern.text (r : Pattern Regex) : Bytes := r.source.dropLast

theorem compileText_ok {text : Bytes} {flags : RegexFlags}
    (h : compileText lib text flags = .ok r) : r.source = text ++ [0] ∧ r.flags = flags := by
  revert h
  rw [compileText]
  cases lib.compile text flags false <;> cases lib.compile text flags true <;>
    simp only [bind, Except.bind] <;> (try split_ifs) <;> rintro ⟨⟩ <;> exact ⟨rfl, rfl⟩

/-- A pattern that is compiled from the characters of a text that is accepted and not changed once
more. -/
structure Made (lib : Library Regex) (t : List Char) (flags : RegexFlags) (r : Pattern Regex) :
    Prop where
  compiled : compileText lib (bytes t) flags = .ok r
  ne_nil : t ≠ []
  accepted : repeatLoop false [] (bytes t) = false
  written : writeLoop (bytes t) = bytes t
  no_nul : ∀ b ∈ bytes t, b ≠ 0

theorem exists_made {start : Bytes} {t : List Char} (ht : t ≠ []) (hstart : start = bytes t)
    (hnul : ∀ b ∈ start, b ≠ 0) {flags : RegexFlags}
    (h : njsRegexpPatternCreate lib start flags = .ok r) : ∃ t, Made lib t flags r := by
  rw [njsRegexpPatternCreate, njsRegexEscape_eq] at h
  split_ifs at h with hrepeat
  obtain ⟨t', ht'⟩ := exists_bytes_writeLoop start (q := []) ⟨t, hstart.symm⟩
  have ht' : bytes t' = writeLoop start := ht'
  refine ⟨t', ⟨?_, ?_, ?_, ?_, ?_⟩⟩
  · rw [ht']
    exact h
  · rintro rfl
    have hlength := congrArg List.length ht'
    have hpos := List.length_pos_iff.2 ht
    have hle := Strings.length_le_bytes t
    rw [length_write, hstart] at hlength
    change 0 = _ at hlength
    omega
  · rw [ht']
    exact Bool.eq_false_iff.2 fun h => hrepeat (repeatLoop_written start id (covers_refl []) h)
  · rw [ht', writeLoop_twice]
  · rw [ht']
    exact forall_mem_writeLoop (by decide +kernel) hnul

theorem njsRegexpCreate_eq (start : Bytes) (flags : RegexFlags) :
    njsRegexpCreate lib shared start flags =
      (njsRegexpPatternCreate lib (if start = [] then lit "(?:)" else start) flags).mapError
        .pattern := by
  by_cases hempty : start = []
  · subst hempty
    by_cases hflags : flags = .noFlags
    · rw [njsRegexpCreate, if_neg (by simp [hflags]), if_pos rfl, hflags, shared.created]
      rfl
    · rw [njsRegexpCreate, if_pos (.inr hflags)]
      rfl
  · have hlength : start.length ≠ 0 := mt List.length_eq_zero_iff.1 hempty
    rw [njsRegexpCreate, if_pos (.inl hlength), if_neg hlength, if_neg hempty]

theorem njsRegexpConstructor_string {f : Bytes} {flags : RegexFlags}
    (hf : njsRegexpFlags .noFlags f = (some flags, [])) (start : Bytes) :
    njsRegexpConstructor lib shared (.string start) (some f) =
      njsRegexpCreate lib shared start flags := by
  rw [njsRegexpConstructor, hf]
  rfl

theorem njsRegexpConstructor_regexp {f : Bytes} {flags : RegexFlags}
    (hf : njsRegexpFlags .noFlags f = (some flags, [])) :
    njsRegexpConstructor lib shared (.regexp r) (some f) =
      njsRegexpCreate lib shared (njsRegexpPrototypeSource r).start flags := by
  rw [njsRegexpConstructor, hf]
  rfl

theorem exists_flags {start f : Bytes}
    (h : njsRegexpConstructor lib shared (.string start) (some f) = .ok r) :
    ∃ flags, njsRegexpFlags .noFlags f = (some flags, []) := by
  rw [njsRegexpConstructor] at h
  rcases hf : njsRegexpFlags .noFlags f with ⟨_ | flags, _ | ⟨c, p⟩⟩
  · rw [hf] at h
    exact nomatch h
  · rw [hf] at h
    exact nomatch h
  · exact ⟨flags, rfl⟩
  · rw [hf] at h
    exact nomatch h

theorem mapError_eq_ok {ε ε' α : Type} {g : ε → ε'} {x : Except ε α} {a : α}
    (h : x.mapError g = .ok a) : x = .ok a := by
  cases x with
  | error e => exact nomatch h
  | ok b => exact congrArg _ (Except.ok.inj h)

theorem made_of_constructor {text : List Char} (hnul : '\x00' ∉ text) {f : Bytes}
    {flags : RegexFlags} (hf : njsRegexpFlags .noFlags f = (some flags, []))
    (h : njsRegexpConstructor lib shared (.string (bytes text)) (some f) = .ok r) :
    ∃ t, Made lib t flags r := by
  rw [njsRegexpConstructor_string hf, njsRegexpCreate_eq] at h
  have h := mapError_eq_ok h
  split_ifs at h with hempty
  · exact exists_made (t := ['(', '?', ':', ')']) (List.cons_ne_nil _ _) rfl (by decide +kernel) h
  · refine exists_made (t := text) ?_ rfl (ne_zero_of_mem_bytes hnul) h
    rintro rfl
    exact hempty rfl

namespace Made

variable {t : List Char} {flags : RegexFlags}

theorem source_eq (h : Made lib t flags r) : (njsRegexpPrototypeSource r).start = bytes t := by
  have htake : (bytes t ++ [0]).takeWhile (· ≠ 0) = bytes t := by
    rw [List.takeWhile_append_of_pos (fun b hb => decide_eq_true (h.no_nul b hb))]
    simp
  rw [njsRegexpPrototypeSource, (compileText_ok h.compiled).1, htake, njsStringDecodeUtf8_bytes]
  rfl

theorem flags_eq (h : Made lib t flags r) : r.flags = flags := (compileText_ok h.compiled).2

theorem text_eq (h : Made lib t flags r) : r.text = bytes t := by
  rw [Pattern.text, (compileText_ok h.compiled).1, List.dropLast_concat]

theorem create (h : Made lib t flags r) (shared : Shared lib) (flags' : RegexFlags) :
    njsRegexpCreate lib shared (njsRegexpPrototypeSource r).start flags' =
      (compileText lib r.text flags').mapError .pattern := by
  have hne : bytes t ≠ [] := mt Strings.bytes_eq_nil_iff.1 h.ne_nil
  rw [njsRegexpCreate_eq, h.source_eq, if_neg hne, njsRegexpPatternCreate, h.accepted,
    njsRegexEscape_eq, h.written, h.text_eq]
  rfl

end Made

/-- A regular expression is made again: from its source with its flags, from itself, and as the copy
of `split`, with given flags; and its flags are the ones that were given. -/
structure Rebuilt (lib : Library Regex) (shared : Shared lib) (f : Bytes) (splitFlags : RegexFlags)
    (r : Pattern Regex) : Prop where
  compiled : compileText lib r.text r.flags = .ok r
  rebuilt : njsRegexpConstructor lib shared (.string (njsRegexpPrototypeSource r).start)
    (some (njsRegexpPrototypeFlags r)) = .ok r
  copied : njsRegexpConstructor lib shared (.regexp r) none = .ok r
  split : splitCopy lib shared r = (compileText lib r.text splitFlags).mapError .pattern
  flags : (njsRegexpPrototypeFlags r).Perm f

/-- A regular expression whose pattern has no NUL character is made again, and the copy of `split`
is sticky. -/
theorem rebuilt (lib : Library Regex) (shared : Shared lib) (text : List Char)
    (hnul : '\x00' ∉ text) (f : Bytes) (r : Pattern Regex)
    (h : njsRegexpConstructor lib shared (.string (bytes text)) (some f) = .ok r) :
    Rebuilt lib shared f { r.flags with sticky := true } r := by
  obtain ⟨flags, hf⟩ := exists_flags h
  obtain ⟨t, hmade⟩ := made_of_constructor hnul hf h
  obtain rfl := hmade.flags_eq
  have hcompiled : compileText lib r.text r.flags = .ok r := by
    rw [hmade.text_eq]
    exact hmade.compiled
  have hcreate : njsRegexpCreate lib shared (njsRegexpPrototypeSource r).start r.flags = .ok r := by
    rw [hmade.create, hcompiled]
    rfl
  refine ⟨hcompiled, ?_, hcreate, ?_, flagsOf_perm hf⟩
  · exact (njsRegexpConstructor_string (njsRegexpFlags_flagsOf r.flags) _).trans hcreate
  · exact (njsRegexpConstructor_regexp (njsRegexpFlags_sticky r.flags rfl)).trans
      (hmade.create shared _)

def compiledAll (text : Bytes) : Pattern Unit := ⟨text ++ [0], .noFlags, (some (), some ()), 1, []⟩

theorem njsRegexpPatternCreate_all {text : Bytes} (hrepeat : repeatLoop false [] text = false)
    (htext : ∀ c ∈ text, c ≠ chr '\\' ∧ c ≠ chr '[') :
    njsRegexpPatternCreate compilesAll text .noFlags = .ok (compiledAll text) := by
  have hwrite := writeLoop_append htext []
  rw [writeLoop_nil, List.append_nil] at hwrite
  rw [njsRegexpPatternCreate, hrepeat, njsRegexEscape_eq, hwrite]
  rfl

def sharedAll : Shared compilesAll :=
  ⟨compiledAll (lit "(?:)"), njsRegexpPatternCreate_all (by decide +kernel) (by decide +kernel)⟩

theorem njsRegexpConstructor_all {text : Bytes} (hempty : text ≠ [])
    (hrepeat : repeatLoop false [] text = false)
    (htext : ∀ c ∈ text, c ≠ chr '\\' ∧ c ≠ chr '[') :
    njsRegexpConstructor compilesAll sharedAll (.string text) (some []) =
      .ok (compiledAll text) := by
  have hcreate := njsRegexpPatternCreate_all hrepeat htext
  have hflags : njsRegexpFlags .noFlags [] = (some .noFlags, []) := rfl
  rw [njsRegexpConstructor_string hflags, njsRegexpCreate_eq, if_neg hempty]
  exact congrArg (Except.mapError RegexpError.pattern) hcreate

/-- The pattern `a` without flags. -/
theorem rebuilt_letter : njsRegexpConstructor compilesAll sharedAll
      (.string (bytes ['a'])) (some []) = .ok (compiledAll (lit "a")) ∧
    Rebuilt compilesAll sharedAll [] { RegexFlags.noFlags with sticky := true }
      (compiledAll (lit "a")) :=
  have h := njsRegexpConstructor_all (by decide +kernel) (by decide +kernel) (by decide +kernel)
  ⟨h, rebuilt _ _ ['a'] (by decide) _ _ h⟩

/-- The copy that `split` makes of `/a/` has one more flag, and a pattern is cut at a NUL
character. -/
theorem not_rebuilt : (¬∀ text f r, njsRegexpConstructor compilesAll sharedAll
      (.string (bytes text)) (some f) = .ok r → Rebuilt compilesAll sharedAll f r.flags r) ∧
    ¬∀ text f r, njsRegexpConstructor compilesAll sharedAll (.string (bytes text)) (some f) =
      .ok r → Rebuilt compilesAll sharedAll f { r.flags with sticky := true } r := by
  have hletter := @njsRegexpConstructor_all (lit "a")
    (by decide +kernel) (by decide +kernel) (by decide +kernel)
  constructor
  · intro h
    have hsplit := (h ['a'] [] _ hletter).split
    have hsticky : njsRegexpConstructor compilesAll sharedAll (.regexp (compiledAll (lit "a")))
        (some _) = _ :=
      njsRegexpConstructor_regexp (njsRegexpFlags_sticky .noFlags rfl)
    obtain ⟨t, hmade⟩ := made_of_constructor (show '\x00' ∉ ['a'] by decide) rfl hletter
    rw [hmade.create sharedAll] at hsticky
    have hflags := congrArg (fun x => x.toOption.map Pattern.flags) (hsticky.symm.trans hsplit)
    exact absurd hflags (by decide)
  intro h
  have hnul := @njsRegexpConstructor_all [chr 'a', 0]
    (by decide +kernel) (by decide +kernel) (by decide +kernel)
  have hrebuilt := (h ['a', '\x00'] [] _ hnul).rebuilt
  have hsource : (njsRegexpPrototypeSource (compiledAll [chr 'a', 0])).start = lit "a" :=
    congrArg StringProp.start (njsStringDecodeUtf8_bytes ['a'])
  rw [hsource] at hrebuilt
  have hsame := congrArg (Except.map Pattern.source) (hletter.symm.trans hrebuilt)
  exact absurd hsame (by decide)

end Njs.Regexp
