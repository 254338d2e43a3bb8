import Mathlib.Data.List.TakeWhile
import Njs.Lib.Text

/-!
# Patterns as JavaScript reads them

A pattern is read from left to right as escape pairs, character classes, whose members may be escape
pairs, and other characters. A class that is never closed and a backslash without a character behind
it are kept as they are, so that each pattern has one reading and the reading has its text.
-/

namespace Njs.Regexp

open Text

/-- A member of a character class. -/
inductive Part where
  | escape (c : UInt8)
  | plain (c : UInt8)
  deriving DecidableEq

/-- A part of a pattern. -/
inductive Token where
  | escape (c : UInt8)
  | cls (parts : List Part)
  | other (c : UInt8)
  | unclosed (rest : Bytes)
  | backslash
  deriving DecidableEq

def Part.text : Part → Bytes
  | escape c => [chr '\\', c]
  | plain c => [c]

def Token.text : Token → Bytes
  | escape c => [chr '\\', c]
  | cls parts => chr '[' :: parts.flatMap Part.text ++ [chr ']']
  | other c => [c]
  | unclosed rest => chr '[' :: rest
  | backslash => [chr '\\']

/-- The members of a class up to its closing bracket, and what is behind it. -/
def classParts : Bytes → Option (List Part × Bytes)
  | [] => none
  | c :: p =>
    if c = chr ']' then some ([], p)
    else if c = chr '\\' then
      match p with
      | [] => none
      | d :: p => (classParts p).map fun r => (.escape d :: r.1, r.2)
    else (classParts p).map fun r => (.plain c :: r.1, r.2)

theorem classParts_close (p : Bytes) : classParts (chr ']' :: p) = some ([], p) := by
  rw [classParts.eq_def]
  exact if_pos rfl

theorem classParts_plain {c : UInt8} (hc : c ≠ chr ']') (hc' : c ≠ chr '\\') (p : Bytes) :
    classParts (c :: p) = (classParts p).map fun r => (.plain c :: r.1, r.2) := by
  rw [classParts.eq_def]
  exact (if_neg hc).trans (if_neg hc')

/-- A member of a class is an escape pair or neither a backslash nor a closing bracket. -/
def Part.WellFormed : Part → Prop
  | escape _ => True
  | plain c => c ≠ chr '\\' ∧ c ≠ chr ']'

theorem classParts_eq_some {p rest : Bytes} {parts : List Part}
    (h : classParts p = some (parts, rest)) :
    p = parts.flatMap Part.text ++ chr ']' :: rest ∧ ∀ x ∈ parts, x.WellFormed := by
  fun_induction classParts p generalizing parts with
  | case1 => exact absurd h (by simp)
  | case2 p =>
    obtain ⟨rfl, rfl⟩ := Prod.ext_iff.1 (Option.some.inj h)
    exact ⟨rfl, by simp⟩
  | case3 => exact absurd h (by simp)
  | case4 hc d p ih =>
    obtain ⟨⟨parts, rest'⟩, hp, heq⟩ := Option.map_eq_some_iff.1 h
    obtain ⟨rfl, rfl⟩ := Prod.ext_iff.1 heq
    obtain ⟨rfl, hparts⟩ := ih hp
    exact ⟨rfl, List.forall_mem_cons.2 ⟨trivial, hparts⟩⟩
  | case5 c p hc hc' ih =>
    obtain ⟨⟨parts, rest'⟩, hp, heq⟩ := Option.map_eq_some_iff.1 h
    obtain ⟨rfl, rfl⟩ := Prod.ext_iff.1 heq
    obtain ⟨rfl, hparts⟩ := ih hp
    exact ⟨rfl, List.forall_mem_cons.2 ⟨⟨hc', hc⟩, hparts⟩⟩

theorem length_lt_of_classParts {p rest : Bytes} {parts : List Part}
    (h : classParts p = some (parts, rest)) : rest.length < p.length := by
  rw [(classParts_eq_some h).1, List.length_append, List.length_cons]
  omega

/-- The parts of a pattern. -/
def tokens (p : Bytes) : List Token :=
  match p with
  | [] => []
  | c :: p =>
    if c = chr '\\' then
      match p with
      | [] => [.backslash]
      | d :: p => .escape d :: tokens p
    else if c = chr '[' then
      match _hp : classParts p with
      | none => [.unclosed p]
      | some (parts, rest) => .cls parts :: tokens rest
    else .other c :: tokens p
termination_by p.length
decreasing_by
  · exact Nat.lt_add_right 1 (Nat.lt_succ_self _)
  · exact Nat.lt_succ_of_lt (length_lt_of_classParts _hp)
  · exact Nat.lt_succ_self _

theorem tokens_nil : tokens [] = [] := by rw [tokens]

theorem tokens_cls {p rest : Bytes} {parts : List Part} (hp : classParts p = some (parts, rest)) :
    tokens (chr '[' :: p) = .cls parts :: tokens rest := by
  rw [tokens.eq_def]
  simp only [if_neg (by decide : chr '[' ≠ chr '\\'), if_true]
  split
  · next hnone => exact absurd (hp.symm.trans hnone) (Option.some_ne_none _)
  · next hsome =>
    obtain ⟨rfl, rfl⟩ := Prod.ext_iff.1 (Option.some.inj (hp.symm.trans hsome))
    rfl

/-- What a part is made of, where there is more behind it. -/
def Token.Inner : Token → Prop
  | escape _ => True
  | cls parts => ∀ x ∈ parts, x.WellFormed
  | other c => c ≠ chr '\\' ∧ c ≠ chr '['
  | unclosed _ => False
  | backslash => False

abbrev emptyClass : List Part := []
abbrev anyClass : List Part := [.plain (chr '^')]

/-- A part with the empty classes as PCRE2 has them. -/
def Token.translate : Token → Bytes
  | cls parts =>
    if parts = emptyClass then lit "(?!)"
    else if parts = anyClass then lit "[\\s\\S]"
    else (cls parts).text
  | t => t.text

end Njs.Regexp

/-!
## Empty classes for PCRE2

`njs_regex_escape` writes the empty classes of a pattern in a form that PCRE2 accepts. It looks for
the end of a class without regard to escapes, so that it leaves a class at an escaped bracket and
goes on in the middle of it.
-/

namespace Njs.Regexp

open Text

/-! ### The code -/

/-- The counts of `njs_regex_escape`. -/
@[ext]
structure Counts where
  anychars : ℕ
  nomatches : ℕ
  deriving DecidableEq

/-- The counting loop of `njs_regex_escape`. -/
def countLoop (p : Bytes) : Counts :=
  match p with
  | [] => ⟨0, 0⟩
  | c :: p =>
    if c = chr '\\' then countLoop (p.drop 1)
    else if c = chr '[' then
      if p.head? = some (chr ']') then
        let n := countLoop (p.drop 1)
        { n with nomatches := n.nomatches + 1 }
      else if p.take 2 = [chr '^', chr ']'] then
        let n := countLoop (p.drop 2)
        { n with anychars := n.anychars + 1 }
      else countLoop ((p.dropWhile (· ≠ chr ']')).drop 1)
    else countLoop p
termination_by p.length
decreasing_by
  all_goals simp only [List.length_drop, List.length_cons]
  all_goals have := (List.dropWhile_sublist (· ≠ chr ']') (l := p)).length_le
  all_goals omega

/-- The writing loop of `njs_regex_escape`. -/
def writeLoop (p : Bytes) : Bytes :=
  match p with
  | [] => []
  | c :: p =>
    if c = chr '\\' then c :: p.take 1 ++ writeLoop (p.drop 1)
    else if c = chr '[' then
      if p.head? = some (chr ']') then lit "(?!)" ++ writeLoop (p.drop 1)
      else if p.take 2 = [chr '^', chr ']'] then lit "[\\s\\S]" ++ writeLoop (p.drop 2)
      else
        let close := p.dropWhile (· ≠ chr ']')
        c :: p.takeWhile (· ≠ chr ']') ++ close.take 1 ++ writeLoop (close.drop 1)
    else c :: writeLoop p
termination_by p.length
decreasing_by
  all_goals simp only [List.length_drop, List.length_cons]
  all_goals try have := (List.dropWhile_sublist (· ≠ chr ']') (l := p)).length_le
  all_goals omega

/-- A text, with the length that was counted for it. -/
structure Str where
  start : Bytes
  length : ℕ
  deriving DecidableEq

def njsRegexEscape (text : Bytes) : Str :=
  let n := countLoop text
  if n.anychars = 0 ∧ n.nomatches = 0 then ⟨text, text.length⟩
  else
    ⟨writeLoop text, text.length + n.anychars * ((lit "\\s\\S").length - (lit "^").length) +
      n.nomatches * (lit "?!").length⟩

/-! ### The two passes -/

theorem length_write (p : Bytes) : (writeLoop p).length =
    p.length + (countLoop p).anychars * 3 + (countLoop p).nomatches * 2 := by
  fun_induction writeLoop p with
  | case1 => simp [countLoop]
  | case2 p ih =>
    rw [countLoop, if_pos rfl, List.length_append, ih]
    simp only [List.length_cons, List.length_take, List.length_drop]
    omega
  | case3 p hempty hc ih =>
    obtain ⟨q, rfl⟩ : ∃ q, p = chr ']' :: q := List.head?_eq_some_iff.1 hempty
    rw [countLoop, if_neg hc, if_pos rfl, if_pos hempty, List.length_append, ih]
    simp [lit]
    omega
  | case4 p hempty hany hc ih =>
    rw [countLoop, if_neg hc, if_pos rfl, if_neg hempty, if_pos hany, List.length_append, ih]
    have hlength : 2 ≤ p.length := by
      have := congrArg List.length hany
      simp at this
      omega
    simp [lit]
    omega
  | case5 p hempty hany close hc ih =>
    have hlength : (p.takeWhile (· ≠ chr ']')).length + close.length = p.length := by
      rw [← List.length_append, List.takeWhile_append_dropWhile]
    rw [countLoop, if_neg hc, if_pos rfl, if_neg hempty, if_neg hany, List.length_append, ih]
    simp only [List.length_append, List.length_cons, List.length_take, List.length_drop]
    change _ + min 1 close.length + _ = _ + 1 + (countLoop (close.drop 1)).anychars * 3 +
      (countLoop (close.drop 1)).nomatches * 2
    omega
  | case6 c p hc hc' ih =>
    rw [countLoop, if_neg hc, if_neg hc', List.length_cons, List.length_cons, ih]
    omega

theorem writeLoop_of_count {p : Bytes} (hany : (countLoop p).anychars = 0)
    (hempty : (countLoop p).nomatches = 0) : writeLoop p = p := by
  fun_induction writeLoop p with
  | case1 => rfl
  | case2 p ih =>
    rw [countLoop, if_pos rfl] at hany hempty
    rw [ih hany hempty, List.cons_append, List.take_append_drop]
  | case3 p h hc ih =>
    rw [countLoop, if_neg hc, if_pos rfl, if_pos h] at hempty
    exact absurd hempty (Nat.succ_ne_zero _)
  | case4 p h h' hc ih =>
    rw [countLoop, if_neg hc, if_pos rfl, if_neg h, if_pos h'] at hany
    exact absurd hany (Nat.succ_ne_zero _)
  | case5 p h h' close hc ih =>
    rw [countLoop, if_neg hc, if_pos rfl, if_neg h, if_neg h'] at hany hempty
    rw [ih hany hempty, List.append_assoc, List.take_append_drop, List.cons_append,
      List.takeWhile_append_dropWhile]
  | case6 c p hc hc' ih =>
    rw [countLoop, if_neg hc, if_neg hc'] at hany hempty
    rw [ih hany hempty]

/-- What `njs_regex_escape` makes of a text. -/
theorem njsRegexEscape_eq (p : Bytes) : njsRegexEscape p = ⟨writeLoop p, (writeLoop p).length⟩ := by
  rw [njsRegexEscape]
  split_ifs with h
  · rw [writeLoop_of_count h.1 h.2]
  · rw [length_write]
    rfl

theorem length_njsRegexEscape (p : Bytes) :
    (njsRegexEscape p).length = (njsRegexEscape p).start.length := by
  rw [njsRegexEscape_eq]

/-! ### The writing loop on the parts of a pattern -/

/-- What is written behind the opening bracket of a class. -/
def copyClass (p : Bytes) : Bytes :=
  let close := p.dropWhile (· ≠ chr ']')
  p.takeWhile (· ≠ chr ']') ++ close.take 1 ++ writeLoop (close.drop 1)

theorem writeLoop_nil : writeLoop [] = [] := by rw [writeLoop]

theorem writeLoop_escape (c : UInt8) (p : Bytes) :
    writeLoop (chr '\\' :: c :: p) = chr '\\' :: c :: writeLoop p := by
  rw [writeLoop, if_pos rfl]
  rfl

theorem writeLoop_backslash : writeLoop [chr '\\'] = [chr '\\'] := by
  rw [writeLoop, if_pos rfl, List.drop_nil, writeLoop_nil]
  rfl

theorem writeLoop_other {c : UInt8} (hc : c ≠ chr '\\') (hc' : c ≠ chr '[') (p : Bytes) :
    writeLoop (c :: p) = c :: writeLoop p := by
  rw [writeLoop, if_neg hc, if_neg hc']

theorem writeLoop_empty (p : Bytes) :
    writeLoop (chr '[' :: chr ']' :: p) = lit "(?!)" ++ writeLoop p := by
  rw [writeLoop, if_neg (by decide), if_pos rfl, if_pos (by rfl)]
  rfl

theorem writeLoop_any (p : Bytes) :
    writeLoop (chr '[' :: chr '^' :: chr ']' :: p) = lit "[\\s\\S]" ++ writeLoop p := by
  have hempty : (chr '^' :: chr ']' :: p).head? ≠ some (chr ']') :=
    fun h => absurd (Option.some.inj h) (by decide)
  rw [writeLoop, if_neg (by decide), if_pos rfl, if_neg hempty, if_pos (by rfl)]
  rfl

theorem writeLoop_class {p : Bytes} (hempty : p.head? ≠ some (chr ']'))
    (hany : p.take 2 ≠ [chr '^', chr ']']) : writeLoop (chr '[' :: p) = chr '[' :: copyClass p := by
  rw [writeLoop, if_neg (by decide), if_pos rfl, if_neg hempty, if_neg hany, copyClass]
  rfl

theorem copyClass_nil : copyClass [] = [] := by
  rw [copyClass, List.dropWhile_nil, List.drop_nil, writeLoop_nil]
  rfl

theorem copyClass_close (p : Bytes) : copyClass (chr ']' :: p) = chr ']' :: writeLoop p := by
  rw [copyClass, List.dropWhile_cons_of_neg (by simp), List.takeWhile_cons_of_neg (by simp)]
  rfl

theorem copyClass_cons {c : UInt8} (hc : c ≠ chr ']') (p : Bytes) :
    copyClass (c :: p) = c :: copyClass p := by
  rw [copyClass, List.dropWhile_cons_of_pos (by simpa using hc),
    List.takeWhile_cons_of_pos (by simpa using hc), copyClass]
  rfl

theorem copyClass_append {body : Bytes} (hbody : chr ']' ∉ body) (p : Bytes) :
    copyClass (body ++ p) = body ++ copyClass p := by
  induction body with
  | nil => rfl
  | cons c body ih =>
    obtain ⟨hc, hbody⟩ := not_or.1 (mt List.mem_cons.2 hbody)
    rw [List.cons_append, copyClass_cons (Ne.symm hc), ih hbody, List.cons_append]

theorem writeLoop_append {body : Bytes} (hbody : ∀ c ∈ body, c ≠ chr '\\' ∧ c ≠ chr '[')
    (p : Bytes) : writeLoop (body ++ p) = body ++ writeLoop p := by
  induction body with
  | nil => rfl
  | cons c body ih =>
    obtain ⟨hc, hbody⟩ := List.forall_mem_cons.1 hbody
    rw [List.cons_append, writeLoop_other hc.1 hc.2, ih hbody, List.cons_append]

/-! ### The ends of classes -/

variable {parts : List Part}

theorem head?_class (hparts : ∀ c, Part.plain c ∈ parts → c ≠ chr ']') (p : Bytes) :
    (parts.flatMap Part.text ++ chr ']' :: p).head? = some (chr ']') ↔ parts = emptyClass := by
  obtain - | ⟨x, parts⟩ := parts
  · exact iff_of_true rfl rfl
  · refine iff_of_false (fun h => ?_) (List.cons_ne_nil _ _)
    cases x with
    | escape c => exact absurd (Option.some.inj h) (by decide)
    | plain c => exact hparts c List.mem_cons_self (Option.some.inj h)

theorem take_class (hparts : ∀ c, Part.plain c ∈ parts → c ≠ chr ']') (p : Bytes) :
    (parts.flatMap Part.text ++ chr ']' :: p).take 2 = [chr '^', chr ']'] ↔ parts = anyClass := by
  constructor
  · intro h
    obtain - | ⟨x, parts⟩ := parts
    · exact absurd (List.cons.inj h).1 (by decide)
    cases x with
    | escape c => exact absurd (List.cons.inj h).1 (by decide)
    | plain c =>
      obtain ⟨rfl, hnext⟩ := List.cons.inj h
      have hhead : (parts.flatMap Part.text ++ chr ']' :: p).head? = some (chr ']') := by
        change (parts.flatMap Part.text ++ chr ']' :: p).take 1 = _ at hnext
        have := congrArg List.head? hnext
        rwa [List.head?_take, if_neg (by decide)] at this
      rw [(head?_class (fun c hc => hparts c (List.mem_cons_of_mem _ hc)) p).1 hhead]
  · rintro rfl
    rfl

theorem writeLoop_open (hparts : ∀ c, Part.plain c ∈ parts → c ≠ chr ']')
    (hempty : parts ≠ emptyClass) (hany : parts ≠ anyClass) (p : Bytes) :
    writeLoop (chr '[' :: (parts.flatMap Part.text ++ chr ']' :: p)) =
      chr '[' :: copyClass (parts.flatMap Part.text ++ chr ']' :: p) :=
  writeLoop_class (mt (head?_class hparts p).1 hempty) (mt (take_class hparts p).1 hany)

theorem flatMap_plain (body : Bytes) : (body.map Part.plain).flatMap Part.text = body := by
  rw [List.flatMap_map]
  exact List.flatMap_singleton' body

theorem writeLoop_copied {body : Bytes} (hbody : chr ']' ∉ body) (hempty : body ≠ [])
    (hany : body ≠ [chr '^']) (p : Bytes) :
    writeLoop (chr '[' :: (body ++ chr ']' :: p)) = chr '[' :: (body ++ chr ']' ::
      writeLoop p) := by
  have h := @writeLoop_open (body.map Part.plain)
    (fun c hc heq => hbody (heq ▸ by simpa using hc))
    (fun h => hempty (List.map_eq_nil_iff.1 h))
    (fun h => hany (by simpa [anyClass] using h)) p
  rw [flatMap_plain] at h
  rw [h, copyClass_append hbody, copyClass_close]

theorem writeLoop_twice (p : Bytes) : writeLoop (writeLoop p) = writeLoop p := by
  fun_induction writeLoop p with
  | case1 => rw [writeLoop_nil]
  | case2 p ih =>
    cases p with
    | nil => rw [List.drop_nil, writeLoop_nil]; exact writeLoop_backslash
    | cons c p => exact (writeLoop_escape c _).trans (congrArg (chr '\\' :: c :: ·) ih)
  | case3 p hempty hc ih => rw [writeLoop_append (by decide +kernel), ih]
  | case4 p hempty hany hc ih =>
    have hcopied := @writeLoop_copied (lit "\\s\\S") (by decide) (by decide) (by decide)
    exact (hcopied _).trans (congrArg (lit "[\\s\\S]" ++ ·) ih)
  | case5 p hempty hany close hc ih =>
    have hbody : chr ']' ∉ p.takeWhile (· ≠ chr ']') := fun h => by
      simpa using List.mem_takeWhile_imp h
    have hp : p.takeWhile (· ≠ chr ']') ++ close = p := List.takeWhile_append_dropWhile
    cases h : close with
    | nil =>
      rw [h, List.append_nil] at hp
      have hcopy := copyClass_append (hp ▸ hbody) []
      rw [List.append_nil, copyClass_nil, List.append_nil] at hcopy
      rw [List.take_nil, List.drop_nil, writeLoop_nil, List.append_nil, List.append_nil, hp,
        writeLoop_class hempty hany, hcopy]
    | cons d q =>
      have hd := List.head?_dropWhile_not (· ≠ chr ']') p
      rw [show p.dropWhile (· ≠ chr ']') = d :: q from h] at hd
      obtain rfl : d = chr ']' := by simpa using hd
      rw [h] at hp ih
      have hcopied := @writeLoop_copied _ hbody
        (fun hnil => hempty (by rw [← hp, hnil]; rfl))
        (fun hany' => hany (by rw [← hp, hany']; rfl)) (writeLoop q)
      rw [show writeLoop (writeLoop q) = writeLoop q from ih] at hcopied
      simpa using hcopied
  | case6 c p hc hc' ih => rw [writeLoop_other hc hc', ih]

theorem njsRegexEscape_twice (p : Bytes) :
    njsRegexEscape (njsRegexEscape p).start = njsRegexEscape p := by
  simp only [njsRegexEscape_eq, writeLoop_twice]

/-! ### Classes that are left at an escaped bracket -/

/-- The end of a class is taken for an empty class: the loop has left the class at an escaped
bracket, and no bracket that opens a class for it is between that and the last one. -/
def Misread (parts : List Part) : Prop :=
  ∃ u v w, parts = u ++ .escape (chr ']') :: (v ++ .plain (chr '[') :: w) ∧
    .plain (chr '[') ∉ v ∧ (w = emptyClass ∨ w = anyClass)

/-- The end of a class is taken for an empty class by a loop that is outside of the class. -/
def MisreadOutside (parts : List Part) : Prop :=
  (∃ v w, parts = v ++ .plain (chr '[') :: w ∧ .plain (chr '[') ∉ v ∧
    (w = emptyClass ∨ w = anyClass)) ∨ Misread parts

theorem not_misread_empty : ¬Misread emptyClass := by
  rintro ⟨u, v, w, h, -⟩
  exact absurd h.symm (List.append_ne_nil_of_right_ne_nil _ (List.cons_ne_nil _ _))

theorem not_misreadOutside_nil : ¬MisreadOutside [] := by
  rintro (⟨v, w, h, -⟩ | h)
  · exact absurd h.symm (List.append_ne_nil_of_right_ne_nil _ (List.cons_ne_nil _ _))
  · exact not_misread_empty h

theorem misread_close : Misread (.escape (chr ']') :: parts) ↔ MisreadOutside parts := by
  constructor
  · rintro ⟨u, v, w, h, hv, hw⟩
    obtain - | ⟨x, u⟩ := u
    · exact .inl ⟨v, w, (List.cons.inj h).2, hv, hw⟩
    · exact .inr ⟨u, v, w, (List.cons.inj h).2, hv, hw⟩
  · rintro (⟨v, w, rfl, hv, hw⟩ | ⟨u, v, w, rfl, hv, hw⟩)
    · exact ⟨[], v, w, rfl, hv, hw⟩
    · exact ⟨_ :: u, v, w, rfl, hv, hw⟩

theorem misread_cons {x : Part} (hx : x ≠ .escape (chr ']')) :
    Misread (x :: parts) ↔ Misread parts := by
  constructor
  · rintro ⟨u, v, w, h, hv, hw⟩
    obtain - | ⟨y, u⟩ := u
    · exact absurd (List.cons.inj h).1 hx
    · exact ⟨u, v, w, (List.cons.inj h).2, hv, hw⟩
  · rintro ⟨u, v, w, rfl, hv, hw⟩
    exact ⟨x :: u, v, w, rfl, hv, hw⟩

theorem misreadOutside_open : MisreadOutside (.plain (chr '[') :: parts) ↔
    parts = emptyClass ∨ parts = anyClass ∨ Misread parts := by
  rw [MisreadOutside, misread_cons (by simp), ← or_assoc]
  refine or_congr ⟨?_, fun h => ⟨[], parts, rfl, List.not_mem_nil, h⟩⟩ Iff.rfl
  rintro ⟨v, w, h, hv, hw⟩
  obtain - | ⟨y, v⟩ := v
  · exact (List.cons.inj h).2 ▸ hw
  · exact absurd ((List.cons.inj h).1 ▸ List.mem_cons_self) hv

theorem misreadOutside_cons {x : Part} (hx : x ≠ .plain (chr '[')) :
    MisreadOutside (x :: parts) ↔ MisreadOutside parts := by
  have hmisread : Misread (x :: parts) → MisreadOutside parts := fun h => by
    by_cases hclose : x = .escape (chr ']')
    · subst hclose
      exact misread_close.1 h
    · exact .inr ((misread_cons hclose).1 h)
  constructor
  · rintro (⟨v, w, h, hv, hw⟩ | h)
    · obtain - | ⟨y, v⟩ := v
      · exact absurd (List.cons.inj h).1 hx
      · exact .inl ⟨v, w, (List.cons.inj h).2, mt (List.mem_cons_of_mem _) hv, hw⟩
    · exact hmisread h
  · rintro (⟨v, w, rfl, hv, hw⟩ | ⟨u, v, w, rfl, hv, hw⟩)
    · exact .inl ⟨x :: v, w, rfl, fun h => (List.mem_cons.1 h).elim (fun h => hx h.symm) hv, hw⟩
    · exact .inr ⟨x :: u, v, w, rfl, hv, hw⟩

theorem Part.WellFormed.plain_ne (hparts : ∀ x ∈ parts, x.WellFormed) (c : UInt8)
    (hc : Part.plain c ∈ parts) : c ≠ chr ']' :=
  (hparts _ hc).2

theorem class_iff (hparts : ∀ x ∈ parts, x.WellFormed) (p s : Bytes) :
    (copyClass (parts.flatMap Part.text ++ chr ']' :: p) =
        parts.flatMap Part.text ++ chr ']' :: s ↔ ¬Misread parts ∧ writeLoop p = s) ∧
      (writeLoop (parts.flatMap Part.text ++ chr ']' :: p) =
        parts.flatMap Part.text ++ chr ']' :: s ↔ ¬MisreadOutside parts ∧ writeLoop p = s) := by
  induction parts with
  | nil =>
    have hclose := writeLoop_other (by decide : chr ']' ≠ chr '\\') (by decide) p
    simp [copyClass_close, hclose, not_misread_empty, not_misreadOutside_nil]
  | cons x parts ih =>
    obtain ⟨hx, hwell⟩ := List.forall_mem_cons.1 hparts
    obtain ⟨ihin, ihout⟩ := ih hwell
    cases x with
    | escape c =>
      have htext (q : Bytes) : (Part.escape c :: parts).flatMap Part.text ++ chr ']' :: q =
          chr '\\' :: c :: (parts.flatMap Part.text ++ chr ']' :: q) := rfl
      rw [htext, htext, copyClass_cons (by decide), writeLoop_escape, List.cons_inj_right,
        List.cons_inj_right, List.cons_inj_right, misreadOutside_cons (by simp)]
      refine ⟨?_, ihout⟩
      by_cases hc : c = chr ']'
      · subst hc
        rw [copyClass_close, misread_close, List.cons_inj_right]
        exact ihout
      · rw [copyClass_cons hc, misread_cons (by simpa using hc), List.cons_inj_right]
        exact ihin
    | plain c =>
      have htext (q : Bytes) : (Part.plain c :: parts).flatMap Part.text ++ chr ']' :: q =
          c :: (parts.flatMap Part.text ++ chr ']' :: q) := rfl
      rw [htext, htext, copyClass_cons hx.2, List.cons_inj_right, misread_cons (by simp)]
      refine ⟨ihin, ?_⟩
      by_cases hc : c = chr '['
      · subst hc
        rw [misreadOutside_open]
        by_cases hempty : parts = emptyClass
        · subst hempty
          refine iff_of_false (fun h => ?_) (fun h => h.1 (.inl rfl))
          have hwritten := (writeLoop_empty p).symm.trans h
          exact absurd (List.cons.inj hwritten).1 (by decide)
        by_cases hany : parts = anyClass
        · subst hany
          refine iff_of_false (fun h => ?_) (fun h => h.1 (.inr (.inl rfl)))
          have hwritten := (writeLoop_any p).symm.trans h
          exact absurd (List.cons.inj (List.cons.inj hwritten).2).1 (by decide)
        · rw [writeLoop_open (Part.WellFormed.plain_ne hwell) hempty hany,
            List.cons_inj_right, ihin, or_iff_right hempty, or_iff_right hany]
      · rw [writeLoop_other hx.1 hc, List.cons_inj_right, misreadOutside_cons (by simpa using hc)]
        exact ihout

theorem head?_of_unclosed {p : Bytes} (h : classParts p = none) : p.head? ≠ some (chr ']') := by
  intro hhead
  obtain ⟨q, rfl⟩ := List.head?_eq_some_iff.1 hhead
  rw [classParts_close] at h
  exact Option.some_ne_none _ h

theorem take_of_unclosed {p : Bytes} (h : classParts p = none) : p.take 2 ≠ [chr '^', chr ']'] := by
  intro htake
  obtain ⟨q, rfl⟩ : ∃ q, p = chr '^' :: chr ']' :: q :=
    ⟨p.drop 2, by rw [← List.take_append_drop 2 p, htake]; rfl⟩
  rw [classParts_plain (by decide) (by decide), classParts_close] at h
  exact Option.some_ne_none _ h

theorem unclosed_eq {p : Bytes} (h : classParts p = none) : copyClass p = p ∧ writeLoop p = p := by
  fun_induction classParts p with
  | case1 => exact ⟨copyClass_nil, writeLoop_nil⟩
  | case2 => exact absurd h (Option.some_ne_none _)
  | case3 =>
    have hcopy := copyClass_cons (by decide : chr '\\' ≠ chr ']') []
    exact ⟨hcopy.trans (congrArg _ copyClass_nil), writeLoop_backslash⟩
  | case4 d p hc ih =>
    obtain ⟨ihin, ihout⟩ := ih (Option.map_eq_none_iff.1 h)
    rw [copyClass_cons (by decide), writeLoop_escape, ihout]
    refine ⟨?_, rfl⟩
    by_cases hd : d = chr ']'
    · rw [hd, copyClass_close, ihout]
    · rw [copyClass_cons hd, ihin]
  | case5 c p hc hc' ih =>
    have hnone := Option.map_eq_none_iff.1 h
    obtain ⟨ihin, ihout⟩ := ih hnone
    refine ⟨by rw [copyClass_cons hc, ihin], ?_⟩
    by_cases hopen : c = chr '['
    · subst hopen
      rw [writeLoop_class (head?_of_unclosed hnone) (take_of_unclosed hnone), ihin]
    · rw [writeLoop_other hc' hopen, ihout]

theorem njsRegexEscape_iff (p : Bytes) :
    (njsRegexEscape p).start = (tokens p).flatMap Token.translate ↔
      ∀ parts, .cls parts ∈ tokens p → ¬Misread parts := by
  rw [njsRegexEscape_eq]
  change writeLoop p = _ ↔ _
  fun_induction tokens p with
  | case1 => simp [writeLoop_nil]
  | case2 => simp [writeLoop_backslash, Token.translate, Token.text]
  | case3 d p ih =>
    rw [writeLoop_escape]
    simpa [Token.translate, Token.text] using ih
  | case4 p hp hopen =>
    obtain ⟨hcopy, -⟩ := unclosed_eq hp
    have hclass : writeLoop (chr '[' :: p) = chr '[' :: p := by
      rw [writeLoop_class (head?_of_unclosed hp) (take_of_unclosed hp), hcopy]
    rw [hclass, List.flatMap_singleton]
    exact iff_of_true rfl (by simp)
  | case5 p parts rest hp _ ih =>
    obtain ⟨rfl, hparts⟩ := classParts_eq_some hp
    have hmem : (∀ parts', .cls parts' ∈ Token.cls parts :: tokens rest → ¬Misread parts') ↔
        ¬Misread parts ∧ ∀ parts', .cls parts' ∈ tokens rest → ¬Misread parts' := by
      simp only [List.mem_cons, Token.cls.injEq, forall_eq_or_imp]
    have hplain := Part.WellFormed.plain_ne hparts
    rw [List.flatMap_cons, hmem, ← ih, Token.translate]
    by_cases hempty : parts = emptyClass
    · subst hempty
      have hwritten := writeLoop_empty rest
      change writeLoop (chr '[' :: (emptyClass.flatMap Part.text ++ chr ']' ::
        rest)) = _ at hwritten
      rw [if_pos rfl, and_iff_right not_misread_empty, hwritten, List.append_right_inj]
    by_cases hany : parts = anyClass
    · subst hany
      have hwritten := writeLoop_any rest
      change writeLoop (chr '[' :: (anyClass.flatMap Part.text ++ chr ']' :: rest)) = _
        at hwritten
      have hmisread : ¬Misread anyClass := mt (misread_cons (by simp)).1 not_misread_empty
      rw [if_neg hempty, if_pos rfl, and_iff_right hmisread, hwritten, List.append_right_inj]
    · rw [if_neg hempty, if_neg hany, writeLoop_open hplain hempty hany,
        ← (class_iff hparts rest _).1, Token.text]
      simp
  | case6 c p hc hc' ih =>
    rw [writeLoop_other hc hc']
    simpa [Token.translate, Token.text] using ih

end Njs.Regexp
