import Njs.Json.Soundness

/-!
# When the parser accepts exactly JSON

A text has one tree at most, so that it is enough to look at its tree: the parser does with the text
what RFC 8259 says, if and only if the numerals in the tree are those of JSON and no leading
surrogate after another one changes the value.
-/

namespace Njs.Json

open Text

variable {ν : Type} {atod : Bytes → ν}

/-! ### One tree for a text -/

/-- What the first byte of a value says about it. -/
inductive Shape
  | word (ch : UInt8)
  | number
  | string
  | array
  | object
  deriving DecidableEq

/-- The shape of a value by its first byte. -/
def shapeOf (ch : UInt8) : Shape :=
  if ch = chr '"' then .string
  else if ch = chr '[' then .array
  else if ch = chr '\x7b' then .object
  else if ch ∈ lit "tfn" then .word ch
  else .number

def Syn.shape : Syn .value → Shape
  | .null => .word (chr 'n')
  | .boolean true => .word (chr 't')
  | .boolean false => .word (chr 'f')
  | .number _ => .number
  | .string _ => .string
  | .emptyArray _ => .array
  | .array _ => .array
  | .emptyObject _ => .object
  | .object _ => .object

theorem shapeOf_head (t : Syn .value) {ch : UInt8} {q : Bytes} (h : t.text = ch :: q) :
    shapeOf ch = t.shape := by
  have hnumber : ∀ x : UInt8, isNumberHead x = true → shapeOf x = .number :=
    forall_byte (by decide)
  match t with
  | .null | .boolean true | .boolean false =>
    obtain ⟨rfl, -⟩ := List.cons.inj h
    decide
  | .number n =>
    obtain ⟨x, l, hn, hx⟩ := n.2.exists_cons
    obtain ⟨rfl, -⟩ := List.cons.inj (hn.symm.trans h)
    exact hnumber x hx
  | .string s =>
    obtain ⟨rfl, -⟩ := List.cons.inj h
    rfl
  | .emptyArray w =>
    obtain ⟨rfl, -⟩ := List.cons.inj h
    rfl
  | .array l =>
    obtain ⟨rfl, -⟩ := List.cons.inj h
    rfl
  | .emptyObject w =>
    obtain ⟨rfl, -⟩ := List.cons.inj h
    rfl
  | .object l =>
    obtain ⟨rfl, -⟩ := List.cons.inj h
    rfl

theorem Syn.shape_eq {t t' : Syn .value} {p p' : Bytes} (h : t.text ++ p = t'.text ++ p') :
    t.shape = t'.shape := by
  obtain ⟨ch, q, hq, -⟩ := t.exists_cons
  obtain ⟨ch', q', hq', -⟩ := t'.exists_cons
  rw [hq, hq'] at h
  obtain ⟨rfl, -⟩ := List.cons.inj h
  exact (shapeOf_head t hq).symm.trans (shapeOf_head t' hq')

theorem space_inj {w w' : Space} {p p' : Bytes} (hp : NoSpace p) (hp' : NoSpace p')
    (h : w.1 ++ p = w'.1 ++ p') : w = w' ∧ p = p' := by
  have hskip := congrArg njsJsonSkipSpace h
  rw [skipSpace_append w hp, skipSpace_append w' hp'] at hskip
  subst hskip
  exact ⟨Subtype.ext (List.append_cancel_right h), rfl⟩

theorem Syn.noSpace (t : Syn .value) (p : Bytes) : NoSpace (t.text ++ p) := by
  obtain ⟨ch, q, hq, hch⟩ := t.exists_cons
  rw [hq]
  exact .cons ((headByte ch).value hch).1 _

/-- A text begins with one tree at most. -/
def Syn.Unique : {k : Kind} → Syn k → Prop
  | .value, t => ∀ t' p p', Delimited p → Delimited p' → t.text ++ p = t'.text ++ p' →
      t = t' ∧ p = p'
  | .elements, l => ∀ l' p p', l.text ++ chr ']' :: p = l'.text ++ chr ']' :: p' → l = l' ∧ p = p'
  | .members, l => ∀ l' p p', l.text ++ chr '\x7d' :: p = l'.text ++ chr '\x7d' :: p' →
      l = l' ∧ p = p'

theorem Syn.elements_ne (l : Syn .elements) (w : Space) (p p' : Bytes) :
    l.text ++ p ≠ w.1 ++ chr ']' :: p' := by
  obtain ⟨w', v, r, hl⟩ : ∃ (w' : Space) (v : Syn .value) (r : Bytes),
      l.text = w'.1 ++ (v.text ++ r) := by
    match l with
    | .lastElement w' v w₁ => exact ⟨w', v, _, List.append_assoc _ _ _⟩
    | .element w' v w₁ l => exact ⟨w', v, w₁.1 ++ chr ',' :: l.text, by simp [Syn.text]⟩
  intro h
  rw [hl, List.append_assoc, List.append_assoc] at h
  obtain ⟨-, h⟩ := space_inj (v.noSpace _) (.cons (by decide) p') h
  obtain ⟨ch, q, hq, hch⟩ := v.exists_cons
  rw [hq] at h
  exact ((headByte ch).value hch).2.1 (List.cons.inj h).1

theorem Syn.members_ne (l : Syn .members) (w : Space) (p p' : Bytes) :
    l.text ++ p ≠ w.1 ++ chr '\x7d' :: p' := by
  obtain ⟨w', r, hl⟩ : ∃ (w' : Space) (r : Bytes), l.text = w'.1 ++ chr '"' :: r := by
    match l with
    | .lastMember w' name w₁ w₂ v w₃ =>
      exact ⟨w', _, by simp only [Syn.text, nameText, quoted, List.append_assoc,
        List.cons_append]; rfl⟩
    | .member w' name w₁ w₂ v w₃ l =>
      exact ⟨w', _, by simp only [Syn.text, nameText, quoted, List.append_assoc,
        List.cons_append]; rfl⟩
  intro h
  rw [hl, List.append_assoc] at h
  obtain ⟨-, h⟩ := space_inj (.cons (by decide) _) (.cons (by decide) p') h
  exact absurd (List.cons.inj h).1 (by decide)

theorem Syn.element_inj {v v' : Syn .value} (hv : v.Unique) {w w' w₁ w₁' : Space} {p p' : Bytes}
    (hp : NoSpace p ∧ Delimited p) (hp' : NoSpace p' ∧ Delimited p')
    (h : w.1 ++ (v.text ++ (w₁.1 ++ p)) = w'.1 ++ (v'.text ++ (w₁'.1 ++ p'))) :
    w = w' ∧ v = v' ∧ w₁ = w₁' ∧ p = p' := by
  obtain ⟨rfl, h₁⟩ := space_inj (v.noSpace _) (v'.noSpace _) h
  obtain ⟨rfl, h₂⟩ := hv v' _ _ (hp.2.space w₁) (hp'.2.space w₁') h₁
  obtain ⟨rfl, rfl⟩ := space_inj hp.1 hp'.1 h₂
  exact ⟨rfl, rfl, rfl, rfl⟩

theorem Syn.member_inj {v v' : Syn .value} (hv : v.Unique) {name name' : List Piece}
    {w w' w₁ w₁' w₂ w₂' w₃ w₃' : Space} {p p' : Bytes}
    (hp : NoSpace p ∧ Delimited p) (hp' : NoSpace p' ∧ Delimited p')
    (h : nameText w name w₁ w₂ ++ (v.text ++ (w₃.1 ++ p)) =
      nameText w' name' w₁' w₂' ++ (v'.text ++ (w₃'.1 ++ p'))) :
    w = w' ∧ name = name' ∧ w₁ = w₁' ∧ w₂ = w₂' ∧ v = v' ∧ w₃ = w₃' ∧ p = p' := by
  have hsplit : ∀ (w : Space) (name : List Piece) (w₁ w₂ : Space) (q : Bytes),
      nameText w name w₁ w₂ ++ q = w.1 ++ (quoted name ++ (w₁.1 ++ chr ':' :: (w₂.1 ++ q))) := by
    intro w name w₁ w₂ q
    simp [nameText]
  rw [hsplit, hsplit] at h
  obtain ⟨rfl, h₁⟩ := space_inj (.cons (by decide) _) (.cons (by decide) _) h
  obtain ⟨rfl, h₂⟩ := quoted_inj h₁
  obtain ⟨rfl, h₃⟩ := space_inj (.cons (by decide) _) (.cons (by decide) _) h₂
  obtain ⟨rfl, rfl, rfl, rfl⟩ := Syn.element_inj hv hp hp' (List.cons.inj h₃).2
  exact ⟨rfl, rfl, rfl, rfl, rfl, rfl, rfl⟩

theorem comma_spec (p : Bytes) : NoSpace (chr ',' :: p) ∧ Delimited (chr ',' :: p) :=
  ⟨.cons (by decide) p, .cons (by decide) p⟩

theorem bracket_spec (p : Bytes) : NoSpace (chr ']' :: p) ∧ Delimited (chr ']' :: p) :=
  ⟨.cons (by decide) p, .cons (by decide) p⟩

theorem brace_spec (p : Bytes) : NoSpace (chr '\x7d' :: p) ∧ Delimited (chr '\x7d' :: p) :=
  ⟨.cons (by decide) p, .cons (by decide) p⟩

theorem enclosed_inj {first last : UInt8} {s s' p p' : Bytes}
    (h : first :: (s ++ [last]) ++ p = first :: (s' ++ [last]) ++ p') :
    s ++ last :: p = s' ++ last :: p' := by
  simpa using h

theorem Syn.unique : ∀ {k : Kind} (t : Syn k), t.Unique
  | _, .null => by
    intro t' p p' _ _ h
    have hshape := Syn.shape_eq h
    cases t' with
    | null => exact ⟨rfl, List.append_cancel_left h⟩
    | boolean b => cases b <;> cases hshape
    | _ => cases hshape
  | _, .boolean true => by
    intro t' p p' _ _ h
    have hshape := Syn.shape_eq h
    cases t' with
    | boolean b =>
      cases b with
      | true => exact ⟨rfl, List.append_cancel_left h⟩
      | false => cases hshape
    | _ => cases hshape
  | _, .boolean false => by
    intro t' p p' _ _ h
    have hshape := Syn.shape_eq h
    cases t' with
    | boolean b =>
      cases b with
      | false => exact ⟨rfl, List.append_cancel_left h⟩
      | true => cases hshape
    | _ => cases hshape
  | _, .number n => by
    intro t' p p' hp hp' h
    have hshape := Syn.shape_eq h
    cases t' with
    | number n' =>
      have hn := njsAtod_append n.2 hp.stops
      rw [show n.1 ++ p = n'.1 ++ p' from h, njsAtod_append n'.2 hp'.stops] at hn
      obtain ⟨heq, rfl⟩ := Prod.mk.inj (Option.some.inj hn)
      exact ⟨congrArg Syn.number (Subtype.ext heq.symm), rfl⟩
    | boolean b => cases b <;> cases hshape
    | _ => cases hshape
  | _, .string s => by
    intro t' p p' _ _ h
    have hshape := Syn.shape_eq h
    cases t' with
    | string s' =>
      obtain ⟨rfl, rfl⟩ := quoted_inj h
      exact ⟨rfl, rfl⟩
    | boolean b => cases b <;> cases hshape
    | _ => cases hshape
  | _, .emptyArray w => by
    intro t' p p' _ _ h
    have hshape := Syn.shape_eq h
    cases t' with
    | emptyArray w' =>
      have h := enclosed_inj h
      obtain ⟨rfl, hrest⟩ := space_inj (.cons (by decide) p) (.cons (by decide) p') h
      exact ⟨rfl, (List.cons.inj hrest).2⟩
    | array l' =>
      have h := enclosed_inj h
      exact absurd h.symm (l'.elements_ne w _ _)
    | boolean b => cases b <;> cases hshape
    | _ => cases hshape
  | _, .array l => by
    intro t' p p' _ _ h
    have hshape := Syn.shape_eq h
    cases t' with
    | emptyArray w' =>
      have h := enclosed_inj h
      exact absurd h (l.elements_ne w' _ _)
    | array l' =>
      have h := enclosed_inj h
      obtain ⟨rfl, rfl⟩ := Syn.unique l l' p p' h
      exact ⟨rfl, rfl⟩
    | boolean b => cases b <;> cases hshape
    | _ => cases hshape
  | _, .emptyObject w => by
    intro t' p p' _ _ h
    have hshape := Syn.shape_eq h
    cases t' with
    | emptyObject w' =>
      have h := enclosed_inj h
      obtain ⟨rfl, hrest⟩ := space_inj (.cons (by decide) p) (.cons (by decide) p') h
      exact ⟨rfl, (List.cons.inj hrest).2⟩
    | object l' =>
      have h := enclosed_inj h
      exact absurd h.symm (l'.members_ne w _ _)
    | boolean b => cases b <;> cases hshape
    | _ => cases hshape
  | _, .object l => by
    intro t' p p' _ _ h
    have hshape := Syn.shape_eq h
    cases t' with
    | emptyObject w' =>
      have h := enclosed_inj h
      exact absurd h (l.members_ne w' _ _)
    | object l' =>
      have h := enclosed_inj h
      obtain ⟨rfl, rfl⟩ := Syn.unique l l' p p' h
      exact ⟨rfl, rfl⟩
    | boolean b => cases b <;> cases hshape
    | _ => cases hshape
  | _, .lastElement w v w₁ => by
    intro l' p p' h
    cases l' with
    | lastElement w' v' w₁' =>
      simp only [Syn.text, List.append_assoc] at h
      obtain ⟨rfl, rfl, rfl, hrest⟩ :=
        Syn.element_inj (Syn.unique v) (bracket_spec p) (bracket_spec p') h
      exact ⟨rfl, (List.cons.inj hrest).2⟩
    | element w' v' w₁' l' =>
      simp only [Syn.text, List.append_assoc, List.cons_append] at h
      obtain ⟨-, -, -, h⟩ := Syn.element_inj (Syn.unique v) (bracket_spec p) (comma_spec _) h
      exact absurd (List.cons.inj h).1 (by decide)
  | _, .element w v w₁ l => by
    intro l' p p' h
    cases l' with
    | lastElement w' v' w₁' =>
      simp only [Syn.text, List.append_assoc, List.cons_append] at h
      obtain ⟨-, -, -, h⟩ := Syn.element_inj (Syn.unique v) (comma_spec _) (bracket_spec p') h
      exact absurd (List.cons.inj h).1 (by decide)
    | element w' v' w₁' l' =>
      simp only [Syn.text, List.append_assoc, List.cons_append] at h
      obtain ⟨rfl, rfl, rfl, hrest⟩ :=
        Syn.element_inj (Syn.unique v) (comma_spec _) (comma_spec _) h
      obtain ⟨rfl, rfl⟩ := Syn.unique l l' p p' (List.cons.inj hrest).2
      exact ⟨rfl, rfl⟩
  | _, .lastMember w name w₁ w₂ v w₃ => by
    intro l' p p' h
    cases l' with
    | lastMember w' name' w₁' w₂' v' w₃' =>
      simp only [Syn.text, List.append_assoc] at h
      obtain ⟨rfl, rfl, rfl, rfl, rfl, rfl, hrest⟩ :=
        Syn.member_inj (Syn.unique v) (brace_spec p) (brace_spec p') h
      exact ⟨rfl, (List.cons.inj hrest).2⟩
    | member w' name' w₁' w₂' v' w₃' l' =>
      simp only [Syn.text, List.append_assoc, List.cons_append] at h
      obtain ⟨-, -, -, -, -, -, h⟩ :=
        Syn.member_inj (Syn.unique v) (brace_spec p) (comma_spec _) h
      exact absurd (List.cons.inj h).1 (by decide)
  | _, .member w name w₁ w₂ v w₃ l => by
    intro l' p p' h
    cases l' with
    | lastMember w' name' w₁' w₂' v' w₃' =>
      simp only [Syn.text, List.append_assoc, List.cons_append] at h
      obtain ⟨-, -, -, -, -, -, h⟩ :=
        Syn.member_inj (Syn.unique v) (comma_spec _) (brace_spec p') h
      exact absurd (List.cons.inj h).1 (by decide)
    | member w' name' w₁' w₂' v' w₃' l' =>
      simp only [Syn.text, List.append_assoc, List.cons_append] at h
      obtain ⟨rfl, rfl, rfl, rfl, rfl, rfl, hrest⟩ :=
        Syn.member_inj (Syn.unique v) (comma_spec _) (comma_spec _) h
      obtain ⟨rfl, rfl⟩ := Syn.unique l l' p p' (List.cons.inj hrest).2
      exact ⟨rfl, rfl⟩

theorem Tree.text_inj {t t' : Tree} (h : t.text = t'.text) : t = t' := by
  obtain ⟨w, v, w₁⟩ := t
  obtain ⟨w', v', w₁'⟩ := t'
  have hnil : NoSpace [] ∧ Delimited [] := ⟨fun _ hx => (nomatch hx), fun _ hx => (nomatch hx)⟩
  simp only [Tree.text, List.append_assoc] at h
  rw [← List.append_nil w₁.1, ← List.append_nil w₁'.1] at h
  obtain ⟨rfl, rfl, rfl, -⟩ := Syn.element_inj (Syn.unique v) hnil hnil h
  rfl

/-! ### Exactness -/

/-- The parser does with a text what the standard says: it accepts the JSON texts that are nested up
to 31 deep, gives the values that they denote, and rejects every other text with a syntax
error. -/
structure Exact (atod : Bytes → ν) (s : Bytes) : Prop where
  accepts : (∃ v, njsJsonParse atod s = .ok v) ↔ ∃ t : Tree, t.text = s ∧ t.IsJson ∧ t.depth ≤ 31
  value : ∀ v, njsJsonParse atod s = .ok v → ∀ t : Tree, t.text = s → t.IsJson → v = t.denote atod
  rejects : (¬∃ t : Tree, t.text = s ∧ t.IsJson ∧ t.depth ≤ 31) →
    ∃ msg left, njsJsonParse atod s = .error (.syntaxError msg left)

/-- The parser is exact on a text if and only if the tree of the text, if it has one that is not
nested too deep, is one of JSON, and has the same value when its strings are read again. -/
theorem exact_iff (atod : Bytes → ν) (s : Bytes) : Exact atod s ↔
      ∀ t : Tree, t.text = s → t.depth ≤ 31 → t.IsJson ∧ t.reread.denote atod = t.denote atod := by
  constructor
  · rintro h t rfl hdepth
    have hparse := t.parses atod (Nat.lt_succ_of_le hdepth)
    obtain ⟨t', htext, hjson, -⟩ := h.accepts.mp ⟨_, hparse⟩
    obtain rfl := Tree.text_inj htext
    exact ⟨hjson, h.value _ hparse t' rfl hjson⟩
  intro h
  obtain ⟨t, rfl, hdepth, hparse⟩ | ⟨e, hparse, msg, left, rfl⟩ := njsJsonParse_cases atod s
  · have hle : t.depth ≤ 31 := Nat.le_of_lt_succ hdepth
    obtain ⟨hjson, hvalue⟩ := h t rfl hle
    refine ⟨⟨fun _ => ⟨t, rfl, hjson, hle⟩, fun _ => ⟨_, hparse⟩⟩, ?_, ?_⟩
    · intro v hv t' htext _
      obtain rfl := Tree.text_inj htext
      rw [hparse] at hv
      rw [← hvalue]
      exact (Except.ok.inj hv).symm
    · exact fun hnone => absurd ⟨t, rfl, hjson, hle⟩ hnone
  have hnone : ¬∃ t : Tree, t.text = s ∧ t.IsJson ∧ t.depth ≤ 31 := by
    rintro ⟨t, rfl, -, hle⟩
    rw [t.parses atod (Nat.lt_succ_of_le hle)] at hparse
    cases hparse
  refine ⟨⟨?_, fun h => absurd h hnone⟩, ?_, fun _ => ⟨msg, left, hparse⟩⟩
  · rintro ⟨v, hv⟩
    rw [hparse] at hv
    cases hv
  · intro v hv
    rw [hparse] at hv
    cases hv

theorem JsonNumber.head_spec {n : Bytes} (h : JsonNumber n) :
    ∀ ch ∈ n.head?, ch = chr '-' ∨ isDigit ch = true := by
  obtain ⟨sign, int, frac, exp, rfl, hsign, hint, -⟩ := h
  simp only [List.mem_cons, List.not_mem_nil, or_false] at hsign
  obtain rfl | rfl := hsign
  · obtain ⟨x, l, rfl, hx⟩ : ∃ x l, int = x :: l ∧ isDigit x = true := by
      obtain rfl | ⟨⟨hne, hdigits⟩, -⟩ := hint
      · exact ⟨_, _, rfl, by decide⟩
      · obtain ⟨x, l, rfl⟩ := List.exists_cons_of_ne_nil hne
        exact ⟨x, l, rfl, hdigits x List.mem_cons_self⟩
    intro ch hch
    obtain rfl := Option.some.inj hch
    exact .inr hx
  · intro ch hch
    obtain rfl := Option.some.inj hch
    exact .inl rfl

/-- The tree of the text `+1`. -/
def plusOne : Tree where
  before := ⟨[], by simp⟩
  value := .number ⟨lit "+1", lit "+", lit "1", rfl, by decide,
    .inr ⟨lit "1", [], rfl, ⟨lit "1", [], rfl, Text.forall_mem_of_all rfl,
      .inl ⟨rfl, by decide⟩⟩, .inl rfl⟩⟩
  after := ⟨[], by simp⟩

/-- The parser takes a numeral with a plus sign. -/
theorem not_exact_plusOne : ¬Exact (fun numeral : Bytes => numeral) (lit "+1") := by
  intro h
  have htext : plusOne.text = lit "+1" := by decide
  have hparse := plusOne.parses (fun numeral : Bytes => numeral) (by decide)
  rw [htext] at hparse
  obtain ⟨t, ht, hjson, -⟩ := h.accepts.mp ⟨_, hparse⟩
  obtain rfl := Tree.text_inj (ht.trans htext.symm)
  have hhead := JsonNumber.head_spec hjson (chr '+') rfl
  revert hhead
  decide

end Njs.Json
