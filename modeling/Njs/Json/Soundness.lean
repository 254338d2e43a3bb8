import Njs.Json.Completeness

/-!
# What the parser takes

Every text that the parser takes is the text of a tree, and the others are syntax errors.
-/

namespace Njs.Json

open Text

variable {ν : Type} {atod : Bytes → ν}

theorem skipSpace_spec (p : Bytes) :
    (∃ w : Space, p = w.1 ++ njsJsonSkipSpace p) ∧ NoSpace (njsJsonSkipSpace p) := by
  refine ⟨⟨⟨p.takeWhile isSpace, List.all_eq_true.mp List.all_takeWhile⟩,
    List.takeWhile_append_dropWhile.symm⟩, fun ch hch => ?_⟩
  have hhead := List.head?_dropWhile_not isSpace p
  rw [njsJsonSkipSpace] at hch
  rw [hch] at hhead
  simpa using hhead

def IsSyntaxError (e : Error) : Prop := ∃ msg left, e = .syntaxError msg left

/-- What a parser makes of a text: it takes something, or with rounds enough the text is a syntax
error. -/
def Outcome {α : Type} (taken : α → Bytes → Prop) (enough : Prop) : Except Error (α × Bytes) → Prop
  | .ok (x, r) => taken x r
  | .error e => enough → IsSyntaxError e

theorem Outcome.exception {α : Type} {taken : α → Bytes → Prop} {enough : Prop} (msg : String)
    (p : Bytes) : Outcome taken enough (parseException msg p) := fun _ => ⟨_, _, rfl⟩

def ValueTaken (atod : Bytes → ν) (depth : ℕ) (p : Bytes) (v : Value ν) (r : Bytes) : Prop :=
  ∃ t : Syn .value, p = t.text ++ r ∧ v = t.reread.denote atod ∧ t.depth < depth

/-- The outcome of the loop over an array. -/
def ElementsTaken (atod : Bytes → ν) (depth : ℕ) (elements : List (Value ν)) (p : Bytes)
    (l : List (Value ν)) (r : Bytes) : Prop :=
  (elements = [] ∧ l = [] ∧ ∃ w : Space, p = w.1 ++ chr ']' :: r) ∨
  ∃ t : Syn .elements, p = t.text ++ chr ']' :: r ∧
    l = elements ++ (t.reread.denote atod : List (Value ν)) ∧ t.depth < depth

/-- The outcome of the loop over an object. -/
def MembersTaken (atod : Bytes → ν) (depth : ℕ) (members : List (Bytes × Value ν)) (p : Bytes)
    (l : List (Bytes × Value ν)) (r : Bytes) : Prop :=
  (members = [] ∧ l = [] ∧ ∃ w : Space, p = w.1 ++ chr '\x7d' :: r) ∨
  ∃ t : Syn .members, p = t.text ++ chr '\x7d' :: r ∧
    l = setMembers members (t.reread.denote atod) ∧ t.depth < depth

/-- What the parsers take is the text of a tree. A value takes two rounds for a byte at most. -/
structure Sound (atod : Bytes → ν) (rounds : ℕ) : Prop where
  value : ∀ depth p, 0 < depth → Outcome (ValueTaken atod depth p)
    (p ≠ [] ∧ 2 * p.length ≤ rounds) (njsJsonParseValue atod rounds depth p)
  elements : ∀ depth l p, 0 < depth → Outcome (ElementsTaken atod depth l p)
    (2 * p.length < rounds) (arrayLoop atod rounds depth l p)
  members : ∀ depth l p, 0 < depth → Outcome (MembersTaken atod depth l p)
    (2 * p.length < rounds) (objectLoop atod rounds depth l p)

variable {rounds : ℕ}

/-! ### Values -/

variable {p : Bytes} {depth : ℕ}

theorem eq_cons_of_headD {ch : UInt8} (h : p.headD 0 = ch) (hch : ch ≠ 0) : ∃ q, p = ch :: q := by
  cases p with
  | nil => exact absurd h.symm hch
  | cons x q => exact ⟨q, congrArg (· :: q) h⟩

theorem Sound.array (h : Sound atod rounds) {depth : ℕ} {p : Bytes} (hdepth : depth - 1 ≠ 0) :
    Outcome (ValueTaken atod depth (chr '[' :: p)) (2 * (p.length + 1) ≤ rounds + 1)
      (match arrayLoop atod rounds (depth - 1) [] p with
        | .error e => .error e
        | .ok (elements, p) => .ok (.array elements, p)) := by
  have hloop := h.elements (depth - 1) [] p (Nat.pos_of_ne_zero hdepth)
  generalize arrayLoop atod rounds (depth - 1) [] p = x at hloop
  match x, hloop with
  | .error e, hloop => exact fun henough => hloop (by omega)
  | .ok (l, r), .inl ⟨_, hl, w, hp⟩ =>
    subst hl hp
    refine ⟨.emptyArray w, ?_, rfl, ?_⟩
    · simp [Syn.text]
    · rw [Syn.depth]
      omega
  | .ok (l, r), .inr ⟨t, hp, hl, ht⟩ =>
    subst hl hp
    refine ⟨.array t, ?_, rfl, ?_⟩
    · simp [Syn.text]
    · rw [Syn.depth]
      omega

theorem Sound.object (h : Sound atod rounds) (hdepth : depth - 1 ≠ 0) :
    Outcome (ValueTaken atod depth (chr '\x7b' :: p)) (2 * (p.length + 1) ≤ rounds + 1)
      (match objectLoop atod rounds (depth - 1) [] p with
        | .error e => .error e
        | .ok (members, p) => .ok (.object members, p)) := by
  have hloop := h.members (depth - 1) [] p (Nat.pos_of_ne_zero hdepth)
  generalize objectLoop atod rounds (depth - 1) [] p = x at hloop
  match x, hloop with
  | .error e, hloop => exact fun henough => hloop (by omega)
  | .ok (l, r), .inl ⟨_, hl, w, hp⟩ =>
    subst hl hp
    refine ⟨.emptyObject w, ?_, rfl, ?_⟩
    · simp [Syn.text]
    · rw [Syn.depth]
      omega
  | .ok (l, r), .inr ⟨t, hp, hl, ht⟩ =>
    subst hl hp
    refine ⟨.object t, ?_, ?_, ?_⟩
    · simp [Syn.text]
    · rw [setMembers_nil]
      rfl
    · rw [Syn.depth]
      omega

theorem number_outcome (hdepth : 0 < depth) {enough : Prop} (hp : ∀ ch ∈ p.head?, ch ≠ chr 'I') :
    Outcome (ValueTaken atod depth p) enough (njsJsonParseNumber atod p) := by
  rw [njsJsonParseNumber]
  cases hatod : njsAtod p with
  | none => exact .exception _ _
  | some x =>
    obtain ⟨text, r⟩ := x
    obtain ⟨hsplit, hlax⟩ := njsAtod_spec hatod hp
    exact ⟨.number ⟨text, hlax⟩, hsplit, rfl, hdepth⟩

theorem string_outcome (hdepth : 0 < depth) {enough : Prop} (hp : p.head? = some (chr '"')) :
    Outcome (ValueTaken atod depth p) enough (match njsJsonParseString p with
        | .error e => .error e
        | .ok (s, p) => .ok (.string s, p)) := by
  cases hs : njsJsonParseString p with
  | error e => exact fun _ => parseString_error hs hp
  | ok x =>
    obtain ⟨s, r⟩ := x
    obtain ⟨l, hsplit, rfl⟩ := parseString_spec hs hp
    exact ⟨.string l, hsplit, rfl, hdepth⟩

theorem word_outcome (hdepth : 0 < depth) {enough : Prop} (t : Syn .value) (ht : t.depth = 0)
    {v : Value ν} (hv : v = t.reread.denote atod) {n : ℕ} (hn : t.text.length = n) :
    Outcome (ValueTaken atod depth p) enough
      (if t.text <+: p then .ok (v, p.drop n) else parseException "Unexpected token" p) := by
  split_ifs with hword
  · obtain ⟨q, rfl⟩ := hword
    exact ⟨t, by rw [← hn, List.drop_left], hv, by rw [ht]; exact hdepth⟩
  · exact .exception _ _

theorem Sound.value_step (h : Sound atod rounds) (hdepth : 0 < depth) (p : Bytes) :
    Outcome (ValueTaken atod depth p) (p ≠ [] ∧ 2 * p.length ≤ rounds + 1)
      (njsJsonParseValue atod (rounds + 1) depth p) := by
  have hmono : ∀ {n : ℕ} {x : Except Error (Value ν × Bytes)} {q : Bytes},
      n = p.length → Outcome (ValueTaken atod depth q) (2 * n ≤ rounds + 1) x →
      Outcome (ValueTaken atod depth q) (p ≠ [] ∧ 2 * p.length ≤ rounds + 1) x := by
    rintro n x q rfl hx
    match x, hx with
    | .ok (v, r), hx => exact hx
    | .error e, hx => exact fun henough => hx henough.2
  rw [njsJsonParseValue]
  by_cases hbrace : p.headD 0 = chr '\x7b'
  · obtain ⟨q, rfl⟩ := eq_cons_of_headD hbrace (by decide)
    rw [if_pos hbrace]
    by_cases hzero : depth - 1 = 0
    · rw [if_pos hzero]
      exact .exception _ _
    · rw [if_neg hzero]
      exact hmono rfl (h.object hzero)
  rw [if_neg hbrace]
  by_cases hbracket : p.headD 0 = chr '['
  · obtain ⟨q, rfl⟩ := eq_cons_of_headD hbracket (by decide)
    rw [if_pos hbracket]
    by_cases hzero : depth - 1 = 0
    · rw [if_pos hzero]
      exact .exception _ _
    · rw [if_neg hzero]
      exact hmono rfl (h.array hzero)
  rw [if_neg hbracket]
  by_cases hquote : p.headD 0 = chr '"'
  · obtain ⟨q, rfl⟩ := eq_cons_of_headD hquote (by decide)
    rw [if_pos hquote]
    exact string_outcome hdepth rfl
  rw [if_neg hquote]
  by_cases htrue : p.headD 0 = chr 't'
  · rw [if_pos htrue]
    exact word_outcome hdepth (.boolean true) rfl rfl rfl
  rw [if_neg htrue]
  by_cases hfalse : p.headD 0 = chr 'f'
  · rw [if_pos hfalse]
    exact word_outcome hdepth (.boolean false) rfl rfl rfl
  rw [if_neg hfalse]
  by_cases hnull : p.headD 0 = chr 'n'
  · rw [if_pos hnull]
    exact word_outcome hdepth .null rfl rfl rfl
  rw [if_neg hnull]
  split_ifs with hnumber
  · refine number_outcome hdepth fun ch hch => ?_
    rintro rfl
    rw [List.headD_eq_head?_getD, hch] at hnumber
    revert hnumber
    decide
  · exact .exception _ _

/-! ### The loops -/

theorem length_tail_lt {q : Bytes} {ch : UInt8} (h : njsJsonSkipSpace p = ch :: q) :
    q.length < p.length := by
  obtain ⟨⟨w, hw⟩, -⟩ := skipSpace_spec p
  rw [hw, h, List.length_append, List.length_cons]
  omega

theorem Sound.elements_step (h : Sound atod rounds) (hdepth : 0 < depth)
    (elements : List (Value ν)) (p : Bytes) :
    Outcome (ElementsTaken atod depth elements p) (2 * p.length < rounds + 1)
      (arrayLoop atod (rounds + 1) depth elements p) := by
  obtain ⟨⟨w, hw⟩, -⟩ := skipSpace_spec p
  rw [arrayLoop]
  cases hskip : njsJsonSkipSpace p with
  | nil => exact .exception _ _
  | cons ch q =>
    rw [hskip] at hw
    simp only
    by_cases hclose : ch = chr ']'
    · subst hclose
      rw [if_pos rfl]
      split_ifs with hnil
      · exact .exception "Trailing comma" (0 :: 0 :: q)
      · exact .inl ⟨not_not.mp hnil, not_not.mp hnil, w, hw⟩
    rw [if_neg hclose]
    have hv := h.value depth (ch :: q) hdepth
    generalize njsJsonParseValue atod rounds depth (ch :: q) = x at hv
    cases x with
    | error e =>
      have hlen := length_tail_lt hskip
      refine fun henough => hv ⟨List.cons_ne_nil ch q, ?_⟩
      rw [List.length_cons]
      omega
    | ok x =>
      obtain ⟨v, r⟩ := x
      obtain ⟨t, ht, hv, hd⟩ := hv
      obtain ⟨⟨w', hw'⟩, -⟩ := skipSpace_spec r
      simp only
      cases hskip' : njsJsonSkipSpace r with
      | nil => exact .exception _ _
      | cons ch' q' =>
        rw [hskip'] at hw'
        simp only
        by_cases hcomma : ch' = chr ','
        · subst hcomma
          rw [if_neg (not_not.mpr rfl)]
          have hl := h.elements depth (elements ++ [v]) q' hdepth
          generalize arrayLoop atod rounds depth (elements ++ [v]) q' = y at hl
          cases y with
          | error e =>
            refine fun henough => hl ?_
            have hlen := congrArg List.length hw
            have hlen' := congrArg List.length ht
            rw [hw'] at hlen'
            simp only [List.length_append, List.length_cons] at hlen hlen'
            omega
          | ok y =>
            obtain ⟨l, r'⟩ := y
            obtain ⟨hnil, _⟩ | ⟨u, hu, hl, hd'⟩ := hl
            · exact absurd hnil (by simp)
            refine .inr ⟨.element w t w' u, ?_, ?_, ?_⟩
            · rw [hw, ht, hw', hu]
              simp [Syn.text]
            · rw [hl, hv, List.append_assoc]
              rfl
            · rw [Syn.depth]
              omega
        · rw [if_pos hcomma]
          split_ifs with hend
          · subst hend
            refine .inr ⟨.lastElement w t w', ?_, ?_, hd⟩
            · rw [hw, ht, hw']
              simp [Syn.text]
            · rw [hv]
              rfl
          · exact .exception _ _

theorem Sound.members_step (h : Sound atod rounds) (hdepth : 0 < depth)
    (members : List (Bytes × Value ν)) (p : Bytes) :
    Outcome (MembersTaken atod depth members p) (2 * p.length < rounds + 1)
      (objectLoop atod (rounds + 1) depth members p) := by
  obtain ⟨⟨w, hw⟩, -⟩ := skipSpace_spec p
  rw [objectLoop]
  cases hskip : njsJsonSkipSpace p with
  | nil => exact .exception _ _
  | cons ch q =>
    rw [hskip] at hw
    simp only
    by_cases hquote : ch = chr '"'
    · subst hquote
      rw [if_neg (not_not.mpr rfl)]
      cases hname : njsJsonParseString (chr '"' :: q) with
      | error e => exact fun _ => parseString_error hname rfl
      | ok x =>
        obtain ⟨name, q₁⟩ := x
        obtain ⟨pieces, hpieces, rfl⟩ := parseString_spec hname rfl
        obtain ⟨⟨w₁, hw₁⟩, -⟩ := skipSpace_spec q₁
        simp only
        cases hskip₁ : njsJsonSkipSpace q₁ with
        | nil => exact .exception _ _
        | cons ch₁ q₂ =>
          rw [hskip₁] at hw₁
          simp only
          by_cases hcolon : ch₁ = chr ':'
          · subst hcolon
            rw [if_neg (not_not.mpr rfl)]
            obtain ⟨⟨w₂, hw₂⟩, -⟩ := skipSpace_spec q₂
            cases hskip₂ : njsJsonSkipSpace q₂ with
            | nil => exact .exception _ _
            | cons ch₂ q₃ =>
              rw [hskip₂] at hw₂
              have hp : p = nameText w pieces w₁ w₂ ++ ch₂ :: q₃ := by
                rw [hw, hpieces, hw₁, hw₂]
                simp [nameText]
              have hlen := congrArg List.length hp
              simp only [List.length_append, List.length_cons] at hlen
              have hv := h.value depth (ch₂ :: q₃) hdepth
              simp only
              generalize njsJsonParseValue atod rounds depth (ch₂ :: q₃) = x at hv
              cases x with
              | error e =>
                refine fun henough => hv ⟨List.cons_ne_nil _ _, ?_⟩
                have hname := length_tail_lt hskip
                rw [List.length_cons]
                simp only [nameText, List.length_append, List.length_cons] at hlen
                omega
              | ok x =>
                obtain ⟨v, r⟩ := x
                obtain ⟨t, ht, hv, hd⟩ := hv
                obtain ⟨⟨w', hw'⟩, -⟩ := skipSpace_spec r
                simp only
                cases hskip' : njsJsonSkipSpace r with
                | nil => exact .exception _ _
                | cons ch' q' =>
                  rw [hskip'] at hw'
                  simp only
                  by_cases hcomma : ch' = chr ','
                  · subst hcomma
                    rw [if_neg (not_not.mpr rfl)]
                    have hl := h.members depth
                      (setMember (denote (reread pieces)) v members) q' hdepth
                    generalize objectLoop atod rounds depth
                      (setMember (denote (reread pieces)) v members) q' = y at hl
                    cases y with
                    | error e =>
                      refine fun henough => hl ?_
                      have hlen' := congrArg List.length ht
                      rw [hw'] at hlen'
                      simp only [List.length_append, List.length_cons] at hlen'
                      omega
                    | ok y =>
                      obtain ⟨l, r'⟩ := y
                      obtain ⟨hnil, _⟩ | ⟨u, hu, hl, hd'⟩ := hl
                      · exact absurd hnil (setMember_ne_nil _ _ _)
                      refine .inr ⟨.member w pieces w₁ w₂ t w' u, ?_, ?_, ?_⟩
                      · rw [hp, ht, hw', hu]
                        simp [Syn.text]
                      · rw [hl, hv]
                        rfl
                      · rw [Syn.depth]
                        omega
                  · rw [if_pos hcomma]
                    split_ifs with hend
                    · subst hend
                      refine .inr ⟨.lastMember w pieces w₁ w₂ t w', ?_, ?_, hd⟩
                      · rw [hp, ht, hw']
                        simp [Syn.text]
                      · rw [hv]
                        rfl
                    · exact .exception _ _
          · rw [if_pos hcolon]
            exact .exception _ _
    · rw [if_pos hquote]
      split_ifs with hclose hnil
      · exact .exception "Trailing comma" (0 :: 0 :: q)
      · subst hclose
        exact .inl ⟨not_not.mp hnil, not_not.mp hnil, w, hw⟩
      · exact .exception _ _

/-! ### Whole texts -/

theorem sound (atod : Bytes → ν) (rounds : ℕ) : Sound atod rounds := by
  induction rounds with
  | zero =>
    refine ⟨fun depth p _ => ?_, fun depth l p _ => ?_, fun depth l p _ => ?_⟩
    · rintro ⟨hne, hlen⟩
      exact absurd (List.length_eq_zero_iff.mp (by omega)) hne
    · exact fun hlen => absurd hlen (Nat.not_lt_zero _)
    · exact fun hlen => absurd hlen (Nat.not_lt_zero _)
  | succ rounds ih =>
    exact ⟨fun _ p hdepth => ih.value_step hdepth p, fun _ l p hdepth =>
      ih.elements_step hdepth l p,
      fun _ l p hdepth => ih.members_step hdepth l p⟩

theorem njsJsonParse_cases (atod : Bytes → ν) (s : Bytes) :
    (∃ t : Tree, t.text = s ∧ t.depth < njsJsonMaxDepth ∧
      njsJsonParse atod s = .ok (t.reread.denote atod)) ∨
    ∃ e, njsJsonParse atod s = .error e ∧ IsSyntaxError e := by
  obtain ⟨⟨w, hw⟩, -⟩ := skipSpace_spec s
  rw [njsJsonParse]
  cases hskip : njsJsonSkipSpace s with
  | nil => exact .inr ⟨_, rfl, _, _, rfl⟩
  | cons ch q =>
    rw [hskip] at hw
    have hv := (sound atod (2 * (ch :: q).length)).value njsJsonMaxDepth (ch :: q) (by decide)
    simp only
    generalize njsJsonParseValue atod (2 * (ch :: q).length) njsJsonMaxDepth (ch :: q) = x at hv
    match x, hv with
    | .error e, hv => exact .inr ⟨e, rfl, hv ⟨List.cons_ne_nil ch q, le_rfl⟩⟩
    | .ok (v, r), ⟨t, ht, hv, hd⟩ =>
      obtain ⟨⟨w', hw'⟩, -⟩ := skipSpace_spec r
      simp only
      cases hskip' : njsJsonSkipSpace r with
      | nil =>
        rw [hskip', List.append_nil] at hw'
        refine .inl ⟨⟨w, t, w'⟩, ?_, hd, ?_⟩
        · rw [hw, ht, hw', Tree.text, List.append_assoc]
        · rw [hv]
          rfl
      | cons ch' q' => exact .inr ⟨_, rfl, _, _, rfl⟩

end Njs.Json
