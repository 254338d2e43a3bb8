import Njs.Json.Completeness
import Njs.Json.Iterator

/-!
# What is written is read again

The text that the writer makes of a tree of plain values is that of a syntax tree that denotes the
values, the members of objects in the order of their names. So the parser gives them back. Without a
limit on the length of strings the writer makes this text; with a limit it makes the same text or
throws a RangeError.
-/

namespace Njs.Json

open Text
open SharedDict (ValidUtf8 EncodedText renderByte rendered renderByte_cases unescape_rendered)

variable {ν : Type}

/-- What formatting and parsing of numbers promise. -/
structure Numbers.Inverse (f : Numbers ν) : Prop where
  /-- A finite number is written as a numeral of JSON, in the buffer that is reserved for it. -/
  dtoa_json : ∀ num, f.isNan num = false → f.isInf num = false → JsonNumber (f.dtoa num)
  length_dtoa_le : ∀ num, (f.dtoa num).length ≤ 64
  atod_dtoa : ∀ num, f.isNan num = false → f.isInf num = false →
    f.equal (f.atod (f.dtoa num)) num = true

/-- Equality of values up to the order of the members of objects; numbers are compared by `==`. -/
inductive Same (f : Numbers ν) : Value ν → Value ν → Prop
  | null : Same f .null .null
  | boolean (b : Bool) : Same f (.boolean b) (.boolean b)
  | number {x y : ν} : f.equal x y = true → Same f (.number x) (.number y)
  | string (s : Bytes) : Same f (.string s) (.string s)
  | array {l l' : List (Value ν)} : List.Forall₂ (Same f) l l' → Same f (.array l) (.array l')
  | object {m m' : List (Bytes × Value ν)} : (m.map Prod.fst).Perm (m'.map Prod.fst) →
      (∀ p ∈ m, ∀ q ∈ m', p.1 = q.1 → Same f p.2 q.2) → Same f (.object m) (.object m')

/-! ### Pieces of a written string -/

theorem exists_pieces (s : Bytes) : ∃ l, rendered s = quoted l ∧ denote (reread l) = s := by
  have hzero : SharedDict.isHexDigit (chr '0') = true := by decide
  have hpiece : ∀ b, ∃ x : Piece, x.text = renderByte b := by
    intro b
    obtain ⟨hb, hge, hslash, hquote⟩ | ⟨e, hb, he, -⟩ | ⟨x, y, hb, hx, hy, -⟩ := renderByte_cases b
    · exact ⟨.byte b ⟨hge, hquote, hslash⟩, hb.symm⟩
    · exact ⟨.escape e he, hb.symm⟩
    · exact ⟨.unit ⟨chr '0', hzero⟩ ⟨chr '0', hzero⟩ ⟨x, hx⟩ ⟨y, hy⟩, hb.symm⟩
  obtain ⟨l, hl⟩ : ∃ l, piecesText l = s.flatMap renderByte := by
    induction s with
    | nil => exact ⟨[], rfl⟩
    | cons b s ih =>
      obtain ⟨x, hx⟩ := hpiece b
      obtain ⟨l, hl⟩ := ih
      exact ⟨x :: l, by rw [piecesText_cons, List.flatMap_cons, hx, hl]⟩
  refine ⟨l, by rw [quoted, hl]; rfl, ?_⟩
  rw [← unescape_pieces, hl, unescape_rendered]

/-! ### Syntax trees -/

def White (space : Bytes) : Prop := ∀ ch ∈ space, isSpace ch = true

def indentSpace {space : Bytes} (h : White space) (n : ℕ) : Space :=
  ⟨indentText space n, by
    intro ch hch
    rw [indentText] at hch
    split_ifs at hch
    · obtain hch | hch := List.mem_append.mp hch
      · rw [List.mem_singleton.mp hch]
        decide
      · obtain ⟨s, hs, hch⟩ := List.mem_flatten.mp hch
        rw [List.eq_of_mem_replicate hs] at hch
        exact h ch hch
    · cases hch⟩

def noSpace : Space := ⟨[], fun _ h => nomatch h⟩

def elementsTree (w w' : Space) : Syn .value → List (Syn .value) → Syn .elements
  | t, [] => .lastElement w t w'
  | t, t' :: l => .element w t noSpace (elementsTree w w' t' l)

def membersTree (w w₂ w' : Space) : List Piece × Syn .value → List (List Piece × Syn .value) →
    Syn .members
  | t, [] => .lastMember w t.1 noSpace w₂ t.2 w'
  | t, t' :: l => .member w t.1 noSpace w₂ t.2 noSpace (membersTree w w₂ w' t' l)

variable {space : Bytes} {n : ℕ} {f : Numbers ν} {v : Value ν}

theorem elementsTree_text (w w' : Space) (hw : w.1 = indentText space n) (l₀ : List (Value ν))
    (t : Syn .value) (l : List (Syn .value)) (i : ℕ) :
    itemsText space n (.array l₀) i ((t :: l).map fun t => (none, t.text)) ++ w'.1 =
      openText (.array l₀) i ++ (elementsTree w w' t l).text := by
  induction l generalizing t i with
  | nil => simp [itemsText, elementsTree, Syn.text, keyText, hw]
  | cons t' l ih =>
    have ih := ih t' (i + 1)
    have hopen : openText (Value.array l₀) (i + 1) = [chr ','] := rfl
    rw [hopen] at ih
    rw [List.map_cons, itemsText, List.append_assoc, ih]
    simp [elementsTree, Syn.text, keyText, hw, noSpace]

theorem membersTree_text (w w₂ w' : Space) (hw : w.1 = indentText space n)
    (hw₂ : w₂.1 = if space.length ≠ 0 then lit " " else []) (m₀ : List (Bytes × Value ν))
    (t : List Piece × Syn .value) (l : List (List Piece × Syn .value))
    (hkey : ∀ p ∈ t :: l, rendered (denote (reread p.1)) = quoted p.1) (i : ℕ) :
    itemsText space n (.object m₀) i
        ((t :: l).map fun t => (some (denote (reread t.1)), t.2.text)) ++ w'.1 =
      openText (.object m₀) i ++ (membersTree w w₂ w' t l).text := by
  induction l generalizing t i with
  | nil =>
    simp [itemsText, membersTree, Syn.text, keyText, nameText, hw, hw₂, noSpace,
      hkey t List.mem_cons_self, lit]
  | cons t' l ih =>
    have ih := ih t' (fun p hp => hkey p (List.mem_cons_of_mem t hp)) (i + 1)
    have hopen : openText (Value.object m₀) (i + 1) = [chr ','] := rfl
    rw [hopen] at ih
    rw [List.map_cons, itemsText, List.append_assoc, ih]
    simp [membersTree, Syn.text, keyText, nameText, hw, hw₂, noSpace, hkey t List.mem_cons_self,
      lit]

theorem elementsTree_denote (atod : Bytes → ν) (w w' : Space) (t : Syn .value)
    (l : List (Syn .value)) :
    ((elementsTree w w' t l).reread.denote atod : List (Value ν)) =
      (t :: l).map fun t => t.reread.denote atod := by
  induction l generalizing t with
  | nil => rfl
  | cons t' l ih =>
    rw [List.map_cons, ← ih t']
    rfl

theorem membersTree_denote (atod : Bytes → ν) (w w₂ w' : Space) (t : List Piece × Syn .value)
    (l : List (List Piece × Syn .value)) :
    ((membersTree w w₂ w' t l).reread.denote atod : List (Bytes × Value ν)) =
      (t :: l).map fun t => (denote (reread t.1), t.2.reread.denote atod) := by
  induction l generalizing t with
  | nil => rfl
  | cons t' l ih =>
    rw [List.map_cons, ← ih t']
    rfl

theorem elementsTree_depth (w w' : Space) (t : Syn .value) (l : List (Syn .value))
    (h : ∀ u ∈ t :: l, u.depth ≤ n) : (elementsTree w w' t l).depth ≤ n := by
  induction l generalizing t with
  | nil => exact h t List.mem_cons_self
  | cons u l ih =>
    exact max_le (h t List.mem_cons_self) (ih u fun x hx => h x (List.mem_cons_of_mem t hx))

theorem membersTree_depth (w w₂ w' : Space) (t : List Piece × Syn .value)
    (l : List (List Piece × Syn .value)) (h : ∀ u ∈ t :: l, u.2.depth ≤ n) :
    (membersTree w w₂ w' t l).depth ≤ n := by
  induction l generalizing t with
  | nil => exact h t List.mem_cons_self
  | cons u l ih =>
    exact max_le (h t List.mem_cons_self) (ih u fun x hx => h x (List.mem_cons_of_mem t hx))

/-- What the text of a value is: that of a tree that denotes the value. -/
structure Written (f : Numbers ν) (space : Bytes) (depth n : ℕ) (v : Value ν) (t : Syn .value) :
    Prop where
  put : Put f space depth v t.text
  same : Same f (t.reread.denote f.atod) v
  depth_le : t.depth ≤ n

theorem put_scalar (hv : njsJsonIsObject v = false) (hrounds : v.rounds = 0) {text : Bytes}
    (happend : ∀ maxSize chain, ∃ chain', njsJsonAppendValue f maxSize v chain = some chain' ∧
      Wrote maxSize chain text chain')
    (depth : ℕ) : Put f space depth v text := by
  intro maxSize rounds state states chain _ _
  obtain ⟨chain', happ, hwrote⟩ := happend maxSize chain
  refine ⟨chain', hwrote, ?_⟩
  rw [putItem, hv, if_neg Bool.false_ne_true, happ, hrounds]
  rfl

theorem written_word (t : Syn .value) (hv : njsJsonIsObject v = false) (hrounds : v.rounds = 0)
    (happend : ∀ maxSize chain, njsJsonAppendValue f maxSize v chain = some (njsChbAppend maxSize
      t.text chain))
    (hsame : Same f (t.reread.denote f.atod) v) (ht : t.depth = 0) (depth n : ℕ) :
    Written f space depth n v t where
  put := put_scalar hv hrounds
    (fun maxSize chain => ⟨_, happend maxSize chain, wrote_append _ _⟩) depth
  same := hsame
  depth_le := ht ▸ Nat.zero_le n

theorem written_string {s : Bytes} (hs : ValidUtf8 s) (depth n : ℕ) :
    ∃ t, Written f space depth n (.string s) t := by
  obtain ⟨l, hl, hdenote⟩ := exists_pieces s
  refine ⟨.string l, put_scalar rfl rfl (fun maxSize chain => ?_) depth, ?_, Nat.zero_le n⟩
  · rw [Syn.text, ← hl]
    exact appendString_spec maxSize hs.encoded chain
  · show Same f (.string (denote (reread l))) (.string s)
    rw [hdenote]
    exact .string s

theorem written_number (hf : f.Inverse) {num : ν} (hnan : f.isNan num = false)
    (hinf : f.isInf num = false) (depth n : ℕ) : ∃ t, Written f space depth n (.number num) t := by
  refine ⟨.number ⟨f.dtoa num, (hf.dtoa_json num hnan hinf).lax⟩,
    put_scalar rfl rfl (fun maxSize chain => ?_) depth, .number (hf.atod_dtoa num hnan hinf),
    Nat.zero_le n⟩
  have hfinite : (f.isNan num || f.isInf num) = false := by rw [hnan, hinf]; rfl
  rw [njsJsonAppendValue, njsJsonAppendNumber, hfinite, if_neg Bool.false_ne_true]
  cases chain with
  | none => exact ⟨none, rfl, rfl⟩
  | some s =>
    have hsize : 64 ≤ (f.dtoa num).length + 64 := Nat.le_add_left 64 _
    obtain ⟨hnone, hwrote⟩ | hsome := wrote_of_reserve maxSize (s := s) hsize
    · exact ⟨none, by rw [hnone], hwrote⟩
    · exact ⟨some (s ++ f.dtoa num), by rw [hsome]; exact if_pos (hf.length_dtoa_le num), .inl rfl⟩

theorem elementsRounds_eq (l : List (Value ν)) :
    elementsRounds l = itemsRounds (l.map fun v => (none, v)) := by
  induction l with
  | nil => rfl
  | cons v l ih =>
    rw [elementsRounds, ih]
    rfl

theorem membersRounds_eq (m : List (Bytes × Value ν)) :
    membersRounds m = (m.map fun p => p.2.rounds + 1).sum := by
  induction m with
  | nil => rfl
  | cons p m ih =>
    obtain ⟨k, v⟩ := p
    rw [membersRounds, ih]
    rfl

theorem exists_forall₂ {α β : Type} {R : α → β → Prop} {l : List α} (h : ∀ x ∈ l, ∃ y, R x y) :
    ∃ ys, List.Forall₂ R l ys := by
  induction l with
  | nil => exact ⟨[], .nil⟩
  | cons x l ih =>
    obtain ⟨y, hy⟩ := h x List.mem_cons_self
    obtain ⟨ys, hys⟩ := ih fun x hx => h x (List.mem_cons_of_mem _ hx)
    exact ⟨y :: ys, .cons hy hys⟩

theorem exists_of_mem_right {α β : Type} {R : α → β → Prop} {l : List α} {ys : List β}
    (h : List.Forall₂ R l ys) : ∀ y ∈ ys, ∃ x ∈ l, R x y := by
  induction h with
  | nil => exact fun y hy => nomatch hy
  | @cons x y l ys hxy _ ih =>
    rintro z (_ | ⟨_, hz⟩)
    · exact ⟨x, List.mem_cons_self, hxy⟩
    · obtain ⟨x', hx', hR⟩ := ih z hz
      exact ⟨x', List.mem_cons_of_mem x hx', hR⟩

def emptySpace {space : Bytes} (h : White space) (n : ℕ) : Space :=
  ⟨indentText space (n + 1) ++ indentText space n, fun ch hch =>
    (List.mem_append.mp hch).elim ((indentSpace h (n + 1)).2 ch) ((indentSpace h n).2 ch)⟩

theorem written_array (hspace : White space) {depth : ℕ} {l : List (Value ν)}
    (hl : Plain f (n + 1) (.array l)) (hdepth : depth + 1 < njsJsonMaxDepth)
    {ts : List (Syn .value)} (hts : List.Forall₂ (Written f space (depth + 1 + 1) n) l ts) :
    ∃ t, Written f space (depth + 1) (n + 1) (.array l) t := by
  have htexts : List.Forall₂ (fun x t => x.1 = t.1 ∧ (∀ k ∈ t.1, EncodedText k) ∧
      Put f space (depth + 1 + 1) x.2 t.2) (itemsOf f (.array l))
      (ts.map fun t => (none, t.text)) := by
    rw [itemsOf, List.forall₂_map_left_iff, List.forall₂_map_right_iff]
    exact hts.imp fun x t h => ⟨rfl, fun k hk => absurd hk (Option.not_mem_none k), h.put⟩
  have hput := put_container hl rfl
    (show Value.rounds _ = _ by rw [Value.rounds, elementsRounds_eq]; rfl) hdepth htexts
  have hle : ∀ t ∈ ts, t.depth ≤ n := by
    intro t ht
    obtain ⟨x, -, hx⟩ := exists_of_mem_right hts t ht
    exact hx.depth_le
  have hsame : List.Forall₂ (Same f) (ts.map fun t => t.reread.denote f.atod) l := by
    rw [List.forall₂_map_left_iff]
    exact hts.flip.imp fun _ _ h => h.same
  cases ts with
  | nil =>
    have htext : containerText space depth (.array l) [] =
        (Syn.emptyArray (emptySpace hspace depth)).text := by
      simp [containerText, itemsText, openText, closeText, emptySpace, Syn.text, lit]
    refine ⟨.emptyArray (emptySpace hspace depth), htext ▸ hput, ?_, ?_⟩
    · exact Same.array (l := []) hsame
    · exact Nat.succ_le_succ (Nat.zero_le n)
  | cons t ts =>
    have htext := elementsTree_text (indentSpace hspace (depth + 1)) (indentSpace hspace depth) rfl
      l t ts 0
    have hsyn : containerText space depth (.array l) ((t :: ts).map fun t => (none, t.text)) =
        (Syn.array (elementsTree (indentSpace hspace (depth + 1)) (indentSpace hspace depth)
          t ts)).text := by
      rw [containerText, if_neg (by simp), List.nil_append, ← List.append_assoc,
        show indentText space depth = (indentSpace hspace depth).1 from rfl, htext]
      rfl
    refine ⟨.array (elementsTree _ _ t ts), hsyn ▸ hput, ?_, ?_⟩
    · rw [← elementsTree_denote f.atod (indentSpace hspace (depth + 1))
        (indentSpace hspace depth)] at hsame
      exact .array hsame
    · exact Nat.succ_le_succ (elementsTree_depth _ _ t ts hle)

theorem lastWins_of_nodup {l : List (Bytes × Value ν)} (h : (l.map Prod.fst).Nodup) :
    lastWins l = l := by
  have hnames : memberNames l = l.map Prod.fst := by
    rw [memberNames, (List.nodup_reverse.mpr h).dedup, List.reverse_reverse]
  have hrev : (l.reverse.map Prod.fst).Nodup := by
    rw [List.map_reverse]
    exact List.nodup_reverse.mpr h
  rw [lastWins, hnames, List.filterMap_map]
  conv_rhs => rw [← List.filterMap_some (l := l)]
  refine List.filterMap_congr fun p hp => ?_
  exact find?_of_nodup hrev (List.mem_reverse.mpr hp)

theorem membersRounds_ordered (f : Numbers ν) (m : List (Bytes × Value ν)) :
    (Value.object m).rounds = itemsRounds (itemsOf f (.object m)) + 1 := by
  have hperm := ((orderedMembers_perm f m).map fun p => p.2.rounds + 1).sum_eq
  rw [Value.rounds, membersRounds_eq, itemsRounds, itemsOf, List.map_map, ← hperm]
  rfl

/-- The text of a member: its name in pieces, and the tree of its value. -/
structure WrittenMember (f : Numbers ν) (space : Bytes) (depth n : ℕ) (p : Bytes × Value ν)
    (t : List Piece × Syn .value) : Prop where
  encoded : EncodedText p.1
  quoted_eq : rendered p.1 = quoted t.1
  denote_eq : denote (reread t.1) = p.1
  written : Written f space depth n p.2 t.2

theorem written_object (hspace : White space) {depth : ℕ} {m : List (Bytes × Value ν)}
    (hm : Plain f (n + 1) (.object m)) (hnodup : (m.map Prod.fst).Nodup)
    (hdepth : depth + 1 < njsJsonMaxDepth) {ts : List (List Piece × Syn .value)}
    (hts : List.Forall₂ (WrittenMember f space (depth + 1 + 1) n) (orderedMembers f m) ts) :
    ∃ t, Written f space (depth + 1) (n + 1) (.object m) t := by
  have hperm := orderedMembers_perm f m
  have htexts : List.Forall₂ (fun x t => x.1 = t.1 ∧ (∀ k ∈ t.1, EncodedText k) ∧
      Put f space (depth + 1 + 1) x.2 t.2) (itemsOf f (.object m))
      (ts.map fun t => (some (denote (reread t.1)), t.2.text)) := by
    rw [itemsOf, List.forall₂_map_left_iff, List.forall₂_map_right_iff]
    refine hts.imp fun p t h => ⟨congrArg some h.denote_eq.symm, ?_, h.written.put⟩
    rintro k ⟨⟩
    rw [h.denote_eq]
    exact h.encoded
  have hput := put_container hm rfl (membersRounds_ordered f m) hdepth htexts
  have hle : ∀ t ∈ ts, t.2.depth ≤ n := by
    intro t ht
    obtain ⟨p, -, hp⟩ := exists_of_mem_right hts t ht
    exact hp.written.depth_le
  have hquoted : ∀ t ∈ ts, rendered (denote (reread t.1)) = quoted t.1 := by
    intro t ht
    obtain ⟨p, -, hp⟩ := exists_of_mem_right hts t ht
    rw [hp.denote_eq, hp.quoted_eq]
  have hsame : Same f (.object (lastWins (ts.map fun t =>
      (denote (reread t.1), t.2.reread.denote f.atod)))) (.object m) := by
    have hkeys : (ts.map fun t => (denote (reread t.1), t.2.reread.denote f.atod)).map Prod.fst =
        (orderedMembers f m).map Prod.fst := by
      rw [List.map_map, ← List.forall₂_eq_eq_eq, List.forall₂_map_left_iff,
        List.forall₂_map_right_iff]
      exact hts.flip.imp fun _ _ h => h.denote_eq
    rw [lastWins_of_nodup (by rw [hkeys]; exact (hperm.map Prod.fst).nodup_iff.mpr hnodup)]
    refine .object (hkeys ▸ hperm.map Prod.fst) fun p hp q hq heq => ?_
    obtain ⟨t, ht, rfl⟩ := List.mem_map.mp hp
    obtain ⟨x, hx, hwritten⟩ := exists_of_mem_right hts t ht
    obtain rfl : x = q := List.inj_on_of_nodup_map hnodup (hperm.mem_iff.mp hx) hq
      (hwritten.denote_eq.symm.trans heq)
    exact hwritten.written.same
  cases ts with
  | nil =>
    have htext : containerText space depth (.object m) [] =
        (Syn.emptyObject (emptySpace hspace depth)).text := by
      simp [containerText, itemsText, openText, closeText, emptySpace, Syn.text, lit]
    exact ⟨.emptyObject (emptySpace hspace depth), htext ▸ hput, hsame,
      Nat.succ_le_succ (Nat.zero_le n)⟩
  | cons t ts =>
    let w₂ : Space := if h : space.length ≠ 0 then ⟨lit " ", Text.forall_mem_of_all rfl⟩ else
      noSpace
    have hw₂ : w₂.1 = if space.length ≠ 0 then lit " " else [] := by
      by_cases h : space.length ≠ 0 <;> simp [w₂, h, noSpace]
    have htext := membersTree_text (indentSpace hspace (depth + 1)) w₂ (indentSpace hspace depth)
      rfl hw₂ m t ts hquoted 0
    have hsyn : containerText space depth (.object m)
        ((t :: ts).map fun t => (some (denote (reread t.1)), t.2.text)) =
        (Syn.object (membersTree (indentSpace hspace (depth + 1)) w₂ (indentSpace hspace depth)
          t ts)).text := by
      rw [containerText, if_neg (by simp), List.nil_append, ← List.append_assoc,
        show indentText space depth = (indentSpace hspace depth).1 from rfl, htext]
      rfl
    refine ⟨.object (membersTree _ w₂ _ t ts), hsyn ▸ hput, ?_, ?_⟩
    · rw [← membersTree_denote f.atod (indentSpace hspace (depth + 1)) w₂
        (indentSpace hspace depth)] at hsame
      exact hsame
    · exact Nat.succ_le_succ (membersTree_depth _ _ _ t ts hle)

theorem Plain.written (hf : f.Inverse) (hspace : White space) (hv : Plain f n v) :
    ∀ depth, depth + n < njsJsonMaxDepth → ∃ t, Written f space (depth + 1) n v t := by
  induction hv with
  | null n =>
    exact fun depth _ => ⟨.null, written_word .null rfl rfl (fun _ _ => rfl) .null rfl _ n⟩
  | boolean n b =>
    intro depth _
    refine ⟨.boolean b, written_word (.boolean b) rfl rfl ?_ (.boolean b) rfl _ n⟩
    cases b <;> exact fun _ _ => rfl
  | number n num hnan hinf => exact fun depth _ => written_number hf hnan hinf (depth + 1) n
  | string n s hs => exact fun depth _ => written_string hs (depth + 1) n
  | array n l hl ih =>
    intro depth hdepth
    obtain ⟨ts, hts⟩ := exists_forall₂ fun v hv => ih v hv (depth + 1) (by omega)
    exact written_array hspace (.array n l hl) (by omega) hts
  | object n m hnodup hnames hm ih =>
    intro depth hdepth
    obtain ⟨ts, hts⟩ : ∃ ts, List.Forall₂ (WrittenMember f space (depth + 1 + 1) n)
        (orderedMembers f m) ts := by
      refine exists_forall₂ fun p hp => ?_
      have hpm := (orderedMembers_perm f m).mem_iff.mp hp
      obtain ⟨l, hl, hdenote⟩ := exists_pieces p.1
      obtain ⟨t, ht⟩ := ih p hpm (depth + 1) (by omega)
      exact ⟨(l, t), (hnames p hpm).encoded, hl, hdenote, ht⟩
    exact written_object hspace (.object n m hnodup hnames hm) hnodup (by omega) hts

/-! ### The writer -/

theorem wrote_none {maxSize : ℕ} {text : Bytes} {chain : Chain} (h :
    Wrote maxSize none text chain) :
    chain = none := h

/-- The text around the value in the wrapper. -/
def wrapperOpen (space : Bytes) : Bytes :=
  lit "\x7b" ++ indentText space 0 ++ keyText space (some [])

/-- What the iterator does after its loop. -/
def unwrap (space : Bytes) (chain : Chain) : Except StringifyError (Option Bytes) :=
  let chain := njsChbDrop 1 (njsChbDrain 4 chain)
  let chain := if space.length ≠ 0 then njsChbDrop 1 (njsChbDrain 2 chain) else chain
  match chain with
  | none => .error .rangeError
  | some s => if s.length = 0 then .ok none else .ok (some s)

theorem wrapperOpen_eq (space : Bytes) :
    wrapperOpen space = if space.length ≠ 0 then lit "\x7b\n\"\": " else lit "\x7b\"\":" := by
  have hkey : rendered [] = lit "\"\"" := rfl
  split_ifs with h <;> simp [wrapperOpen, indentText, keyText, h, hkey, lit]

theorem wrapperClose_eq (space : Bytes) : indentText space 0 ++ lit "\x7d" =
      if space.length ≠ 0 then lit "\n\x7d" else lit "\x7d" := by
  split_ifs with h <;> simp [indentText, h, lit]

theorem length_wrapped_le (space text : Bytes) :
    (wrapperOpen space ++ text ++ (indentText space 0 ++ lit "\x7d")).length ≤ text.length + 8 := by
  rw [wrapperOpen_eq, wrapperClose_eq]
  split_ifs <;> simp [lit]

theorem unwrap_some (space : Bytes) {text : Bytes} (h : text ≠ []) :
    unwrap space (some (wrapperOpen space ++ text ++ (indentText space 0 ++ lit "\x7d"))) =
      .ok (some text) := by
  have hpos : text.length ≠ 0 := by simpa using h
  rw [wrapperOpen_eq, wrapperClose_eq]
  by_cases hspace : space.length ≠ 0 <;>
    simp [unwrap, njsChbDrain, njsChbDrop, hspace, hpos, List.take_append, lit]

theorem unwrap_none (space : Bytes) : unwrap space none = .error .rangeError := by
  by_cases hspace : space.length ≠ 0 <;> simp [unwrap, njsChbDrain, njsChbDrop, hspace]

theorem plain_wrapper (hv : Plain f n v) : Plain f (n + 1) (njsJsonWrapValue v) := by
  refine .object n _ (by simp) ?_ ?_
  · rintro p (_ | ⟨_, ⟨⟩⟩)
    exact ⟨[], rfl⟩
  · rintro p (_ | ⟨_, ⟨⟩⟩)
    exact hv

theorem itemsOf_wrapper (f : Numbers ν) (v : Value ν) :
    itemsOf f (njsJsonWrapValue v) = [(some [], v)] := by
  have hmembers : orderedMembers f [([], v)] = [([], v)] :=
    List.perm_singleton.mp (orderedMembers_perm f [([], v)])
  rw [njsJsonWrapValue, itemsOf, hmembers]
  rfl

theorem stringify_eq (f : Numbers ν) (maxSize : ℕ) (hv : Plain f n v) (space : Bytes) :
    ∃ chain, Wrote maxSize (some []) (wrapperOpen space) chain ∧
      njsJsonStringifyIterator f maxSize space v =
        (putItem f maxSize space (1 + v.rounds) v (stateAt f (njsJsonWrapValue v) 1) [] chain).bind
          (unwrap space) := by
  have hempty : EncodedText [] := ⟨[], fun _ h => (nomatch h), rfl⟩
  have hitem : (itemsOf f (njsJsonWrapValue v))[0]? = some (some [], v) := by
    rw [itemsOf_wrapper]
    rfl
  obtain ⟨c, hwrote, hloop⟩ := @iteratorLoop_before _ _ space _ _ _ (plain_wrapper hv) rfl _ _
    hitem (by rintro k ⟨⟩; exact hempty) [] maxSize (1 + v.rounds) (some [])
  refine ⟨c, hwrote, ?_⟩
  have hrounds : (njsJsonWrapValue v).rounds = 1 + v.rounds + 1 := by
    rw [njsJsonWrapValue, Value.rounds, membersRounds_eq]
    simp
    omega
  have hdef : njsJsonStringifyIterator f maxSize space v =
      (iteratorLoop f maxSize space (njsJsonWrapValue v).rounds
        [stateAt f (njsJsonWrapValue v) 0] (some [])).bind (unwrap space) := by
    rw [njsJsonStringifyIterator]
    show _ = (iteratorLoop f maxSize space (njsJsonWrapValue v).rounds
      [pushState f (njsJsonWrapValue v)] (some [])).bind _
    cases iteratorLoop f maxSize space (njsJsonWrapValue v).rounds
      [pushState f (njsJsonWrapValue v)] (some []) <;> rfl
  rw [hdef, hrounds, hloop]

theorem iteratorLoop_wrapper (f : Numbers ν) (maxSize : ℕ) (hv : Plain f n v) (space : Bytes)
    (chain : Chain) :
    ∃ chain', Wrote maxSize chain (indentText space 0 ++ lit "\x7d") chain' ∧
      iteratorLoop f maxSize space 1 [stateAt f (njsJsonWrapValue v) 1] chain = .ok chain' := by
  have hitem : (itemsOf f (njsJsonWrapValue v))[1]? = none := by
    rw [itemsOf_wrapper]
    rfl
  have htimes : ((-1 : ℤ) + (0 + 1 : ℕ) - 1).toNat = 0 := rfl
  refine ⟨_, (wrote_indent maxSize htimes chain).trans (wrote_append _ _), ?_⟩
  rw [iteratorLoop]
  simp only [stateAt_item (plain_wrapper hv), hitem]
  rfl

theorem stringifySpace_white (f : Numbers ν) {arg : SpaceArg ν}
    (h : ∀ s, arg = .string s → White s) : White (stringifySpace f arg) := by
  cases arg with
  | undefined => exact fun ch hch => nomatch hch
  | number num =>
    intro ch hch
    rw [List.eq_of_mem_replicate hch]
    decide
  | string s => exact fun ch hch => h s rfl ch (List.mem_of_mem_take hch)

theorem Syn.text_ne_nil (t : Syn .value) : t.text ≠ [] := by
  obtain ⟨ch, q, hq, -⟩ := t.exists_cons
  rw [hq]
  exact List.cons_ne_nil ch q

/-- Without a limit on the length of strings, the text of a plain value is read again as the same
value up to the order of members. With a limit it is the same text, or a RangeError is thrown, which
takes a text that is longer than the limit less 72 bytes. -/
theorem parse_stringify {f : Numbers ν} (hf : f.Inverse) {v : Value ν} (hv : Plain f 31 v)
    {arg : SpaceArg ν} (harg : ∀ s, arg = .string s → White s) :
    ∃ text v', njsJsonStringify f 0 v arg = .ok (some text) ∧
      njsJsonParse f.atod text = .ok v' ∧ Same f v' v ∧
      ∀ maxSize, njsJsonStringify f maxSize v arg = .ok (some text) ∨
        njsJsonStringify f maxSize v arg = .error .rangeError ∧ maxSize < text.length + 72 := by
  have hspace := stringifySpace_white f harg
  obtain ⟨t, ht⟩ := hv.written hf hspace 0 (by decide)
  have hstringify : ∀ maxSize, njsJsonStringify f maxSize v arg = .ok (some t.text) ∨
      njsJsonStringify f maxSize v arg = .error .rangeError ∧ maxSize ≠ 0 ∧
        maxSize < t.text.length + 72 := by
    intro maxSize
    obtain ⟨c₁, hopen, heq⟩ := stringify_eq f maxSize hv (stringifySpace f arg)
    obtain ⟨c₂, hvalue, hput⟩ := ht.put maxSize 1 (stateAt f (njsJsonWrapValue v) 1) [] c₁ rfl rfl
    obtain ⟨c₃, hclose, hlast⟩ := iteratorLoop_wrapper f maxSize hv (stringifySpace f arg) c₂
    rw [njsJsonStringify, heq, hput, hlast]
    obtain hc | ⟨hc, hne, hlt⟩ := (hopen.trans hvalue).trans hclose
    · rw [hc]
      exact .inl (unwrap_some _ t.text_ne_nil)
    · have hle := length_wrapped_le (stringifySpace f arg) t.text
      rw [hc]
      refine .inr ⟨unwrap_none _, hne, ?_⟩
      rw [List.length_nil] at hlt
      omega
  have hparse := Tree.parses f.atod ⟨noSpace, t, noSpace⟩ (Nat.lt_succ_of_le ht.depth_le)
  have htext : (Tree.mk noSpace t noSpace).text = t.text := by
    simp [Tree.text, noSpace]
  rw [htext] at hparse
  refine ⟨t.text, _, ?_, hparse, ht.same, fun maxSize => ?_⟩
  · obtain h | ⟨-, hne, -⟩ := hstringify 0
    · exact h
    · exact absurd rfl hne
  · exact (hstringify maxSize).imp_right fun h => ⟨h.1, h.2.2⟩

def digits : Numbers (Fin 10) where
  dtoa num := [chr '0' + num.val.toUInt8]
  atod s := Fin.ofNat 10 (s.headD 0 - chr '0').toNat
  uint32 num := some num
  ofUint32 n := Fin.ofNat 10 n
  negZero := 0
  isNegZero _ := false
  isNan _ := false
  isInf _ := false
  isNegative _ := false
  toInteger num := num
  equal x y := x = y

theorem digits_inverse : digits.Inverse where
  dtoa_json num _ _ := by
    refine ⟨[], digits.dtoa num, [], [], by simp, by simp, ?_, .inl rfl, .inl rfl⟩
    by_cases h : num = 0
    · exact .inl (h ▸ rfl)
    have hdigit : ∀ num : Fin 10, isDigit (chr '0' + num.val.toUInt8) = true := by decide
    refine .inr ⟨⟨List.cons_ne_nil _ _, fun ch hch => ?_⟩, ?_⟩
    · rw [List.mem_singleton.1 hch]
      exact hdigit num
    · revert num
      decide
  length_dtoa_le num := by
    rw [show (digits.dtoa num).length = 1 from rfl]
    omega
  atod_dtoa num _ _ := by
    revert num
    decide

theorem parse_stringify_pair : ∃ text v',
    njsJsonStringify digits 0 (.array [.number 1, .object [(lit "a", .null)]]) (.number 2) =
      .ok (some text) ∧
    njsJsonParse digits.atod text = .ok v' ∧
    Same digits v' (.array [.number 1, .object [(lit "a", .null)]]) ∧
    ∀ maxSize, njsJsonStringify digits maxSize (.array [.number 1, .object [(lit "a", .null)]])
        (.number 2) = .ok (some text) ∨
      njsJsonStringify digits maxSize (.array [.number 1, .object [(lit "a", .null)]])
        (.number 2) = .error .rangeError ∧ maxSize < text.length + 72 := by
  refine parse_stringify digits_inverse (.array 30 _ ?_) (fun _ h => nomatch h)
  rintro v (_ | ⟨_, _ | ⟨_, ⟨⟩⟩⟩)
  · exact .number 30 1 rfl rfl
  · refine .object 29 _ (by decide) ?_ ?_
    · rintro p (_ | ⟨_, ⟨⟩⟩)
      exact ⟨['a'], by decide⟩
    · rintro p (_ | ⟨_, ⟨⟩⟩)
      exact .null 29

theorem stringify_long (f : Numbers ν) {maxSize : ℕ} (hmax : maxSize ≠ 0) {s : Bytes}
    (hs : ValidUtf8 s) (hlong : maxSize ≤ s.length) (arg : SpaceArg ν) :
    njsJsonStringify f maxSize (.string s) arg = .error .rangeError := by
  obtain ⟨c₁, -, heq⟩ := stringify_eq f maxSize (.string 0 s hs) (stringifySpace f arg)
  obtain ⟨c₂, hclose, hlast⟩ := iteratorLoop_wrapper f maxSize (.string 0 s hs)
    (stringifySpace f arg) none
  have happend : njsJsonAppendValue f maxSize (.string s) c₁ = some none := by
    rw [njsJsonAppendValue, njsJsonAppendString]
    cases c₁ with
    | none => rfl
    | some c =>
      have hover : maxSize ≠ 0 ∧ c.length + max (s.length + 2) 7 > maxSize := ⟨hmax, by omega⟩
      simp only [njsChbReserve, Option.bind_some, if_pos hover]
  have hobject : njsJsonIsObject (Value.string s : Value ν) = false := rfl
  rw [njsJsonStringify, heq, putItem, hobject, if_neg Bool.false_ne_true, happend]
  show (iteratorLoop f maxSize _ 1 _ none).bind _ = _
  rw [hlast, wrote_none hclose]
  exact unwrap_none _

def longest : Bytes := List.replicate njsStringMaxLength (chr 'a')

/-- The longest string is a plain value, and it has no text. -/
theorem stringify_longest : Plain digits 31 (.string longest) ∧
    njsJsonStringify digits njsStringMaxLength (.string longest) .undefined =
      .error .rangeError := by
  have hutf8 : ValidUtf8 longest := by
    refine ⟨List.replicate njsStringMaxLength 'a', ?_⟩
    rw [longest, List.flatMap_replicate, show String.utf8EncodeChar 'a' = [chr 'a'] from rfl,
      List.flatten_replicate_singleton]
  exact ⟨.string 31 _ hutf8, stringify_long digits (by decide) hutf8
    (by rw [longest, List.length_replicate]) .undefined⟩

end Njs.Json
