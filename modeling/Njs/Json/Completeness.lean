import Njs.Json.Strings

/-!
# The parser on the text of a tree

A tree that is not nested too deep is parsed, and the value is that of the tree with its strings
read again.
-/

namespace Njs.Json

open Text

variable {ν : Type}

/-! ### Space and first bytes -/

def NoSpace (p : Bytes) : Prop := ∀ ch ∈ p.head?, isSpace ch = false

theorem NoSpace.cons {ch : UInt8} (h : isSpace ch = false) (p : Bytes) : NoSpace (ch :: p) :=
  fun x hx => by
    obtain rfl := Option.some.inj hx
    exact h

variable {p name : Bytes} {l : List (Bytes × Value ν)}

theorem skipSpace_append (w : Space) (hp : NoSpace p) : njsJsonSkipSpace (w.1 ++ p) = p := by
  rw [njsJsonSkipSpace, List.dropWhile_append_of_pos w.2]
  cases p with
  | nil => rfl
  | cons ch p => rw [List.dropWhile_cons_of_neg (by rw [hp ch rfl]; exact Bool.false_ne_true)]

/-- The bytes that numerals begin with. -/
def isNumberHead (ch : UInt8) : Bool :=
  ch = chr '+' || ch = chr '-' || ch = chr '.' || isDigit ch

/-- The bytes that values begin with. -/
def isValueHead (ch : UInt8) : Bool := isNumberHead ch || ch ∈ lit "\x7b[\"tfn"

theorem LaxNumber.exists_cons {n : Bytes} (h : LaxNumber n) :
    ∃ ch q, n = ch :: q ∧ isNumberHead ch = true := by
  obtain ⟨sign, body, rfl, hsign, hbody⟩ := h
  simp only [List.mem_cons, List.not_mem_nil, or_false] at hsign
  obtain rfl | rfl | rfl := hsign
  · obtain ⟨hne, -⟩ | ⟨m, e, rfl, hm, -⟩ := hbody
    · exact absurd rfl hne
    · obtain ⟨ch, q, rfl, hch⟩ := hm.exists_cons
      refine ⟨ch, _, rfl, ?_⟩
      obtain hch | rfl := hch
      · simp [isNumberHead, hch]
      · rfl
  · exact ⟨_, _, rfl, rfl⟩
  · exact ⟨_, _, rfl, rfl⟩

theorem Syn.exists_cons (t : Syn .value) : ∃ ch q, t.text = ch :: q ∧ isValueHead ch = true := by
  cases t with
  | null => exact ⟨_, _, rfl, by decide⟩
  | boolean b => cases b <;> exact ⟨_, _, rfl, by decide⟩
  | number n =>
    obtain ⟨ch, q, hn, hch⟩ := n.2.exists_cons
    exact ⟨ch, q, hn, by rw [isValueHead, hch, Bool.true_or]⟩
  | string s => exact ⟨_, _, rfl, by decide⟩
  | emptyArray w => exact ⟨_, _, rfl, by decide⟩
  | array l => exact ⟨_, _, rfl, by decide⟩
  | emptyObject w => exact ⟨_, _, rfl, by decide⟩
  | object l => exact ⟨_, _, rfl, by decide⟩

/-! ### Members -/

/-- The members of an object after some more of its text. -/
def setMembers (members l : List (Bytes × Value ν)) : List (Bytes × Value ν) :=
  l.foldl (fun members m => setMember m.1 m.2 members) members

theorem setMember_ne_nil (name : Bytes) (value : Value ν) (l : List (Bytes × Value ν)) :
    setMember name value l ≠ [] := by
  cases l with
  | nil => exact List.cons_ne_nil _ _
  | cons m l =>
    rw [setMember]
    split_ifs <;> exact List.cons_ne_nil _ _

theorem setMember_of_notMem (h : name ∉ l.map Prod.fst) (value : Value ν) :
    setMember name value l = l ++ [(name, value)] := by
  induction l with
  | nil => rfl
  | cons m l ih =>
    rw [List.map_cons, List.mem_cons, not_or] at h
    rw [setMember, if_neg (Ne.symm h.1), ih h.2, List.cons_append]

theorem mem_memberNames : name ∈ memberNames l ↔ name ∈ l.map Prod.fst := by
  rw [memberNames, List.mem_reverse, List.mem_dedup, List.mem_reverse]

theorem nodup_memberNames (l : List (Bytes × Value ν)) : (memberNames l).Nodup :=
  List.nodup_reverse.mpr (List.nodup_dedup _)

theorem memberNames_concat (l : List (Bytes × Value ν)) (m : Bytes × Value ν) :
    memberNames (l ++ [m]) =
      if m.1 ∈ l.map Prod.fst then memberNames l else memberNames l ++ [m.1] := by
  have hreverse : ((l ++ [m]).map Prod.fst).reverse = m.1 :: (l.map Prod.fst).reverse := by
    simp
  rw [memberNames, hreverse]
  split_ifs with hmem
  · rw [List.dedup_cons_of_mem (List.mem_reverse.mpr hmem)]
    rfl
  · rw [List.dedup_cons_of_notMem (mt List.mem_reverse.mp hmem), List.reverse_cons]
    rfl

theorem exists_lastOf (h : name ∈ memberNames l) :
    ∃ value, l.reverse.find? (·.1 = name) = some (name, value) := by
  obtain ⟨m, hm, rfl⟩ := List.mem_map.mp (mem_memberNames.mp h)
  obtain ⟨r, hr⟩ : ∃ r, l.reverse.find? (·.1 = m.1) = some r :=
    Option.isSome_iff_exists.mp (List.find?_isSome.mpr ⟨m, List.mem_reverse.mpr hm, by simp⟩)
  have hname : r.1 = m.1 := by simpa using List.find?_some hr
  exact ⟨r.2, by rw [hr, ← hname]⟩

theorem setMember_filterMap (value : Value ν) {names : List Bytes}
    {get : Bytes → Option (Bytes × Value ν)} (hnodup : names.Nodup) (hmem : name ∈ names)
    (hget : ∀ n ∈ names, ∃ v, get n = some (n, v)) :
    setMember name value (names.filterMap get) =
      names.filterMap fun n => if name = n then some (name, value) else get n := by
  induction names with
  | nil => cases hmem
  | cons n names ih =>
    obtain ⟨hn, hnodup⟩ := List.nodup_cons.mp hnodup
    obtain ⟨v, hv⟩ := hget n List.mem_cons_self
    have hget : ∀ n ∈ names, ∃ v, get n = some (n, v) :=
      fun x hx => hget x (List.mem_cons_of_mem n hx)
    rw [List.filterMap_cons_some hv]
    by_cases heq : name = n
    · subst heq
      have hrest : names.filterMap (fun n => if name = n then some (name, value) else get n) =
          names.filterMap get := by
        refine List.filterMap_congr fun x hx => ?_
        rw [if_neg]
        rintro rfl
        exact hn hx
      rw [List.filterMap_cons, if_pos rfl, setMember, if_pos rfl, hrest]
    · have hmem : name ∈ names := (List.mem_cons.mp hmem).resolve_left heq
      rw [List.filterMap_cons, if_neg heq, hv, setMember, if_neg (Ne.symm heq), ih hnodup hmem hget]

theorem lastWins_concat (l : List (Bytes × Value ν)) (name : Bytes) (value : Value ν) :
    lastWins (l ++ [(name, value)]) = setMember name value (lastWins l) := by
  have hget : ∀ n ∈ memberNames l, ∃ v, l.reverse.find? (·.1 = n) = some (n, v) :=
    fun n hn => exists_lastOf hn
  have hconcat : lastWins (l ++ [(name, value)]) =
      (memberNames (l ++ [(name, value)])).filterMap fun n =>
        if name = n then some (name, value) else l.reverse.find? (·.1 = n) := by
    refine List.filterMap_congr fun n _ => ?_
    rw [List.reverse_concat, List.find?_cons]
    by_cases h : name = n <;> simp [h]
  rw [hconcat, memberNames_concat]
  by_cases hmem : name ∈ l.map Prod.fst
  · rw [if_pos hmem, lastWins,
      setMember_filterMap value (nodup_memberNames l) (mem_memberNames.mpr hmem) hget]
  have hsame : ((memberNames l).filterMap fun n =>
      if name = n then some (name, value) else l.reverse.find? (·.1 = n)) = lastWins l := by
    refine List.filterMap_congr fun n hn => if_neg ?_
    rintro rfl
    exact hmem (mem_memberNames.mp hn)
  have hnew : name ∉ (lastWins l).map Prod.fst := by
    intro h
    obtain ⟨m, hm, rfl⟩ := List.mem_map.mp h
    obtain ⟨n, hn, hfind⟩ := List.mem_filterMap.mp hm
    obtain ⟨v, hv⟩ := hget n hn
    rw [hv] at hfind
    obtain rfl := Option.some.inj hfind
    exact hmem (mem_memberNames.mp hn)
  rw [if_neg hmem, List.filterMap_append, hsame, setMember_of_notMem hnew]
  simp

theorem setMembers_nil (l : List (Bytes × Value ν)) : setMembers [] l = lastWins l := by
  induction l using List.reverseRecOn with
  | nil => rfl
  | append_singleton l m ih =>
    have hfold : setMembers [] (l ++ [m]) = setMember m.1 m.2 (setMembers [] l) :=
      List.foldl_concat ..
    rw [hfold, ih]
    exact (lastWins_concat l m.1 m.2).symm

/-! ### First bytes -/

/-- What a byte tells the parser. -/
structure HeadByte (ch : UInt8) : Prop where
  value : isValueHead ch = true → isSpace ch = false ∧ ch ≠ chr ']' ∧ ch ≠ chr '\x7d'
  number : isNumberHead ch = true → ch ≠ chr '\x7b' ∧ ch ≠ chr '[' ∧ ch ≠ chr '"' ∧ ch ≠ chr 't' ∧
    ch ≠ chr 'f' ∧ ch ≠ chr 'n' ∧ (ch.toNat : ℤ) - (chr '0').toNat ≤ 9
  /-- The bytes that can stand after a value. -/
  after : (isSpace ch || ch ∈ lit ",]\x7d") = true →
    isDigit ch = false ∧ ch ≠ chr '.' ∧ ch ∉ lit "eE"

set_option synthInstance.maxSize 256 in
theorem headByte (ch : UInt8) : HeadByte ch where
  value := by
    revert ch
    exact forall_byte (by decide)
  number := by
    revert ch
    exact forall_byte (by decide)
  after := by
    revert ch
    exact forall_byte (by decide)

/-- The text goes on with what can stand after a value. -/
def Delimited (p : Bytes) : Prop :=
  ∀ ch ∈ p.head?, (isSpace ch || ch ∈ lit ",]\x7d") = true

theorem Delimited.cons {ch : UInt8} (h : (isSpace ch || ch ∈ lit ",]\x7d") = true) (p : Bytes) :
    Delimited (ch :: p) := fun x hx => by
  obtain rfl := Option.some.inj hx
  exact h

theorem Delimited.stops (h : Delimited p) : Stops p :=
  fun ch hch => (headByte ch).after (h ch hch)

theorem Delimited.space (w : Space) (h : Delimited p) : Delimited (w.1 ++ p) := by
  obtain ⟨_ | ⟨ch, w⟩, hw⟩ := w
  · exact h
  · intro x hx
    obtain rfl : ch = x := Option.some.inj hx
    rw [hw ch List.mem_cons_self, Bool.true_or]

/-! ### One round of the loops -/

variable {atod : Bytes → ν} {rounds depth : ℕ}

theorem njsJsonParseValue_object {r : Bytes} (hdepth : 1 < depth)
    (h : objectLoop atod rounds (depth - 1) [] p = .ok (l, r)) :
    njsJsonParseValue atod (rounds + 1) depth (chr '\x7b' :: p) = .ok (.object l, r) := by
  rw [njsJsonParseValue]
  simp [h, Nat.sub_ne_zero_of_lt hdepth]

theorem njsJsonParseValue_array {l : List (Value ν)} {r : Bytes} (hdepth : 1 < depth)
    (h : arrayLoop atod rounds (depth - 1) [] p = .ok (l, r)) :
    njsJsonParseValue atod (rounds + 1) depth (chr '[' :: p) = .ok (.array l, r) := by
  have hne : chr '[' ≠ chr '\x7b' := by decide
  rw [njsJsonParseValue]
  simp [h, hne, Nat.sub_ne_zero_of_lt hdepth]

theorem njsJsonParseValue_number {n : Bytes} (hn : LaxNumber n) (hp : Stops p) :
    njsJsonParseValue atod (rounds + 1) depth (n ++ p) = .ok (.number (atod n), p) := by
  have hatod := njsAtod_append hn hp
  obtain ⟨ch, q, rfl, hch⟩ := hn.exists_cons
  obtain ⟨h₁, h₂, h₃, h₄, h₅, h₆, hle⟩ := (headByte ch).number hch
  rw [List.cons_append] at hatod ⊢
  rw [njsJsonParseValue, njsJsonParseNumber, hatod]
  simp only [List.headD_cons, h₁, h₂, h₃, h₄, h₅, h₆, hle, if_false, or_true, if_true]

theorem njsJsonParseValue_string (s : List Piece) (p : Bytes) :
    njsJsonParseValue atod (rounds + 1) depth (quoted s ++ p) =
      .ok (.string (denote (reread s)), p) := by
  have hne : chr '"' ≠ chr '\x7b' ∧ chr '"' ≠ chr '[' := by decide
  have hhead : (quoted s ++ p).headD 0 = chr '"' := rfl
  rw [njsJsonParseValue, parseString_quoted]
  simp only [hhead, hne.1, hne.2, if_false, if_true]

theorem arrayLoop_empty (w : Space) (p : Bytes) :
    arrayLoop atod (rounds + 1) depth [] (w.1 ++ chr ']' :: p) = .ok ([], p) := by
  have hspace : NoSpace (chr ']' :: p) := .cons (by decide) p
  rw [arrayLoop, skipSpace_append w hspace]
  simp

def afterElement (atod : Bytes → ν) (rounds depth : ℕ) (elements : List (Value ν)) (p : Bytes) :
    Except Error (List (Value ν) × Bytes) :=
  match p with
  | [] => parseException "Unexpected end of input" []
  | ch :: p =>
    if ch ≠ chr ',' then
      if ch = chr ']' then .ok (elements, p)
      else parseException "Unexpected token" (ch :: p)
    else arrayLoop atod rounds depth elements p

def afterMember (atod : Bytes → ν) (rounds depth : ℕ) (members : List (Bytes × Value ν))
    (p : Bytes) : Except Error (List (Bytes × Value ν) × Bytes) :=
  match p with
  | [] => parseException "Unexpected end of input" []
  | ch :: p =>
    if ch ≠ chr ',' then
      if ch = chr '\x7d' then .ok (members, p)
      else parseException "Unexpected token" (ch :: p)
    else objectLoop atod rounds depth members p

theorem arrayLoop_element {elements : List (Value ν)} {v : Syn .value} {value : Value ν}
    (w w' : Space)
    (hv : njsJsonParseValue atod rounds depth (v.text ++ (w'.1 ++ p)) = .ok (value, w'.1 ++ p))
    (hp : NoSpace p) :
    arrayLoop atod (rounds + 1) depth elements (w.1 ++ (v.text ++ (w'.1 ++ p))) =
      afterElement atod rounds depth (elements ++ [value]) p := by
  obtain ⟨ch, q, hq, hch⟩ := v.exists_cons
  obtain ⟨hspace, hclose, -⟩ := (headByte ch).value hch
  have hv₀ : NoSpace (ch :: (q ++ (w'.1 ++ p))) := .cons hspace _
  rw [hq, List.cons_append] at hv ⊢
  rw [arrayLoop, skipSpace_append w hv₀]
  simp only [if_neg hclose, hv, skipSpace_append w' hp]
  rfl

theorem objectLoop_empty (w : Space) (p : Bytes) :
    objectLoop atod (rounds + 1) depth [] (w.1 ++ chr '\x7d' :: p) = .ok ([], p) := by
  have hspace : NoSpace (chr '\x7d' :: p) := .cons (by decide) p
  have hne : chr '\x7d' ≠ chr '"' := by decide
  rw [objectLoop, skipSpace_append w hspace]
  simp [hne]

theorem objectLoop_member {members : List (Bytes × Value ν)} {v : Syn .value} {value : Value ν}
    (w : Space) (name : List Piece) (w₁ w₂ w' : Space)
    (hv : njsJsonParseValue atod rounds depth (v.text ++ (w'.1 ++ p)) = .ok (value, w'.1 ++ p))
    (hp : NoSpace p) :
    objectLoop atod (rounds + 1) depth members (nameText w name w₁ w₂ ++ (v.text ++ (w'.1 ++ p))) =
      afterMember atod rounds depth (setMember (denote (reread name)) value members) p := by
  obtain ⟨ch, q, hq, hch⟩ := v.exists_cons
  obtain ⟨hspace, -, -⟩ := (headByte ch).value hch
  have hv₀ : NoSpace (ch :: (q ++ (w'.1 ++ p))) := .cons hspace _
  rw [hq, List.cons_append] at hv ⊢
  have htext : nameText w name w₁ w₂ ++ ch :: (q ++ (w'.1 ++ p)) =
      w.1 ++ (chr '"' :: (piecesText name ++ [chr '"'] ++
        (w₁.1 ++ (chr ':' :: (w₂.1 ++ (ch :: (q ++ (w'.1 ++ p)))))))) := by
    simp [nameText, quoted]
  have hquote : NoSpace (chr '"' :: (piecesText name ++ [chr '"'] ++
        (w₁.1 ++ (chr ':' :: (w₂.1 ++ (ch :: (q ++ (w'.1 ++ p)))))))) :=
    .cons (by decide) _
  have hcolon : NoSpace (chr ':' :: (w₂.1 ++ (ch :: (q ++ (w'.1 ++ p))))) :=
    .cons (by decide) _
  have hname : njsJsonParseString (chr '"' :: (piecesText name ++ [chr '"'] ++
        (w₁.1 ++ (chr ':' :: (w₂.1 ++ (ch :: (q ++ (w'.1 ++ p)))))))) = _ :=
    parseString_quoted name _
  rw [htext, objectLoop, skipSpace_append w hquote]
  simp only [ne_eq, not_true, if_false, hname, skipSpace_append w₁ hcolon, skipSpace_append w₂ hv₀,
    hv, skipSpace_append w' hp]
  rfl

/-! ### Trees -/

/-- What the parser makes of the text of a tree. -/
def Syn.Parses (atod : Bytes → ν) : {k : Kind} → Syn k → Prop
  | .value, t => ∀ rounds depth p, t.text.length ≤ rounds → t.depth < depth → Delimited p →
      njsJsonParseValue atod rounds depth (t.text ++ p) = .ok (t.reread.denote atod, p)
  | .elements, l => ∀ rounds depth elements p, l.text.length < rounds → l.depth < depth →
      arrayLoop atod rounds depth elements (l.text ++ chr ']' :: p) =
        .ok (elements ++ (l.reread.denote atod : List (Value ν)), p)
  | .members, l => ∀ rounds depth members p, l.text.length < rounds → l.depth < depth →
      objectLoop atod rounds depth members (l.text ++ chr '\x7d' :: p) =
        .ok (setMembers members (l.reread.denote atod), p)

theorem Syn.parses (atod : Bytes → ν) : ∀ {k : Kind} (t : Syn k), t.Parses atod
  | _, .null => by
    intro rounds depth p hrounds _ _
    obtain ⟨rounds, rfl⟩ := Nat.exists_eq_add_of_lt (Nat.lt_of_lt_of_le (Nat.succ_pos 3) hrounds)
    rw [Nat.zero_add, njsJsonParseValue]
    rfl
  | _, .boolean b => by
    intro rounds depth p hrounds _ _
    have hpos : 0 < (Syn.boolean b).text.length := by cases b <;> decide
    obtain ⟨rounds, rfl⟩ := Nat.exists_eq_add_of_lt (Nat.lt_of_lt_of_le hpos hrounds)
    rw [Nat.zero_add, njsJsonParseValue]
    cases b <;> rfl
  | _, .number n => by
    intro rounds depth p hrounds _ hp
    obtain ⟨ch, q, hn, -⟩ := n.2.exists_cons
    have hpos : 0 < (Syn.number n).text.length := by
      rw [Syn.text, hn]
      exact Nat.succ_pos _
    obtain ⟨rounds, rfl⟩ := Nat.exists_eq_add_of_lt (Nat.lt_of_lt_of_le hpos hrounds)
    rw [Nat.zero_add]
    exact njsJsonParseValue_number n.2 hp.stops
  | _, .string s => by
    intro rounds depth p hrounds _ hp
    obtain ⟨rounds, rfl⟩ := Nat.exists_eq_add_of_lt (Nat.lt_of_lt_of_le (Nat.succ_pos _) hrounds)
    rw [Nat.zero_add]
    exact njsJsonParseValue_string s p
  | _, .emptyArray w => by
    intro rounds depth p hrounds hdepth _
    obtain ⟨rounds, rfl⟩ : ∃ n, rounds = n + 2 := ⟨rounds - 2, by
      simp only [Syn.text, List.length_cons, List.length_append, List.length_nil] at hrounds
      omega⟩
    have hloop : arrayLoop atod (rounds + 1) (depth - 1) [] (w.1 ++ chr ']' :: p) = .ok ([], p) :=
      arrayLoop_empty w p
    have htext : (Syn.emptyArray w).text ++ p = chr '[' :: (w.1 ++ chr ']' :: p) := by
      simp [Syn.text]
    rw [htext]
    exact njsJsonParseValue_array hdepth hloop
  | _, .array l => by
    intro rounds depth p hrounds hdepth _
    obtain ⟨rounds, rfl⟩ : ∃ n, rounds = n + 1 := ⟨rounds - 1, by
      simp only [Syn.text, List.length_cons] at hrounds
      omega⟩
    simp only [Syn.text, List.length_cons, List.length_append, List.length_nil] at hrounds
    rw [Syn.depth] at hdepth
    have hloop := Syn.parses atod l rounds (depth - 1) [] p (by omega) (by omega)
    have htext : (Syn.array l).text ++ p = chr '[' :: (l.text ++ chr ']' :: p) := by
      simp [Syn.text]
    rw [htext]
    exact njsJsonParseValue_array (by omega) hloop
  | _, .emptyObject w => by
    intro rounds depth p hrounds hdepth _
    obtain ⟨rounds, rfl⟩ : ∃ n, rounds = n + 2 := ⟨rounds - 2, by
      simp only [Syn.text, List.length_cons, List.length_append, List.length_nil] at hrounds
      omega⟩
    have hloop : objectLoop atod (rounds + 1) (depth - 1) [] (w.1 ++ chr '\x7d' :: p) =
        .ok ([], p) := objectLoop_empty w p
    have htext : (Syn.emptyObject w).text ++ p = chr '\x7b' :: (w.1 ++ chr '\x7d' :: p) := by
      simp [Syn.text]
    rw [htext]
    exact njsJsonParseValue_object hdepth hloop
  | _, .object l => by
    intro rounds depth p hrounds hdepth _
    obtain ⟨rounds, rfl⟩ : ∃ n, rounds = n + 1 := ⟨rounds - 1, by
      simp only [Syn.text, List.length_cons] at hrounds
      omega⟩
    simp only [Syn.text, List.length_cons, List.length_append, List.length_nil] at hrounds
    rw [Syn.depth] at hdepth
    have hloop := Syn.parses atod l rounds (depth - 1) [] p (by omega) (by omega)
    rw [setMembers_nil] at hloop
    have htext : (Syn.object l).text ++ p = chr '\x7b' :: (l.text ++ chr '\x7d' :: p) := by
      simp [Syn.text]
    rw [htext]
    exact njsJsonParseValue_object (by omega) hloop
  | _, .lastElement w v w' => by
    intro rounds depth elements p hrounds hdepth
    obtain ⟨rounds, rfl⟩ := Nat.exists_eq_add_of_lt (Nat.zero_lt_of_lt hrounds)
    simp only [Syn.text, List.length_append] at hrounds
    have hclose : Delimited (chr ']' :: p) := .cons (by decide) p
    have hv := Syn.parses atod v rounds depth _ (by omega) hdepth (hclose.space w')
    have htext : (Syn.lastElement w v w').text ++ chr ']' :: p =
        w.1 ++ (v.text ++ (w'.1 ++ chr ']' :: p)) := by
      simp only [Syn.text, List.append_assoc]
    rw [htext, Nat.zero_add, arrayLoop_element w w' hv (.cons (by decide) p)]
    rfl
  | _, .element w v w' l => by
    intro rounds depth elements p hrounds hdepth
    obtain ⟨rounds, rfl⟩ := Nat.exists_eq_add_of_lt (Nat.zero_lt_of_lt hrounds)
    simp only [Syn.text, List.length_append, List.length_cons] at hrounds
    rw [Syn.depth, Nat.max_lt] at hdepth
    have hcomma : Delimited (chr ',' :: (l.text ++ chr ']' :: p)) := .cons (by decide) _
    have hv := Syn.parses atod v rounds depth _ (by omega) hdepth.1 (hcomma.space w')
    have hl := Syn.parses atod l rounds depth (elements ++ [v.reread.denote atod]) p (by omega)
      hdepth.2
    have htext : (Syn.element w v w' l).text ++ chr ']' :: p =
        w.1 ++ (v.text ++ (w'.1 ++ chr ',' :: (l.text ++ chr ']' :: p))) := by
      simp only [Syn.text, List.append_assoc, List.cons_append]
    rw [htext, Nat.zero_add, arrayLoop_element w w' hv (.cons (by decide) _)]
    rw [List.append_assoc] at hl
    exact hl
  | _, .lastMember w name w₁ w₂ v w' => by
    intro rounds depth members p hrounds hdepth
    obtain ⟨rounds, rfl⟩ := Nat.exists_eq_add_of_lt (Nat.zero_lt_of_lt hrounds)
    simp only [Syn.text, List.length_append] at hrounds
    have hclose : Delimited (chr '\x7d' :: p) := .cons (by decide) p
    have hv := Syn.parses atod v rounds depth _ (by omega) hdepth (hclose.space w')
    have htext : (Syn.lastMember w name w₁ w₂ v w').text ++ chr '\x7d' :: p =
        nameText w name w₁ w₂ ++ (v.text ++ (w'.1 ++ chr '\x7d' :: p)) := by
      simp only [Syn.text, List.append_assoc]
    rw [htext, Nat.zero_add, objectLoop_member w name w₁ w₂ w' hv (.cons (by decide) p)]
    rfl
  | _, .member w name w₁ w₂ v w' l => by
    intro rounds depth members p hrounds hdepth
    obtain ⟨rounds, rfl⟩ := Nat.exists_eq_add_of_lt (Nat.zero_lt_of_lt hrounds)
    simp only [Syn.text, List.length_append, List.length_cons] at hrounds
    rw [Syn.depth, Nat.max_lt] at hdepth
    have hcomma : Delimited (chr ',' :: (l.text ++ chr '\x7d' :: p)) := .cons (by decide) _
    have hv := Syn.parses atod v rounds depth _ (by omega) hdepth.1 (hcomma.space w')
    have hl := Syn.parses atod l rounds depth
      (setMember (Json.denote (Json.reread name)) (v.reread.denote atod) members) p (by omega)
      hdepth.2
    have htext : (Syn.member w name w₁ w₂ v w' l).text ++ chr '\x7d' :: p =
        nameText w name w₁ w₂ ++ (v.text ++ (w'.1 ++ chr ',' :: (l.text ++ chr '\x7d' :: p))) := by
      simp only [Syn.text, List.append_assoc, List.cons_append]
    rw [htext, Nat.zero_add, objectLoop_member w name w₁ w₂ w' hv (.cons (by decide) _)]
    exact hl

theorem Tree.parses (atod : Bytes → ν) (t : Tree) (h : t.depth < njsJsonMaxDepth) :
    njsJsonParse atod t.text = .ok (t.reread.denote atod) := by
  obtain ⟨w, v, w'⟩ := t
  obtain ⟨ch, q, hq, hch⟩ := v.exists_cons
  obtain ⟨hspace, -, -⟩ := (headByte ch).value hch
  have hparses := Syn.parses atod v (2 * (ch :: (q ++ w'.1)).length) njsJsonMaxDepth w'.1
    (by rw [hq]; simp only [List.length_cons, List.length_append]; omega) h
    (by simpa using (show Delimited [] by simp [Delimited]).space w')
  have htext : (Tree.mk w v w').text = w.1 ++ (ch :: (q ++ w'.1)) := by
    simp [Tree.text, hq]
  have hafter : njsJsonSkipSpace w'.1 = [] := by
    simpa using skipSpace_append w' (show NoSpace [] by simp [NoSpace])
  rw [hq, List.cons_append] at hparses
  rw [njsJsonParse, htext, skipSpace_append w (.cons hspace _)]
  simp only [hparses, hafter]
  rfl

end Njs.Json
