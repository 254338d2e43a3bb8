import Njs.Json.Stringify

/-!
# What the writer appends to a chain

Every operation of the writer appends a text of its own, or the chain overflows, which happens only
near the limit: a reservation is at most 64 bytes larger than what is written into it.
-/

namespace Njs.Json

open Text
open SharedDict (EncodedChar EncodedText mustEscape escape renderByte rendered length_escape_le
  whole_flatten utf8Copy_append flatMap_renderByte_of_cont mustEscape_of_ge isContinuation
  isContinuation_ge njsUtf8Copy)

variable {ν : Type} {maxSize : ℕ}

def Wrote (maxSize : ℕ) (chain : Chain) (text : Bytes) (chain' : Chain) : Prop :=
  match chain with
  | none => chain' = none
  | some s => chain' = some (s ++ text) ∨
      chain' = none ∧ maxSize ≠ 0 ∧ maxSize < s.length + text.length + 64

theorem Wrote.refl (chain : Chain) : Wrote maxSize chain [] chain := by
  cases chain with
  | none => rfl
  | some s => exact .inl (by rw [List.append_nil])

theorem Wrote.trans {c₁ c₂ c₃ : Chain} {t u : Bytes} (h : Wrote maxSize c₁ t c₂)
    (h' : Wrote maxSize c₂ u c₃) : Wrote maxSize c₁ (t ++ u) c₃ := by
  match c₁, h with
  | none, h =>
    obtain rfl : c₂ = none := h
    exact h'
  | some s, .inl h =>
    subst h
    obtain h' | ⟨h', hne, hlt⟩ := h'
    · exact .inl (by rw [h', List.append_assoc])
    · refine .inr ⟨h', hne, ?_⟩
      simp only [List.length_append] at hlt ⊢
      omega
  | some s, .inr ⟨h, hne, hlt⟩ =>
    subst h
    refine .inr ⟨h', hne, ?_⟩
    rw [List.length_append]
    omega

theorem wrote_of_reserve (maxSize : ℕ) {size : ℕ} {text s : Bytes} (hsize :
    size ≤ text.length + 64) :
    (njsChbReserve maxSize size (some s) = none ∧ Wrote maxSize (some s) text none) ∨
    njsChbReserve maxSize size (some s) = some s := by
  simp only [njsChbReserve, Option.bind_some]
  split_ifs with h
  · exact .inl ⟨rfl, .inr ⟨rfl, h.1, by omega⟩⟩
  · exact .inr rfl

theorem wrote_append (msg : Bytes) (chain : Chain) :
    Wrote maxSize chain msg (njsChbAppend maxSize msg chain) := by
  rw [njsChbAppend]
  split_ifs with h
  · cases chain with
    | none => rfl
    | some s =>
      obtain ⟨hnone, hwrote⟩ | hsome :=
        wrote_of_reserve maxSize (s := s) (Nat.le_add_right msg.length 64)
      · rw [hnone]
        exact hwrote
      · rw [hsome]
        exact .inl rfl
  · rw [List.length_eq_zero_iff.mp (not_not.mp h)]
    exact .refl chain

theorem wrote_iterate (msg : Bytes) (n : ℕ) (chain : Chain) :
    Wrote maxSize chain (List.replicate n msg).flatten ((njsChbAppend maxSize msg)^[n] chain) := by
  induction n generalizing chain with
  | zero => exact .refl chain
  | succ n ih =>
    rw [Function.iterate_succ_apply, List.replicate_succ, List.flatten_cons]
    exact (wrote_append msg chain).trans (ih _)

/-! ### Strings -/

theorem appendStringLoop_round {utf8 : Bool} {b : UInt8} {p q dst : Bytes} (hdst : dst.length ≤ 6)
    (hround : mustEscape b = true ∧ dst = chr '\\' :: escape b ∧ q = p ∨
      mustEscape b = false ∧ (if utf8 then njsUtf8Copy b p else some ([b], p)) = some (dst, q))
    (rounds room : ℕ) (s : Bytes) :
    (appendStringLoop maxSize utf8 (rounds + 1) room (b :: p) (some s) = some none ∧
      maxSize ≠ 0 ∧ maxSize < s.length + p.length + 64) ∨
    ∃ room', appendStringLoop maxSize utf8 (rounds + 1) room (b :: p) (some s) =
      appendStringLoop maxSize utf8 rounds room' q (some (s ++ dst)) := by
  have hlarge : 6 ≤ max (p.length + 2) 6 := Nat.le_max_right _ _
  rw [appendStringLoop]
  by_cases hroom : room ≤ 6
  · simp only [if_pos hroom, njsChbReserve, Option.bind_some]
    by_cases hover : maxSize ≠ 0 ∧ s.length + max (p.length + 2) 6 > maxSize
    · rw [if_pos hover]
      exact .inl ⟨rfl, hover.1, by omega⟩
    rw [if_neg hover]
    dsimp only
    refine .inr ⟨max (p.length + 2) 6 - dst.length, ?_⟩
    obtain ⟨hmust, rfl, rfl⟩ | ⟨hmust, hcopy⟩ := hround
    · rw [if_pos hmust]
      exact if_pos (by omega)
    · rw [hmust, if_neg Bool.false_ne_true, hcopy]
      exact if_pos (by omega)
  · simp only [if_neg hroom]
    refine .inr ⟨room - dst.length, ?_⟩
    obtain ⟨hmust, rfl, rfl⟩ | ⟨hmust, hcopy⟩ := hround
    · rw [if_pos hmust]
      exact if_pos (by omega)
    · rw [hmust, if_neg Bool.false_ne_true, hcopy]
      exact if_pos (by omega)

theorem length_le_flatMap_renderByte (p : Bytes) : p.length ≤ (p.flatMap renderByte).length := by
  induction p with
  | nil => exact le_rfl
  | cons b p ih =>
    have hpos : 0 < (renderByte b).length := by
      rw [renderByte]
      split_ifs <;> exact Nat.succ_pos _
    rw [List.flatMap_cons, List.length_append, List.length_cons]
    omega

theorem appendStringLoop_spec (maxSize : ℕ) {utf8 : Bool} {l : List Bytes} (h : ∀ x ∈ l,
    EncodedChar x)
    (hutf8 : utf8 = false → ∀ b ∈ l.flatten, b &&& 0x80 = 0) :
    ∀ rounds room s, l.flatten.length ≤ rounds → ∃ chain,
      appendStringLoop maxSize utf8 rounds room l.flatten (some s) = some chain ∧
      Wrote maxSize (some s) (l.flatten.flatMap renderByte) chain := by
  induction l with
  | nil =>
    intro rounds room s _
    refine ⟨some s, ?_, .refl _⟩
    cases rounds <;> rfl
  | cons x l ih =>
    intro rounds room s hrounds
    have hl : ∀ x ∈ l, EncodedChar x := fun x hx => h x (List.mem_cons_of_mem _ hx)
    have hutf8' : utf8 = false → ∀ b ∈ l.flatten, b &&& 0x80 = 0 := fun hu b hb =>
      hutf8 hu b (by rw [List.flatten_cons]; exact List.mem_append_right _ hb)
    -- One round appends what stands for the first character.
    obtain ⟨b, t, dst, rfl, hdst, htext, hround⟩ : ∃ b t dst, x = b :: t ∧ dst.length ≤ 6 ∧
        dst = x.flatMap renderByte ∧
        (mustEscape b = true ∧ dst = chr '\\' :: escape b ∧ l.flatten = t ++ l.flatten ∨
          mustEscape b = false ∧ (if utf8 then njsUtf8Copy b (t ++ l.flatten)
            else some ([b], t ++ l.flatten)) = some (dst, l.flatten)) := by
      obtain ⟨b, rfl, hascii⟩ | ⟨b, t, rfl, hlead, -, ht, hlen, hcont⟩ := h x List.mem_cons_self
      · have hcopy : njsUtf8Copy b l.flatten = some ([b], l.flatten) := by
          simp [njsUtf8Copy, hascii]
        cases hmust : mustEscape b with
        | true =>
          exact ⟨b, [], chr '\\' :: escape b, rfl, length_escape_le b,
            by simp [renderByte, hmust], .inl ⟨hmust, rfl, rfl⟩⟩
        | false =>
          refine ⟨b, [], [b], rfl, Nat.succ_le_succ (Nat.zero_le 5), by simp [renderByte, hmust],
            .inr ⟨hmust, ?_⟩⟩
          rw [List.nil_append, hcopy, ite_self]
      have hge : ∀ x ∈ b :: t, 0x80 ≤ x := by
        have hb' : ∀ x : UInt8, x &&& 0x80 ≠ 0 → 0x80 ≤ x := forall_byte (by decide)
        rintro x (_ | ⟨_, hx⟩)
        · exact hb' b hlead
        · exact isContinuation_ge x (hcont x hx)
      have hu : utf8 = true := by
        cases hu : utf8 with
        | true => rfl
        | false => exact absurd (hutf8 hu b (by simp)) hlead
      refine ⟨b, t, b :: t, rfl, by rw [List.length_cons]; omega,
        (flatMap_renderByte_of_cont hge).symm,
        .inr ⟨mustEscape_of_ge b (hge b List.mem_cons_self), ?_⟩⟩
      rw [if_pos hu]
      exact utf8Copy_append hlead ht hcont (whole_flatten hl)
    rw [List.flatten_cons, List.cons_append] at hrounds ⊢
    obtain ⟨rounds, rfl⟩ : ∃ n, rounds = n + 1 := ⟨rounds - 1, by simp at hrounds; omega⟩
    rw [List.length_cons, List.length_append] at hrounds
    have hsplit : (b :: (t ++ l.flatten)).flatMap renderByte =
        dst ++ l.flatten.flatMap renderByte := by
      rw [← List.cons_append, List.flatMap_append, htext]
    rw [hsplit]
    obtain ⟨hnone, hne, hlt⟩ | ⟨room', heq⟩ := appendStringLoop_round hdst hround rounds room s
    · refine ⟨none, hnone, .inr ⟨rfl, hne, ?_⟩⟩
      have hle := length_le_flatMap_renderByte (b :: (t ++ l.flatten))
      rw [hsplit, List.length_cons] at hle
      omega
    · obtain ⟨chain, hchain, hwrote⟩ := ih hl hutf8' rounds room' (s ++ dst) (by omega)
      have hdst' : Wrote maxSize (some s) dst (some (s ++ dst)) := .inl rfl
      exact ⟨chain, heq.trans hchain, hdst'.trans hwrote⟩

theorem ascii_of_stringLength {s : Bytes} (h : EncodedText s)
    (hlen : stringLength s = 0 ∨ stringLength s = s.length) : ∀ b ∈ s, b &&& 0x80 = 0 := by
  obtain ⟨l, hl, rfl⟩ := h
  have hwhole := whole_flatten hl
  have hcont : ∀ b ∈ l.flatten, isContinuation b = false := by
    obtain hzero | heq := hlen
    · cases hflat : l.flatten with
      | nil => exact fun b hb => nomatch hb
      | cons b p =>
        rw [hflat] at hwhole hzero
        have hb : isContinuation b = false := hwhole b rfl
        rw [stringLength, List.countP_cons_of_pos (by rw [hb]; rfl)] at hzero
        exact absurd hzero (Nat.succ_ne_zero _)
    · intro b hb
      have hall := List.countP_eq_length.mp heq b hb
      simpa using hall
  intro b hb
  obtain ⟨x, hx, hbx⟩ := List.mem_flatten.mp hb
  obtain ⟨a, rfl, ha⟩ | ⟨a, t, rfl, -, -, ht, -, htcont⟩ := hl x hx
  · obtain rfl := List.mem_singleton.mp hbx
    exact ha
  · obtain ⟨y, t, rfl⟩ := List.exists_cons_of_ne_nil ht
    have hy := hcont y (List.mem_flatten.mpr ⟨_, hx, by simp⟩)
    rw [htcont y List.mem_cons_self] at hy
    cases hy

theorem appendString_spec (maxSize : ℕ) {string : Bytes} (h : EncodedText string) (chain : Chain) :
    ∃ chain', njsJsonAppendString maxSize string chain = some chain' ∧
      Wrote maxSize chain (rendered string) chain' := by
  cases chain with
  | none => exact ⟨none, rfl, rfl⟩
  | some s =>
    have hle := length_le_flatMap_renderByte string
    have hsize : max (string.length + 2) 7 ≤ (rendered string).length + 64 := by
      rw [rendered, List.length_append, List.length_cons, List.length_singleton]
      omega
    obtain ⟨hnone, hwrote⟩ | hsome := wrote_of_reserve maxSize (s := s) hsize
    · refine ⟨none, ?_, hwrote⟩
      rw [njsJsonAppendString, hnone]
    have hascii : (stringLength string ≠ 0 && stringLength string ≠ string.length) = false →
        ∀ b ∈ string, b &&& 0x80 = 0 := by
      intro hflag
      refine ascii_of_stringLength h ?_
      simpa [or_iff_not_imp_left] using hflag
    obtain ⟨l, hl, rfl⟩ := h
    obtain ⟨chain, hloop, hwrote⟩ := appendStringLoop_spec maxSize hl hascii
      l.flatten.length (max (l.flatten.length + 2) 7 - 1) (s ++ [chr '"']) le_rfl
    refine ⟨njsChbAppend maxSize [chr '"'] chain, ?_, ?_⟩
    · rw [njsJsonAppendString, hsome]
      simp only [hloop, Option.map_some]
    · have hopen : Wrote maxSize (some s) [chr '"'] (some (s ++ [chr '"'])) := .inl rfl
      exact (hopen.trans hwrote).trans (wrote_append _ _)

end Njs.Json

/-!
## What the iterator of the writer appends

An array or an object is put into the text with what stands before, between and after its items, if
the items are put. This is by induction on the items that are left; what is nested in an item takes
rounds of its own, on a higher stack.
-/

namespace Njs.Json

open Text
open SharedDict (ValidUtf8 EncodedText rendered)

variable {ν : Type}

/-- Trees of null, booleans, finite numbers, strings, arrays and plain objects that are nested `n`
deep at most. -/
inductive Plain (f : Numbers ν) : ℕ → Value ν → Prop
  | null (n : ℕ) : Plain f n .null
  | boolean (n : ℕ) (b : Bool) : Plain f n (.boolean b)
  | number (n : ℕ) (num : ν) : f.isNan num = false → f.isInf num = false → Plain f n (.number num)
  | string (n : ℕ) (s : Bytes) : ValidUtf8 s → Plain f n (.string s)
  | array (n : ℕ) (l : List (Value ν)) : (∀ v ∈ l, Plain f n v) → Plain f (n + 1) (.array l)
  | object (n : ℕ) (m : List (Bytes × Value ν)) : (m.map Prod.fst).Nodup →
      (∀ p ∈ m, ValidUtf8 p.1) → (∀ p ∈ m, Plain f n p.2) → Plain f (n + 1) (.object m)

/-! ### Space -/

def indentText (space : Bytes) (n : ℕ) : Bytes :=
  if space.length ≠ 0 then lit "\n" ++ (List.replicate n space).flatten else []

variable {space : Bytes} {n : ℕ} {f : Numbers ν} {v : Value ν}

theorem wrote_indent (maxSize : ℕ) {depth : ℕ} {times : ℤ} (hn : (times + depth - 1).toNat = n)
    (chain : Chain) :
    Wrote maxSize chain (indentText space n)
      (njsJsonStringifyIndent maxSize space depth times chain) := by
  rw [indentText, njsJsonStringifyIndent, hn]
  split_ifs
  · exact (wrote_append _ _).trans (wrote_iterate _ _ _)
  · exact .refl chain

/-! ### Enumerated members -/

/-- The members of an object in the order of their names. -/
def orderedMembers (f : Numbers ν) (m : List (Bytes × Value ν)) : List (Bytes × Value ν) :=
  (m.filter fun p => (integerIndex f p.1).isSome).mergeSort
      (fun p q => (integerIndex f p.1).getD 0 ≤ (integerIndex f q.1).getD 0) ++
    m.filter fun p => !(integerIndex f p.1).isSome

theorem orderedMembers_perm (f : Numbers ν) (m : List (Bytes × Value ν)) :
    (orderedMembers f m).Perm m :=
  ((List.mergeSort_perm _ _).append_right _).trans (List.filter_append_perm _ m)

theorem orderedKeys_eq (f : Numbers ν) (m : List (Bytes × Value ν)) :
    njsGetOwnOrderedKeys f m = (orderedMembers f m).map Prod.fst := by
  have hfilter : ∀ q : Bytes → Bool,
      (m.filter fun p => q p.1).map Prod.fst = (m.map Prod.fst).filter q := fun q =>
    (List.filter_map (f := Prod.fst) (l := m) (p := q)).symm
  have hsort : ∀ l : List (Bytes × Value ν), (l.mergeSort fun p q =>
        decide ((integerIndex f p.1).getD 0 ≤ (integerIndex f q.1).getD 0)).map Prod.fst =
      (l.map Prod.fst).mergeSort fun a b =>
        decide ((integerIndex f a).getD 0 ≤ (integerIndex f b).getD 0) :=
    fun l => List.map_mergeSort fun _ _ _ _ => rfl
  rw [njsGetOwnOrderedKeys, orderedMembers, List.map_append, hsort,
    hfilter fun name => (integerIndex f name).isSome,
    hfilter fun name => !(integerIndex f name).isSome]

theorem find?_of_nodup {m : List (Bytes × Value ν)} (h : (m.map Prod.fst).Nodup)
    {p : Bytes × Value ν} (hp : p ∈ m) : m.find? (·.1 = p.1) = some p := by
  induction m with
  | nil => cases hp
  | cons q m ih =>
    rw [List.map_cons, List.nodup_cons] at h
    obtain rfl | hp := List.mem_cons.mp hp
    · exact List.find?_cons_of_pos (by simp)
    · have hne : q.1 ≠ p.1 := fun heq => h.1 (heq ▸ List.mem_map_of_mem hp)
      rw [List.find?_cons_of_neg (by simpa using hne), ih h.2 hp]

/-- What the iterator passes in an array or an object. -/
def itemsOf (f : Numbers ν) : Value ν → List (Option Bytes × Value ν)
  | .array l => l.map (none, ·)
  | .object m => (orderedMembers f m).map fun p => (some p.1, p.2)
  | _ => []

def stateAt (f : Numbers ν) (v : Value ν) (i : ℕ) : State ν :=
  { pushState f v with index := i, written := i ≠ 0 }

theorem stateAt_item (hv : Plain f n v) (i : ℕ) : (stateAt f v i).item = (itemsOf f v)[i]? := by
  cases hv with
  | null | boolean | number | string => rfl
  | array n l hl => exact List.getElem?_map.symm
  | object n m hnodup hnames hm =>
    have hitem : (stateAt f (.object m) i).item = ((njsGetOwnOrderedKeys f m)[i]?).bind fun key =>
          (m.find? (·.1 = key)).bind fun p => some (some key, p.2) := rfl
    rw [hitem, orderedKeys_eq, itemsOf, List.getElem?_map, List.getElem?_map]
    cases hget : (orderedMembers f m)[i]? with
    | none => rfl
    | some p =>
      have hp : p ∈ m := (orderedMembers_perm f m).mem_iff.mp (List.mem_of_getElem? hget)
      simp only [Option.map_some, Option.bind_some, find?_of_nodup hnodup hp]

/-! ### Items -/

/-- The last part of a round of the loop: a new state for an array or an object, or the text of
another value. -/
def putItem (f : Numbers ν) (maxSize : ℕ) (space : Bytes) (rounds : ℕ) (v : Value ν)
    (state : State ν) (states : List (State ν)) (chain : Chain) : Except StringifyError Chain :=
  if njsJsonIsObject v then
    if states.length + 1 ≥ njsJsonMaxDepth then .error .typeError
    else iteratorLoop f maxSize space rounds (pushState f v :: state :: states) chain
  else
    match njsJsonAppendValue f maxSize v chain with
    | none => .error .overflow
    | some chain => iteratorLoop f maxSize space rounds (state :: states) chain

def Put (f : Numbers ν) (space : Bytes) (depth : ℕ) (v : Value ν) (text : Bytes) : Prop :=
  ∀ (maxSize rounds : ℕ) (state : State ν) (states : List (State ν)) (chain : Chain),
    states.length + 1 = depth → state.written = true → ∃ chain', Wrote maxSize chain text chain' ∧
      putItem f maxSize space (rounds + v.rounds) v state states chain =
        iteratorLoop f maxSize space rounds (state :: states) chain'

/-- What stands before the value of an item, after the comma and the new line. -/
def keyText (space : Bytes) : Option Bytes → Bytes
  | none => []
  | some key => rendered key ++ lit ":" ++ if space.length ≠ 0 then lit " " else []

/-- What stands before an item. -/
def openText (v : Value ν) (i : ℕ) : Bytes :=
  if i = 0 then (match v with | .array _ => lit "[" | _ => lit "\x7b") else lit ","

/-- What stands after the last item. -/
def closeText : Value ν → Bytes
  | .array _ => lit "]"
  | _ => lit "\x7d"

theorem stateAt_array (f : Numbers ν) (h : njsJsonIsObject v = true) (i : ℕ) :
    (if (stateAt f v i).array then lit "[" else lit "\x7b") = openText v 0 ∧
      (if (stateAt f v i).array then lit "]" else lit "\x7d") = closeText v := by
  cases v with
  | null | boolean | number | string => cases h
  | array l => exact ⟨rfl, rfl⟩
  | object m => exact ⟨rfl, rfl⟩

theorem beforeItem_spec (maxSize : ℕ) (space : Bytes) {depth : ℕ} (hn : depth = n + 1)
    (written : Bool) {key : Option Bytes} (hkey : ∀ k ∈ key, EncodedText k) (chain : Chain) :
    ∃ chain', beforeItem maxSize space depth written key chain = some chain' ∧ Wrote maxSize chain
        ((if written then lit "," ++ indentText space n else []) ++ keyText space key) chain' := by
  obtain ⟨c, hc, hwrote⟩ : ∃ c, (if written then
      njsJsonStringifyIndent maxSize space depth 0 (njsChbAppend maxSize (lit ",") chain)
      else chain) = c ∧
      Wrote maxSize chain (if written then lit "," ++ indentText space n else []) c := by
    refine ⟨_, rfl, ?_⟩
    split_ifs
    · exact (wrote_append _ _).trans (wrote_indent maxSize (by omega) _)
    · exact .refl chain
  rw [beforeItem.eq_def]
  simp only [hc]
  cases key with
  | none => exact ⟨c, rfl, hwrote.trans (.refl c)⟩
  | some key =>
    obtain ⟨c', hc', hstring⟩ := appendString_spec maxSize (hkey key rfl) c
    simp only [hc', Option.map_some]
    refine ⟨_, rfl, hwrote.trans ((hstring.trans (wrote_append _ _)).trans ?_)⟩
    split_ifs
    · exact wrote_append _ _
    · exact .refl _

theorem wrote_open (f : Numbers ν) (maxSize : ℕ) (space : Bytes) (hv : njsJsonIsObject v = true)
    (i n : ℕ) (chain : Chain) :
    Wrote maxSize chain (if i = 0 then openText v 0 ++ indentText space n else [])
      (if i = 0 then
        njsJsonStringifyIndent maxSize space (n + 1) 0
          (njsChbAppend maxSize (if (stateAt f v i).array then lit "[" else lit "\x7b") chain)
      else chain) := by
  rw [(stateAt_array f hv i).1]
  split_ifs
  · exact (wrote_append _ _).trans (wrote_indent maxSize (by omega) _)
  · exact .refl chain

theorem iteratorLoop_before {f : Numbers ν} {space : Bytes} {n i : ℕ} {v : Value ν}
    (hv : Plain f n v) (hobject : njsJsonIsObject v = true) {key : Option Bytes} {x : Value ν}
    (hitem : (itemsOf f v)[i]? = some (key, x)) (hkey : ∀ k ∈ key, EncodedText k)
    (states : List (State ν)) (maxSize rounds : ℕ) (chain : Chain) :
    ∃ chain', Wrote maxSize chain
        (openText v i ++ indentText space states.length ++ keyText space key) chain' ∧
      iteratorLoop f maxSize space (rounds + 1) (stateAt f v i :: states) chain =
        putItem f maxSize space rounds x (stateAt f v (i + 1)) states chain' := by
  have hopen := wrote_open f maxSize space hobject i states.length chain
  obtain ⟨c, hc, hbefore⟩ := beforeItem_spec maxSize space
    (rfl : states.length + 1 = states.length + 1) (decide (i ≠ 0)) hkey
    (if i = 0 then
      njsJsonStringifyIndent maxSize space (states.length + 1) 0
        (njsChbAppend maxSize (if (stateAt f v i).array then lit "[" else lit "\x7b") chain)
    else chain)
  refine ⟨c, ?_, ?_⟩
  · have hwrote := hopen.trans hbefore
    by_cases hi : i = 0
    · simpa [hi] using hwrote
    · simpa [hi, openText] using hwrote
  · rw [iteratorLoop]
    simp only [stateAt_item hv, hitem]
    rw [show (stateAt f v i).index = i from rfl,
      show (stateAt f v i).written = decide (i ≠ 0) from rfl, hc]
    rfl

theorem iteratorLoop_item {i : ℕ} (hv : Plain f n v) (hobject : njsJsonIsObject v = true)
    {key : Option Bytes} {x : Value ν} (hitem : (itemsOf f v)[i]? = some (key, x))
    (hkey : ∀ k ∈ key, EncodedText k) {text : Bytes} {states : List (State ν)}
    (hx : Put f space (states.length + 1) x text) (maxSize rounds : ℕ) (chain : Chain) :
    ∃ chain', Wrote maxSize chain
        (openText v i ++ indentText space states.length ++ keyText space key ++ text) chain' ∧
      iteratorLoop f maxSize space (rounds + x.rounds + 1) (stateAt f v i :: states) chain =
        iteratorLoop f maxSize space rounds (stateAt f v (i + 1) :: states) chain' := by
  obtain ⟨c, hbefore, hloop⟩ := iteratorLoop_before hv hobject hitem hkey states maxSize
    (rounds + x.rounds) chain
  obtain ⟨chain', hput, hloop'⟩ := hx maxSize rounds (stateAt f v (i + 1)) states c rfl rfl
  exact ⟨chain', hbefore.trans hput, hloop.trans hloop'⟩

theorem iteratorLoop_done {i : ℕ} (hv : Plain f n v) (hobject : njsJsonIsObject v = true)
    (hitem : (itemsOf f v)[i]? = none) (maxSize rounds : ℕ) {state : State ν}
    (hstate : state.written = true) (states : List (State ν)) (chain : Chain) :
    ∃ chain', Wrote maxSize chain
        ((if i = 0 then openText v 0 ++ indentText space (states.length + 1) else []) ++
          (indentText space states.length ++ closeText v)) chain' ∧
      iteratorLoop f maxSize space (rounds + 1) (stateAt f v i :: state :: states) chain =
        iteratorLoop f maxSize space rounds (state :: states) chain' := by
  have hopen := wrote_open f maxSize space hobject i (states.length + 1) chain
  have htimes : ((-1 : ℤ) + (states.length + 1 + 1 : ℕ) - 1).toNat = states.length := by omega
  refine ⟨_, hopen.trans ((wrote_indent maxSize htimes _).trans (wrote_append _ _)), ?_⟩
  rw [iteratorLoop]
  simp only [stateAt_item hv, hitem]
  rw [show { state with written := true } = state by rw [← hstate], (stateAt_array f hobject i).2]
  rfl

/-! ### All items -/

def itemsText (space : Bytes) (n : ℕ) (v : Value ν) : ℕ → List (Option Bytes × Bytes) → Bytes
  | _, [] => []
  | i, (key, text) :: items =>
    openText v i ++ indentText space n ++ keyText space key ++ text ++
      itemsText space n v (i + 1) items

def itemsRounds (items : List (Option Bytes × Value ν)) : ℕ :=
  (items.map fun x => x.2.rounds + 1).sum

theorem iteratorLoop_items (hv : Plain f n v) (hobject : njsJsonIsObject v = true)
    (states : List (State ν)) (maxSize rounds : ℕ) {items : List (Option Bytes × Value ν)}
    {texts : List (Option Bytes × Bytes)}
    (htexts : List.Forall₂ (fun x t => x.1 = t.1 ∧ (∀ k ∈ t.1, EncodedText k) ∧
      Put f space (states.length + 1) x.2 t.2) items texts) :
    ∀ i, (itemsOf f v).drop i = items → ∀ chain, ∃ chain',
      Wrote maxSize chain (itemsText space states.length v i texts) chain' ∧
      iteratorLoop f maxSize space (rounds + itemsRounds items) (stateAt f v i :: states) chain =
        iteratorLoop f maxSize space rounds (stateAt f v (i + items.length) :: states) chain' := by
  induction htexts with
  | nil =>
    intro i _ chain
    exact ⟨chain, .refl chain, rfl⟩
  | @cons x t items texts hx _ ih =>
    intro i hdrop chain
    obtain ⟨key, x⟩ := x
    obtain ⟨key', text⟩ := t
    obtain ⟨rfl, hkey, hput⟩ := hx
    have hitem : (itemsOf f v)[i]? = some (key, x) := by
      rw [← List.head?_drop, hdrop]
      rfl
    have hrest : (itemsOf f v).drop (i + 1) = items := by
      rw [← List.tail_drop, hdrop]
      rfl
    obtain ⟨c, hwrote, hloop⟩ := iteratorLoop_item hv hobject hitem hkey hput maxSize
      (rounds + itemsRounds items) chain
    obtain ⟨chain', hwrote', hloop'⟩ := ih (i + 1) hrest c
    refine ⟨chain', hwrote.trans hwrote', ?_⟩
    have hrounds : rounds + itemsRounds ((key, x) :: items) =
        rounds + itemsRounds items + x.rounds + 1 := by
      simp only [itemsRounds, List.map_cons, List.sum_cons]
      omega
    have hindex : i + ((key, x) :: items).length = i + 1 + items.length := by
      rw [List.length_cons]
      omega
    rw [hrounds, hindex, hloop, hloop']

/-- The text of a whole array or object. -/
def containerText (space : Bytes) (n : ℕ) (v : Value ν) (texts : List (Option Bytes × Bytes)) :
    Bytes :=
  itemsText space (n + 1) v 0 texts ++
    ((if texts.length = 0 then openText v 0 ++ indentText space (n + 1) else []) ++
      (indentText space n ++ closeText v))

theorem put_container {depth : ℕ} (hv : Plain f n v) (hobject : njsJsonIsObject v = true)
    (hrounds : v.rounds = itemsRounds (itemsOf f v) + 1) (hdepth : depth + 1 < njsJsonMaxDepth)
    {texts : List (Option Bytes × Bytes)}
    (htexts : List.Forall₂ (fun x t => x.1 = t.1 ∧ (∀ k ∈ t.1, EncodedText k) ∧
      Put f space (depth + 1 + 1) x.2 t.2) (itemsOf f v) texts) :
    Put f space (depth + 1) v (containerText space depth v texts) := by
  intro maxSize rounds state states chain hlen hstate
  obtain rfl : depth = states.length := by omega
  obtain ⟨c, hwrote, hloop⟩ := iteratorLoop_items hv hobject (state :: states) maxSize (rounds + 1)
    htexts 0 rfl chain
  have hend : (itemsOf f v)[0 + (itemsOf f v).length]? = none := by
    rw [Nat.zero_add, List.getElem?_eq_none le_rfl]
  obtain ⟨chain', hwrote', hloop'⟩ := iteratorLoop_done hv hobject hend maxSize rounds hstate
    states c
  refine ⟨chain', ?_, ?_⟩
  · rw [containerText, ← htexts.length_eq]
    rw [Nat.zero_add] at hwrote'
    exact hwrote.trans hwrote'
  have hstack : states.length + 1 < njsJsonMaxDepth := hdepth
  rw [putItem, if_pos hobject, if_neg (by omega), hrounds,
    show rounds + (itemsRounds (itemsOf f v) + 1) = rounds + 1 + itemsRounds (itemsOf f v) by
      omega,
    ← hloop', ← hloop]
  rfl

end Njs.Json
