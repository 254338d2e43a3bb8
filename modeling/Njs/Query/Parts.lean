import Njs.Query.Parse

/-!
# The parts of a query string
-/

namespace Njs.Query

open Indices Text

/-! ### Occurrences of a character -/

theorem eq_of_utf8EncodeChar {c d : Char} {rest : Bytes}
    (h : String.utf8EncodeChar c <+: String.utf8EncodeChar d ++ rest) : c = d := by
  obtain ⟨rest', h⟩ := h
  have hdecode (e : Char) (l : Bytes) :
      ((String.utf8EncodeChar e ++ l).toByteArray).utf8DecodeChar? 0 = some e := by
    rw [List.toByteArray_append]
    exact ByteArray.utf8DecodeChar?_utf8EncodeChar_append
  have hc := hdecode c rest'
  rw [h, hdecode d rest] at hc
  exact (Option.some.inj hc).symm

theorem bytes_cons (c : Char) (text : List Char) :
    bytes (c :: text) = String.utf8EncodeChar c ++ bytes text := List.flatMap_cons

theorem bytes_injective : Function.Injective bytes := by
  intro s
  induction s with
  | nil =>
    intro t h
    cases t with
    | nil => rfl
    | cons d t =>
      obtain ⟨b, l, hchar, -⟩ := utf8EncodeChar_encoded d
      rw [bytes_cons, hchar] at h
      exact nomatch h
  | cons c s ih =>
    intro t h
    cases t with
    | nil =>
      obtain ⟨b, l, hchar, -⟩ := utf8EncodeChar_encoded c
      rw [bytes_cons, hchar] at h
      exact nomatch h
    | cons d t =>
      rw [bytes_cons, bytes_cons] at h
      have hcd : c = d := eq_of_utf8EncodeChar (h ▸ List.prefix_append _ _)
      subst hcd
      rw [ih (List.append_cancel_left h)]

theorem bytes_append (s t : List Char) : bytes (s ++ t) = bytes s ++ bytes t := List.flatMap_append

theorem separatorMatch_continuation (c : Char) {l : Bytes} (hl : ∀ b ∈ l, isContinuation b)
    (rest : Bytes) : separatorMatch (String.utf8EncodeChar c) (l ++ rest) =
      l.length + separatorMatch (String.utf8EncodeChar c) rest := by
  obtain ⟨b, l', hchar, hencoded⟩ := utf8EncodeChar_encoded c
  rw [hchar]
  induction l with
  | nil => rw [List.nil_append, List.length_nil, Nat.zero_add]
  | cons b' l ih =>
    have hne : b ≠ b' := by
      rintro rfl
      have hfirst := hencoded.first
      rw [hl b List.mem_cons_self] at hfirst
      exact absurd hfirst (by decide)
    rw [List.cons_append, separatorMatch, List.isPrefixOf_cons_cons, beq_false_of_ne hne,
      Bool.false_and, if_neg Bool.false_ne_true, ih fun x hx => hl x (List.mem_cons_of_mem b' hx),
      List.length_cons]
    omega

theorem separatorMatch_bytes (c : Char) (text : List Char) :
    separatorMatch (String.utf8EncodeChar c) (bytes text) =
      (bytes (text.takeWhile (· ≠ c))).length := by
  induction text with
  | nil => rfl
  | cons d text ih =>
    obtain ⟨b, l, hchar, hencoded⟩ := utf8EncodeChar_encoded d
    have hprefix : (String.utf8EncodeChar c).isPrefixOf (b :: (l ++ bytes text)) =
        decide (d = c) := by
      rw [Bool.eq_iff_iff, List.isPrefixOf_iff_prefix, decide_eq_true_eq]
      constructor
      · intro h
        refine (@eq_of_utf8EncodeChar c d (bytes text) ?_).symm
        rwa [hchar, List.cons_append]
      · rintro rfl
        rw [hchar, ← List.cons_append]
        exact List.prefix_append _ _
    rw [bytes_cons, hchar, List.cons_append, separatorMatch, hprefix]
    by_cases hdc : d = c
    · rw [decide_eq_true hdc, if_pos rfl, List.takeWhile_cons_of_neg (by simp [hdc])]
      rfl
    · rw [decide_eq_false hdc, if_neg Bool.false_ne_true,
        separatorMatch_continuation c hencoded.others, ih,
        List.takeWhile_cons_of_pos (by simp [hdc]), bytes_cons, hchar, List.length_append,
        List.length_cons]
      omega

/-! ### Escaped texts -/

def escapeText (s : Bytes) : List Char :=
  (njsQueryStringEncode s).map fun b => Char.ofNat b.toNat

theorem bytes_escapeText (s : Bytes) : bytes (escapeText s) = njsQueryStringEncode s := by
  have hascii : ∀ b : UInt8, (encodeByte b).all
      (fun b' => String.utf8EncodeChar (Char.ofNat b'.toNat) == [b']) = true :=
    forall_byte (by decide)
  have hmem : ∀ b ∈ njsQueryStringEncode s, String.utf8EncodeChar (Char.ofNat b.toNat) = [b] := by
    intro b hb
    obtain ⟨b', -, hb⟩ := List.mem_flatMap.1 hb
    exact eq_of_beq (List.all_eq_true.1 (hascii b') b hb)
  rw [escapeText, bytes, List.flatMap_map]
  exact (List.flatMap_congr hmem).trans (List.flatMap_singleton' _)

/-- A character that no escaped string has. -/
def NeverLeft (c : Char) : Prop :=
  ∀ s t : List Char, bytes t = njsQueryStringEncode (bytes s) → c ∉ t

theorem NeverLeft.not_mem {c : Char} (h : NeverLeft c) (s : List Char) :
    c ∉ escapeText (bytes s) := h s _ (bytes_escapeText _)

/-! ### Pairs of strings -/

abbrev TextPair : Type := List Char × List Char

def pairChars (eq : Char) (p : TextPair) : List Char :=
  escapeText (bytes p.1) ++ eq :: escapeText (bytes p.2)

/-- The pairs after the first one, each after a separator. -/
def laterChars (sep eq : Char) (pairs : List TextPair) : List Char :=
  pairs.flatMap fun p => sep :: pairChars eq p

def toPair (p : TextPair) : Bytes × Scalar := (bytes p.1, .string (bytes p.2))

theorem pairText_chars (eq : Char) (p : TextPair) :
    pairText njsPrinted (String.utf8EncodeChar eq) (toPair p) = bytes (pairChars eq p) := by
  rw [pairChars, bytes_append, bytes_cons, bytes_escapeText, bytes_escapeText, ← List.append_assoc]
  rfl

theorem addPairs_chars (sep eq : Char) (p : TextPair) (pairs : List TextPair) :
    addPairs njsPrinted (String.utf8EncodeChar sep) (String.utf8EncodeChar eq) []
        ((p :: pairs).map toPair) =
      bytes (pairChars eq p ++ laterChars sep eq pairs) := by
  have hlater : ∀ (pairs : List TextPair) (chain : Bytes), chain ≠ [] →
      addPairs njsPrinted (String.utf8EncodeChar sep) (String.utf8EncodeChar eq) chain
        (pairs.map toPair) = chain ++ bytes (laterChars sep eq pairs) := by
    intro pairs
    induction pairs with
    | nil => exact fun chain _ => (List.append_nil chain).symm
    | cons p pairs ih =>
      intro chain hchain
      have hcons : laterChars sep eq (p :: pairs) =
          sep :: pairChars eq p ++ laterChars sep eq pairs := List.flatMap_cons
      rw [List.map_cons, addPairs, List.foldl_cons, if_pos hchain, pairText_chars]
      refine (ih _ fun hnil => hchain ?_).trans ?_
      · rw [List.append_assoc] at hnil
        exact (List.append_eq_nil_iff.1 hnil).1
      · rw [hcons, bytes_append, bytes_cons]
        simp only [List.append_assoc]
  have hfirst : bytes (pairChars eq p) ≠ [] := by
    obtain ⟨b, l, hchar, -⟩ := utf8EncodeChar_encoded eq
    rw [pairChars, bytes_append, bytes_cons, hchar]
    exact fun hnil => absurd (List.append_eq_nil_iff.1 hnil).2 (List.cons_ne_nil _ _)
  rw [List.map_cons, addPairs, List.foldl_cons, if_neg (not_not.2 rfl), List.nil_append,
    pairText_chars, bytes_append]
  exact hlater pairs _ hfirst

/-! ### The parser -/

def addValue (realm : Realm) (undefinedIsMissing : Bool) (obj : Obj) (p : Bytes × Bytes) : Obj :=
  match obj.get p.1 with
  | none => obj.set realm p.1 (.string p.2)
  | some (.array values) => obj.push p.1 values (.string p.2)
  | some .undefined =>
    if undefinedIsMissing then obj.set realm p.1 (.string p.2)
    else obj.set realm p.1 (.array [.undefined, .string p.2])
  | some prev => obj.set realm p.1 (.array [prev, .string p.2])

theorem append_encode (realm : Realm) (undefinedIsMissing : Bool) (obj : Obj) (p : TextPair) :
    append realm undefinedIsMissing obj (bytes (escapeText (bytes p.1)))
        (bytes (escapeText (bytes p.2))) =
      addValue realm undefinedIsMissing obj (bytes p.1, bytes p.2) := by
  rw [append, bytes_escapeText, bytes_escapeText, decode_encode, decode_encode]
  rfl

theorem takeWhile_append {c : Char} {s : List Char} (h : c ∉ s) (rest : List Char)
    (hrest : rest = [] ∨ ∃ t, rest = c :: t) : (s ++ rest).takeWhile (· ≠ c) = s := by
  have hs : ∀ d ∈ s, (decide (d ≠ c)) = true := fun d hd =>
    decide_eq_true fun hdc => h (hdc ▸ hd)
  rw [List.takeWhile_append_of_pos hs]
  rcases hrest with rfl | ⟨t, rfl⟩
  · exact List.append_nil s
  · rw [List.takeWhile_cons_of_neg (by simp), List.append_nil]

variable {sep eq : Char}

theorem not_mem_pairChars (hsep : NeverLeft sep) (hne : sep ≠ eq) (p : TextPair) :
    sep ∉ pairChars eq p := by
  rw [pairChars, List.mem_append, List.mem_cons]
  rintro (h | h | h)
  · exact hsep.not_mem _ h
  · exact hne h
  · exact hsep.not_mem _ h

def restBytes (sep eq : Char) : List TextPair → Bytes
  | [] => []
  | q :: pairs => bytes (pairChars eq q ++ laterChars sep eq pairs)

theorem first_part (hsep : NeverLeft sep) (heq : NeverLeft eq) (hne : sep ≠ eq) (p : TextPair)
    (pairs : List TextPair) :
    let key := bytes (pairChars eq p ++ laterChars sep eq pairs)
    let part := separatorMatch (String.utf8EncodeChar sep) key
    let val := separatorMatch (String.utf8EncodeChar eq) (key.take part)
    val < part ∧ key.take val = bytes (escapeText (bytes p.1)) ∧
      (key.take part).drop (val + (String.utf8EncodeChar eq).length) =
        bytes (escapeText (bytes p.2)) ∧
      key.drop (part + (String.utf8EncodeChar sep).length) = restBytes sep eq pairs := by
  intro key part val
  have hlater : laterChars sep eq pairs = [] ∨ ∃ t, laterChars sep eq pairs = sep :: t := by
    cases pairs with
    | nil => exact .inl rfl
    | cons q pairs => exact .inr ⟨pairChars eq q ++ laterChars sep eq pairs, List.flatMap_cons⟩
  have hpart : part = (bytes (pairChars eq p)).length := by
    show separatorMatch _ (bytes _) = _
    rw [separatorMatch_bytes, takeWhile_append (not_mem_pairChars hsep hne p) _ hlater]
  have htake : key.take part = bytes (pairChars eq p) := by
    rw [hpart]
    show (bytes (_ ++ _)).take _ = _
    rw [bytes_append, List.take_left]
  have hpair : bytes (pairChars eq p) = bytes (escapeText (bytes p.1)) ++
      (String.utf8EncodeChar eq ++ bytes (escapeText (bytes p.2))) := by
    rw [pairChars, bytes_append, bytes_cons]
  have hval : val = (bytes (escapeText (bytes p.1))).length := by
    show separatorMatch _ (key.take part) = _
    rw [htake, separatorMatch_bytes, pairChars,
      takeWhile_append (heq.not_mem p.1) _ (.inr ⟨_, rfl⟩)]
  have hpos : 0 < (String.utf8EncodeChar eq).length := by
    obtain ⟨b, l, hchar, -⟩ := utf8EncodeChar_encoded eq
    rw [hchar]
    exact Nat.succ_pos _
  have hlength := congrArg List.length hpair
  rw [List.length_append, List.length_append] at hlength
  refine ⟨by omega, ?_, ?_, ?_⟩
  · show (bytes (_ ++ _)).take _ = _
    rw [bytes_append, hpair, List.append_assoc, hval, List.take_left]
  · rw [htake, hpair, hval, ← List.drop_drop, List.drop_left, List.drop_left]
  show (bytes (_ ++ _)).drop _ = _
  rw [bytes_append, hpart, ← List.drop_drop, List.drop_left]
  cases pairs with
  | nil => exact List.drop_nil
  | cons q pairs =>
    have hcons : laterChars sep eq (q :: pairs) =
        sep :: (pairChars eq q ++ laterChars sep eq pairs) := List.flatMap_cons
    rw [hcons, bytes_cons, List.drop_left]
    rfl

theorem parser_addPairs (realm : Realm) (undefinedIsMissing : Bool) (hsep : NeverLeft sep)
    (heq : NeverLeft eq) (hne : sep ≠ eq) {width maxKeys : ℕ} (hwidth : maxKeys < 2 ^ width)
    (pairs : List TextPair) {passes count : ℕ} (hpasses : pairs.length ≤ passes)
    (hcount : count ≤ maxKeys) (obj : Obj) :
    parser (append realm undefinedIsMissing) width (String.utf8EncodeChar sep)
        (String.utf8EncodeChar eq) maxKeys passes count (restBytes sep eq pairs) obj =
      ((pairs.take (maxKeys - count)).map fun p => (bytes p.1, bytes p.2)).foldl
        (addValue realm undefinedIsMissing) obj := by
  induction pairs generalizing passes count obj with
  | nil =>
    rw [List.take_nil]
    cases passes with
    | zero => rfl
    | succ passes => rfl
  | cons p pairs ih =>
    rw [List.length_cons] at hpasses
    obtain ⟨passes, rfl⟩ : ∃ k, passes = k + 1 := ⟨passes - 1, by omega⟩
    obtain ⟨hval, hkey, hvalue, hrest⟩ := first_part hsep heq hne p pairs
    have hnonempty : restBytes sep eq (p :: pairs) ≠ [] := by
      intro hnil
      have hnil : bytes (pairChars eq p ++ laterChars sep eq pairs) = [] := hnil
      rw [hnil] at hval
      exact absurd hval (Nat.not_lt_zero _)
    rw [parser, if_neg hnonempty]
    by_cases hlimit : count = maxKeys
    · rw [if_pos hlimit, hlimit, Nat.sub_self]
      rfl
    have htake : maxKeys - count = maxKeys - (count + 1) + 1 := by omega
    have hmod : (count + 1) % 2 ^ width = count + 1 := Nat.mod_eq_of_lt (by omega)
    rw [if_neg hlimit, restBytes, hmod]
    dsimp only
    rw [hrest, if_neg (by omega), if_pos (by omega), hkey, hvalue, append_encode,
      ih (by omega) (by omega), htake, List.take_succ_cons]
    rfl

end Njs.Query
