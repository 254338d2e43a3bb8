import Njs.SharedDict.StateFile
import Njs.SharedDict.Expired

/-!
# What the state file says

The text that the writer of the state file makes of a zone, and what the reader makes of that
text. The values are left open: a text is readable when the reader takes it for a value, and
unreadable when it refuses it.
-/

namespace Njs.SharedDict

open Decimal (Numeral digitChar)

variable {c : Conf} {now : Msec} {z z' : Zone JsNumber} {strtod : Strtod}

/-! ### What is written -/

theorem digitLoop_eq (n : ℕ) (buf : Bytes) :
    digitLoop n buf = (Decimal.digits n).map digitChar ++ buf := by
  induction n using Nat.strong_induction_on generalizing buf with
  | _ n ih =>
    rw [digitLoop]
    split
    · next hn =>
      have hlt : n < 10 := by omega
      rw [Decimal.digits_of_lt hlt, Nat.mod_eq_of_lt hlt]
      rfl
    · next hn =>
      rw [ih (n / 10) (by omega), Decimal.digits_of_le (n := n) (by omega), List.map_append,
        List.append_assoc]
      rfl

def expireText (c : Conf) (expire : Msec) : Bytes :=
  if c.timeout ≠ 0 then expireMember ++ (Numeral.ofNat expire.toNat).text else []

def entryText (c : Conf) (key value : Bytes) (expire : Msec) : Bytes :=
  rendered key ++ literal [':', '{'] ++ valueMember ++ value ++ expireText c expire ++ [chr '}']

/-- The text of the nodes of a list that have not expired, from the texts of their values. A
comma follows every entry but that of the last node. -/
def fileText (c : Conf) (now : Msec) (z : Zone JsNumber) (value : Addr → Bytes) : List Addr → Bytes
  | [] => []
  | rn :: next =>
    if isExpired c now z rn then fileText c now z value next
    else
      entryText c (z.node rn).key (value rn) (z.node rn).expire ++
        ((if next ≠ [] then [chr ','] else []) ++ fileText c now z value next)

theorem isExpired_iff (c : Conf) (now : Msec) (z : Zone JsNumber) (a : Addr) :
    (c.timeout ≠ 0 ∧ now ≥ (z.node a).expire) ↔ isExpired c now z a = true := by
  simp [isExpired]

variable {l : List Addr} {text : Addr → Bytes} {v : Addr → Value JsNumber}

theorem renderNodes_eq {value : Addr → Bytes}
    (hkey : ∀ a ∈ l, isExpired c now z a = false → EncodedText (z.node a).key)
    (hvalue : ∀ a ∈ l, isExpired c now z a = false → renderValue c z a = some (valueMember ++ value
      a)) :
    renderNodes c now z l = some (fileText c now z value l) := by
  induction l with
  | nil => rfl
  | cons rn next ih =>
    have ih := ih (fun a ha => hkey a (List.mem_cons_of_mem _ ha))
      fun a ha => hvalue a (List.mem_cons_of_mem _ ha)
    rw [renderNodes, fileText]
    by_cases hexp : isExpired c now z rn = true
    · rw [if_pos ((isExpired_iff ..).mpr hexp), if_pos hexp, ih]
    · have hlive : isExpired c now z rn = false := by simpa using hexp
      rw [if_neg (mt (isExpired_iff ..).mp hexp), if_neg hexp,
        renderString_eq (hkey rn List.mem_cons_self hlive), hvalue rn List.mem_cons_self hlive, ih]
      simp [entryText, expireText, digitLoop_eq, Numeral.text_ofNat]

/-! ### Space, colons and commas -/

theorem ok_bind {ε α β : Type} (a : α) (f : α → Except ε β) : (Except.ok a >>= f) = f a := rfl

theorem error_bind {ε α β : Type} (e : ε) (f : α → Except ε β) :
    (Except.error e >>= f) = .error e := rfl

theorem skipSpace_cons {b : UInt8} (h : isSpace b = false) (p : Bytes) :
    ngxJsSkipSpace (b :: p) = b :: p := by
  simp [ngxJsSkipSpace, h]

theorem parseColon_cons {b : UInt8} (h : isSpace b = false) (p : Bytes) :
    parseColon (chr ':' :: b :: p) = .ok (b :: p) := by
  rw [parseColon, skipSpace_cons (by decide)]
  simp [skipSpace_cons h]

theorem parseComma_comma (p : Bytes) : parseComma (chr ',' :: p) = .ok p := by
  rw [parseComma, skipSpace_cons (by decide)]
  simp

theorem parseComma_brace (p : Bytes) : parseComma (chr '}' :: p) = .ok (chr '}' :: p) := by
  rw [parseComma, skipSpace_cons (by decide)]
  simp only
  rw [if_neg (by decide)]

/-! ### What is read -/

/-- The text of a value begins with a byte that is no space, and before a comma or a brace it is
read as `v`. -/
structure Readable (strtod : Strtod) (c : Conf) (text : Bytes) (v : Value JsNumber) : Prop where
  head : ∃ b p, text = b :: p ∧ isSpace b = false
  read : ∀ entry seeValue ch p, ch = chr ',' ∨ ch = chr '}' →
    parseMember strtod c (literal ['v', 'a', 'l', 'u', 'e']) entry seeValue (text ++ ch :: p) =
      .ok ({ entry with value := v }, true, ch :: p)

theorem digitChar_ne : ∀ d < 10, isSpace (digitChar d) = false ∧ digitChar d ≠ chr '"' := by
  decide

theorem numeral_text_head (n : Numeral) : ∃ b p, n.text = b :: p ∧
    isSpace b = false ∧ b ≠ chr '"' := by
  obtain ⟨d, l, hd⟩ := List.exists_cons_of_ne_nil n.int_ne
  rw [Numeral.text]
  split
  · exact ⟨_, _, rfl, by decide, by decide⟩
  · obtain ⟨hspace, hquote⟩ := digitChar_ne d (n.int_lt d (by rw [hd]; exact List.mem_cons_self))
    exact ⟨_, _, by rw [hd]; rfl, hspace, hquote⟩

theorem parseEntryLoop_member {rounds : ℕ} {entry entry' : ParsedEntry} {see see' : Bool}
    {key text p q : Bytes} {b : UInt8} (hb : isSpace b = false)
    (hmember : parseMember strtod c key entry see (b :: text) = .ok (entry', see', p))
    (hcomma : parseComma p = .ok q) :
    parseEntryLoop strtod c (rounds + 1) entry see (rendered key ++ chr ':' :: b :: text) =
      parseEntryLoop strtod c rounds entry' see' q := by
  have hquote : rendered key ++ chr ':' :: b :: text =
      chr '"' :: (key.flatMap renderByte ++ [chr '"'] ++ chr ':' :: b :: text) := rfl
  rw [parseEntryLoop, hquote, skipSpace_cons (by decide)]
  simp only
  rw [if_neg (by decide), ← hquote, parseString_rendered, ok_bind,
    parseColon_cons hb, ok_bind, hmember, ok_bind, hcomma, ok_bind]

theorem parseEntryLoop_brace (rounds : ℕ) (entry : ParsedEntry) (p : Bytes) :
    parseEntryLoop strtod c (rounds + 1) entry true (chr '}' :: p) = .ok (entry, p) := by
  rw [parseEntryLoop, skipSpace_cons (by decide)]
  simp

def readTime (strtod : Strtod) (expire : Msec) : Msec :=
  JsNumber.toMsec (strtod.round expire.toNat)

/-- The expiry time of a parsed entry. -/
def readExpire (strtod : Strtod) (c : Conf) (junk expire : Msec) : Msec :=
  if c.timeout ≠ 0 then readTime strtod expire else junk

/-- The member `expire` is read as the time that `strtod` makes of it. -/
theorem parseMember_expire (strtod : Strtod) (c : Conf) (entry : ParsedEntry) (see : Bool)
    (expire : Msec) (p : Bytes) :
    parseMember strtod c (literal ['e', 'x', 'p', 'i', 'r', 'e']) entry see
        ((Numeral.ofNat expire.toNat).text ++ chr '}' :: p) =
      .ok ({ entry with expire := readTime strtod expire }, see, chr '}' :: p) := by
  obtain ⟨b, l, htext, -, hquote⟩ := numeral_text_head (Numeral.ofNat expire.toNat)
  have hhead : ((Numeral.ofNat expire.toNat).text ++ chr '}' :: p).head? ≠ some (chr '"') := by
    simpa [htext] using hquote
  rw [parseMember, if_neg hhead, strtod.read_numeral _ _ _ (.inr rfl), Numeral.value_ofNat]
  simp only
  rw [if_neg (by decide), if_true]
  rfl

theorem parseEntry_entryText {text : Bytes} {v : Value JsNumber} (h : Readable strtod c text v)
    (entry : ParsedEntry) (expire : Msec) (p : Bytes) :
    ngxJsDictParseEntry strtod c entry
        (chr '{' :: (valueMember ++ text ++ expireText c expire ++ chr '}' :: p)) =
      .ok ({ entry with
        value := v, expire := readExpire strtod c entry.expire expire }, p) := by
  obtain ⟨b, l, rfl, hb⟩ := h.head
  have hread := h.read
  simp only [List.cons_append] at hread
  have hvalue : valueMember = rendered (literal ['v', 'a', 'l', 'u', 'e']) ++ [chr ':'] := by
    decide
  rw [ngxJsDictParseEntry, if_neg (by decide)]
  generalize hrounds : (valueMember ++ b :: l ++ expireText c expire ++ chr '}' :: p).length + 1
    = rounds
  have hlen : 4 ≤ rounds := by
    rw [← hrounds]
    simp [valueMember, literal]
  obtain ⟨rounds, rfl⟩ : ∃ k, rounds = k + 3 := ⟨rounds - 3, by omega⟩
  rw [hvalue, expireText, readExpire]
  simp only [List.append_assoc, List.cons_append, List.nil_append]
  split
  · obtain ⟨d, t, htext, hd, -⟩ := numeral_text_head (Numeral.ofNat expire.toNat)
    have hexpire : expireMember =
        chr ',' :: (rendered (literal ['e', 'x', 'p', 'i', 'r', 'e']) ++ [chr ':']) := by decide
    have hmember := parseMember_expire strtod c { entry with value := v } true expire p
    rw [htext, List.cons_append] at hmember
    rw [hexpire]
    simp only [List.append_assoc, List.cons_append, List.nil_append]
    rw [parseEntryLoop_member hb (hread entry false _ _ (.inl rfl)) (parseComma_comma _), htext,
      List.cons_append, parseEntryLoop_member hd hmember (parseComma_brace _),
      parseEntryLoop_brace]
  · rw [List.nil_append, parseEntryLoop_member hb (hread entry false _ _ (.inr rfl))
      (parseComma_brace _), parseEntryLoop_brace]

/-- The text of a value begins with a byte that is no space, and is not read as a value. -/
structure Unreadable (strtod : Strtod) (c : Conf) (text : Bytes) : Prop where
  head : ∃ b p, text = b :: p ∧ isSpace b = false
  read : ∀ entry seeValue p, ∃ e,
    parseMember strtod c (literal ['v', 'a', 'l', 'u', 'e']) entry seeValue (text ++ p) = .error e

theorem parseEntry_unreadable {text : Bytes} (h : Unreadable strtod c text) (entry : ParsedEntry)
    (p : Bytes) :
    ∃ e, ngxJsDictParseEntry strtod c entry (chr '{' :: (valueMember ++ text ++ p)) = .error e := by
  obtain ⟨b, l, rfl, hb⟩ := h.head
  obtain ⟨e, he⟩ := h.read entry false p
  have hvalue : valueMember = rendered (literal ['v', 'a', 'l', 'u', 'e']) ++ [chr ':'] := by
    decide
  have hquote : ∀ text, rendered (literal ['v', 'a', 'l', 'u', 'e']) ++ text =
      chr '"' :: ((literal ['v', 'a', 'l', 'u', 'e']).flatMap renderByte ++ [chr '"'] ++ text) :=
    fun _ => rfl
  refine ⟨e, ?_⟩
  rw [ngxJsDictParseEntry, if_neg (by decide), parseEntryLoop, hvalue]
  simp only [List.append_assoc, List.cons_append, List.nil_append] at he ⊢
  rw [hquote, skipSpace_cons (by decide)]
  simp only
  rw [if_neg (by decide), ← hquote, parseString_rendered, ok_bind,
    parseColon_cons hb, ok_bind, he, error_bind]

/-- What the reader makes of the nodes of a list, of which `v` gives the values that are read. -/
def parsedEntries (strtod : Strtod) (c : Conf) (now : Msec) (z : Zone JsNumber)
    (v : Addr → Value JsNumber) : (ℕ → ParsedEntry) → List Addr → List ParsedEntry
  | _, [] => []
  | junk, rn :: next =>
    if isExpired c now z rn then parsedEntries strtod c now z v junk next
    else
      ⟨(z.node rn).key, v rn, readExpire strtod c (junk 0).expire (z.node rn).expire⟩ ::
        parsedEntries strtod c now z v (fun i => junk (i + 1)) next

theorem parseComma_fileText (value : Addr → Bytes) (next : List Addr) (p : Bytes) :
    parseComma ((if next ≠ [] then [chr ','] else []) ++
        (fileText c now z value next ++ chr '}' :: p)) =
      .ok (fileText c now z value next ++ chr '}' :: p) := by
  cases next with
  | nil => exact parseComma_brace p
  | cons a next => exact parseComma_comma _

theorem parseStateLoop_brace (rounds : ℕ) (junk : ℕ → ParsedEntry) (p : Bytes) :
    parseStateLoop strtod c (rounds + 1) junk (chr '}' :: p) = .ok ([], p) := by
  rw [parseStateLoop, skipSpace_cons (by decide)]
  simp

theorem parseStateLoop_entry (rounds : ℕ) (junk : ℕ → ParsedEntry) (key p : Bytes) :
    parseStateLoop strtod c (rounds + 1) junk (rendered key ++ chr ':' :: chr '{' :: p) = (do
        let (entry, p) ← ngxJsDictParseEntry strtod c { junk 0 with key } (chr '{' :: p)
        let p ← parseComma p
        let (entries, p) ← parseStateLoop strtod c rounds (fun i => junk (i + 1)) p
        .ok (entry :: entries, p)) := by
  have hquote : rendered key ++ chr ':' :: chr '{' :: p =
      chr '"' :: (key.flatMap renderByte ++ [chr '"'] ++ chr ':' :: chr '{' :: p) := rfl
  rw [parseStateLoop, hquote, skipSpace_cons (by decide)]
  simp only
  rw [if_neg (by decide), ← hquote, parseString_rendered, ok_bind,
    parseColon_cons (by decide), ok_bind]

theorem fileText_split (key value p : Bytes) (expire : Msec) (next : List Addr)
    (text : Addr → Bytes) :
    entryText c key value expire ++
        ((if next ≠ [] then [chr ','] else []) ++ fileText c now z text next) ++ chr '}' :: p =
      rendered key ++ chr ':' :: chr '{' :: (valueMember ++ value ++ expireText c expire ++
        chr '}' :: ((if next ≠ [] then [chr ','] else []) ++
          (fileText c now z text next ++ chr '}' :: p))) := by
  simp [entryText, literal]

theorem parseStateLoop_fileText
    (h : ∀ a ∈ l, isExpired c now z a = false → Readable strtod c (text a) (v a)) (p : Bytes) :
    ∀ rounds junk, (fileText c now z text l).length < rounds →
      parseStateLoop strtod c rounds junk (fileText c now z text l ++ chr '}' :: p) =
        .ok (parsedEntries strtod c now z v junk l, p) := by
  induction l with
  | nil =>
    intro rounds junk hrounds
    obtain ⟨rounds, rfl⟩ : ∃ k, rounds = k + 1 := ⟨rounds - 1, by omega⟩
    exact parseStateLoop_brace rounds junk p
  | cons rn next ih =>
    intro rounds junk hrounds
    have ih := ih fun a ha => h a (List.mem_cons_of_mem _ ha)
    rw [fileText] at hrounds ⊢
    rw [parsedEntries]
    by_cases hexp : isExpired c now z rn = true
    · rw [if_pos hexp] at hrounds ⊢
      rw [if_pos hexp]
      exact ih rounds junk hrounds
    rw [if_neg hexp, entryText] at hrounds
    simp only [List.length_append, List.length_singleton] at hrounds
    obtain ⟨rounds, rfl⟩ : ∃ k, rounds = k + 1 := ⟨rounds - 1, by omega⟩
    have hread := h rn List.mem_cons_self (by simpa using hexp)
    rw [if_neg hexp, if_neg hexp]
    have hparse := parseEntry_entryText hread { junk 0 with key := (z.node rn).key }
      (z.node rn).expire ((if next ≠ [] then [chr ','] else []) ++
        (fileText c now z text next ++ chr '}' :: p))
    rw [fileText_split, parseStateLoop_entry, hparse, ok_bind]
    simp only
    rw [parseComma_fileText, ok_bind, ih rounds _ (by omega), ok_bind]

theorem parseStateLoop_unreadable
    (h : ∀ a ∈ l, isExpired c now z a = false → Readable strtod c (text a) (v a) ∨
      Unreadable strtod c (text a))
    (hbad : ∃ a ∈ l, isExpired c now z a = false ∧ Unreadable strtod c (text a)) (p : Bytes) :
    ∀ rounds junk, ∃ e,
      parseStateLoop strtod c rounds junk (fileText c now z text l ++ chr '}' :: p) = .error e := by
  induction l with
  | nil => simp at hbad
  | cons rn next ih =>
    rintro (_ | rounds) junk
    · exact ⟨.rounds, rfl⟩
    have ih := ih fun a ha => h a (List.mem_cons_of_mem _ ha)
    rw [fileText]
    by_cases hexp : isExpired c now z rn = true
    · rw [if_pos hexp]
      refine ih ?_ (rounds + 1) junk
      obtain ⟨a, ha, hlive, hun⟩ := hbad
      obtain rfl | ha := List.mem_cons.mp ha
      · rw [hexp] at hlive
        exact absurd hlive (by decide)
      · exact ⟨a, ha, hlive, hun⟩
    rw [if_neg hexp, fileText_split, parseStateLoop_entry]
    obtain hread | hun := h rn List.mem_cons_self (by simpa using hexp)
    · rw [parseEntry_entryText hread, ok_bind]
      simp only
      rw [parseComma_fileText, ok_bind]
      by_cases hun : Unreadable strtod c (text rn)
      · obtain ⟨e, he⟩ := hun.read (junk 0) false (chr ',' :: [])
        rw [hread.read _ _ _ _ (.inl rfl)] at he
        simp at he
      have hnext : ∃ a ∈ next, isExpired c now z a = false ∧ Unreadable strtod c (text a) := by
        obtain ⟨a, ha, hlive, hun'⟩ := hbad
        obtain rfl | ha := List.mem_cons.mp ha
        · exact absurd hun' hun
        · exact ⟨a, ha, hlive, hun'⟩
      obtain ⟨e, he⟩ := ih hnext rounds fun i => junk (i + 1)
      exact ⟨e, by rw [he, error_bind]⟩
    · obtain ⟨e, he⟩ := parseEntry_unreadable hun { junk 0 with key := (z.node rn).key }
        (expireText c (z.node rn).expire ++ chr '}' :: ((if next ≠ [] then [chr ','] else []) ++
            (fileText c now z text next ++ chr '}' :: p)))
      rw [← List.append_assoc] at he
      exact ⟨e, by rw [he, error_bind]⟩

def stateText (c : Conf) (now : Msec) (z : Zone JsNumber) (text : Addr → Bytes) : Bytes :=
  chr '{' :: (fileText c now z text z.rbtree ++ [chr '}'])

theorem renderJson_eq
    (hkey : ∀ a ∈ z.rbtree, isExpired c now z a = false → EncodedText (z.node a).key)
    (hvalue : ∀ a ∈ z.rbtree, isExpired c now z a = false → renderValue c z a = some (valueMember ++
      text a)) :
    ngxJsDictRenderJson c now z = some (stateText c now z text) := by
  rw [ngxJsDictRenderJson, renderNodes_eq hkey hvalue]
  rfl

theorem stateText_ne_nil (c : Conf) (now : Msec) (z : Zone JsNumber) (text : Addr → Bytes) :
    stateText c now z text ≠ [] :=
  List.cons_ne_nil _ _

theorem parseState_fileText
    (h : ∀ a ∈ z.rbtree, isExpired c now z a = false → Readable strtod c (text a) (v a))
    (junk : ℕ → ParsedEntry) :
    ngxJsDictParseState strtod c junk (stateText c now z text) =
      .ok (parsedEntries strtod c now z v junk z.rbtree) := by
  rw [ngxJsDictParseState, stateText, skipSpace_cons (by decide)]
  simp only
  rw [if_neg (by decide), parseStateLoop_fileText h [] _ junk
    (by simp only [List.length_append]; omega), ok_bind]
  rfl

theorem parseState_unreadable
    (h : ∀ a ∈ z.rbtree, isExpired c now z a = false → Readable strtod c (text a) (v a) ∨
      Unreadable strtod c (text a))
    (hbad : ∃ a ∈ z.rbtree, isExpired c now z a = false ∧ Unreadable strtod c (text a))
    (junk : ℕ → ParsedEntry) :
    ∃ e, ngxJsDictParseState strtod c junk (stateText c now z text) = .error e := by
  obtain ⟨e, he⟩ := parseStateLoop_unreadable h hbad []
    ((fileText c now z text z.rbtree ++ [chr '}']).length + 1) junk
  refine ⟨e, ?_⟩
  rw [ngxJsDictParseState, stateText, skipSpace_cons (by decide)]
  simp only
  rw [if_neg (by decide), he, error_bind]

theorem mem_parsedEntries {junk : ℕ → ParsedEntry} {e : ParsedEntry}
    (h : e ∈ parsedEntries strtod c now z v junk l) :
    ∃ a ∈ l, isExpired c now z a = false ∧ e.key = (z.node a).key ∧ e.value = v a ∧
      (c.timeout ≠ 0 → e.expire = readTime strtod (z.node a).expire) := by
  induction l generalizing junk with
  | nil => simp [parsedEntries] at h
  | cons rn next ih =>
    rw [parsedEntries] at h
    by_cases hexp : isExpired c now z rn = true
    · rw [if_pos hexp] at h
      obtain ⟨a, ha, hrest⟩ := ih h
      exact ⟨a, List.mem_cons_of_mem _ ha, hrest⟩
    rw [if_neg hexp, List.mem_cons] at h
    obtain rfl | h := h
    · refine ⟨rn, List.mem_cons_self, by simpa using hexp, rfl, rfl, fun ht => ?_⟩
      exact if_pos ht
    · obtain ⟨a, ha, hrest⟩ := ih h
      exact ⟨a, List.mem_cons_of_mem _ ha, hrest⟩

end Njs.SharedDict
