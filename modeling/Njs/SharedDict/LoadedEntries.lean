import Njs.SharedDict.StateRoundTrip

/-!
# Loading depends on the file

The array that `ngx_js_dict_parse_state` fills is not cleared, and neither is an entry when
`ngx_array_push` makes room for it, so a member that the file does not give keeps what the memory
held before. The value is asked for, the expiry time is not.

A file is read here a second time, for its syntax only, as the list of its entries with their
members. Storing these members into the entries gives what the reader gives.
-/

namespace Njs.SharedDict

variable {c : Conf} {now : Msec} {z z' : Zone JsNumber} {strtod : Strtod}

/-! ### The members of a file -/

inductive MemberValue
  | str (s : Bytes)
  | number (x : JsNumber)

/-- A member of an entry. -/
structure Member where
  key : Bytes
  value : MemberValue

structure FileEntry where
  key : Bytes
  members : List Member

/-- The key `value`. -/
def valueKey : Bytes := literal ['v', 'a', 'l', 'u', 'e']

/-- The key `expire`. -/
def expireKey : Bytes := literal ['e', 'x', 'p', 'i', 'r', 'e']

def readMember (strtod : Strtod) (p : Bytes) : Except StateError (MemberValue × Bytes) :=
  if p.head? = some (chr '"') then
    match ngxJsDictParseString p with
    | .error e => .error e
    | .ok (str, p) => .ok (.str str, p)
  else
    match strtod.read p with
    | none => .error (.invalid "invalid number value" p)
    | some (number, p) => .ok (.number number, p)

/-- The members of an entry up to its closing brace. -/
def readMembers (strtod : Strtod) : ℕ → Bytes → Except StateError (List Member × Bytes)
  | 0, _ => .error .rounds
  | rounds + 1, p =>
    match ngxJsSkipSpace p with
    | [] => .error (.invalid "unexpected end of json" [])
    | ch :: p =>
      if ch = chr '}' then .ok ([], p)
      else do
        let (key, p) ← ngxJsDictParseString (ch :: p)
        let p ← parseColon p
        let (value, p) ← readMember strtod p
        let p ← parseComma p
        let (members, p) ← readMembers strtod rounds p
        .ok (⟨key, value⟩ :: members, p)

def readEntry (strtod : Strtod) : Bytes → Except StateError (List Member × Bytes)
  | [] => .error (.invalid "unexpected character, expected '\x7b'" [])
  | ch :: p =>
    if ch ≠ chr '{' then .error (.invalid "unexpected character, expected '\x7b'" p)
    else readMembers strtod (p.length + 1) p

def readEntries (strtod : Strtod) : ℕ → Bytes → Except StateError (List FileEntry × Bytes)
  | 0, _ => .error .rounds
  | rounds + 1, p =>
    match ngxJsSkipSpace p with
    | [] => .error (.invalid "unexpected end of json" [])
    | ch :: p =>
      if ch = chr '}' then .ok ([], p)
      else do
        let (key, p) ← ngxJsDictParseString (ch :: p)
        let p ← parseColon p
        let (members, p) ← readEntry strtod p
        let p ← parseComma p
        let (entries, p) ← readEntries strtod rounds p
        .ok (⟨key, members⟩ :: entries, p)

def fileEntries (strtod : Strtod) (buf : Bytes) : Except StateError (List FileEntry) :=
  match ngxJsSkipSpace buf with
  | [] => .error (.invalid "empty json" [])
  | ch :: p =>
    if ch ≠ chr '{' then .error (.invalid "json must start with '\x7b'" p)
    else do
      let (entries, p) ← readEntries strtod (p.length + 1) p
      match ngxJsSkipSpace p with
      | [] => .ok entries
      | p => .error (.invalid "unexpected character, expected end of json" p)

/-! ### Storing the members -/

def storeMember (c : Conf) (entry : ParsedEntry) (seeValue : Bool) (m : Member) :
    Option (ParsedEntry × Bool) :=
  if m.key = valueKey then
    match m.value, c.type with
    | .str s, .string => some ({ entry with value := .str s }, true)
    | .number x, .number => some ({ entry with value := .number x }, true)
    | _, _ => none
  else
    match m.value with
    | .str _ => some (entry, seeValue)
    | .number x =>
      if m.key = expireKey then some ({ entry with expire := JsNumber.toMsec x }, seeValue)
      else some (entry, seeValue)

def storeMembers (c : Conf) : List Member → ParsedEntry → Bool → Option ParsedEntry
  | [], entry, seeValue => if seeValue then some entry else none
  | m :: members, entry, seeValue =>
    match storeMember c entry seeValue m with
    | none => none
    | some (entry, seeValue) => storeMembers c members entry seeValue

/-- What the entries of a file leave in an array that holds `junk`. -/
def storeEntries (c : Conf) : List FileEntry → (ℕ → ParsedEntry) → Option (List ParsedEntry)
  | [], _ => some []
  | e :: es, junk =>
    match storeMembers c e.members { junk 0 with key := e.key } false,
        storeEntries c es fun i => junk (i + 1) with
    | some entry, some entries => some (entry :: entries)
    | _, _ => none

theorem bind_ok_iff {ε α β : Type} {x : Except ε α} {f : α → Except ε β} {b : β} :
    (x >>= f) = .ok b ↔ ∃ a, x = .ok a ∧ f a = .ok b := by
  cases x with
  | error e => simp [error_bind]
  | ok a => simp [ok_bind]

variable {entry entry' : ParsedEntry} {see : Bool} {es : List FileEntry} {junk : ℕ → ParsedEntry}
  {l : List ParsedEntry}

theorem parseMember_ok_iff {key p q : Bytes} {see' : Bool} :
    parseMember strtod c key entry see p = .ok (entry', see', q) ↔
      ∃ v, readMember strtod p = .ok (v, q) ∧
        storeMember c entry see ⟨key, v⟩ = some (entry', see') := by
  have hvalue : valueKey ≠ expireKey := by decide
  rw [parseMember, readMember]
  change (if p.head? = _ then _ else _) = _ ↔ _
  simp only [storeMember]
  by_cases hquote : p.head? = some (chr '"')
  · rw [if_pos hquote, if_pos hquote]
    rcases ngxJsDictParseString p with e | ⟨str, r⟩
    · simp
    · change (if key = valueKey then _ else _) = _ ↔ _
      by_cases hkey : key = valueKey
      · cases hc : c.type <;> simp [hkey, and_assoc, and_left_comm, and_comm, eq_comm]
      · simp [hkey, and_assoc, and_left_comm, and_comm, eq_comm]
  rw [if_neg hquote, if_neg hquote]
  rcases strtod.read p with _ | ⟨x, r⟩
  · simp
  change (if key = valueKey then _ else if key = expireKey then _ else _) = _ ↔ _
  by_cases hkey : key = valueKey
  · cases hc : c.type <;> simp [hkey, and_assoc, and_left_comm, and_comm, eq_comm]
  · by_cases hexp : key = expireKey
    · simp [hexp, hvalue.symm, and_assoc, and_left_comm, and_comm, eq_comm]
    · simp [hkey, hexp, and_assoc, and_left_comm, and_comm, eq_comm]

theorem parseEntryLoop_ok_iff {rounds : ℕ} {p q : Bytes} :
    parseEntryLoop strtod c rounds entry see p = .ok (entry', q) ↔
      ∃ members, readMembers strtod rounds p = .ok (members, q) ∧
        storeMembers c members entry see = some entry' := by
  induction rounds generalizing entry see p with
  | zero => simp [parseEntryLoop, readMembers]
  | succ rounds ih =>
    rw [parseEntryLoop, readMembers]
    rcases ngxJsSkipSpace p with _ | ⟨ch, r⟩
    · simp
    by_cases hbrace : ch = chr '}'
    · simp only [if_pos hbrace]
      cases see <;> simp [storeMembers, and_comm, eq_comm]
    simp only [if_neg hbrace, bind_ok_iff, Prod.exists, parseMember_ok_iff, ih]
    constructor
    · rintro ⟨key, p₁, h₁, p₂, h₂, e₁, see₁, p₃, ⟨v, h₃, hstore⟩, p₄, h₄, ms, h₅, hrest⟩
      refine ⟨⟨key, v⟩ :: ms, ⟨key, p₁, h₁, p₂, h₂, v, p₃, h₃, p₄, h₄, ms, q, h₅, rfl⟩, ?_⟩
      rw [storeMembers, hstore]
      exact hrest
    rintro ⟨_, ⟨key, p₁, h₁, p₂, h₂, v, p₃, h₃, p₄, h₄, ms, q', h₅, heq⟩, hrest⟩
    cases heq
    rw [storeMembers] at hrest
    cases hstore : storeMember c entry see ⟨key, v⟩ with
    | none => simp [hstore] at hrest
    | some r =>
      rw [hstore] at hrest
      exact ⟨key, p₁, h₁, p₂, h₂, r.1, r.2, p₃, ⟨v, h₃, hstore⟩, p₄, h₄, ms, h₅, hrest⟩

theorem parseEntry_ok_iff {p q : Bytes} : ngxJsDictParseEntry strtod c entry p = .ok (entry', q) ↔
      ∃ members, readEntry strtod p = .ok (members, q) ∧
        storeMembers c members entry false = some entry' := by
  rcases p with _ | ⟨ch, p⟩
  · simp [ngxJsDictParseEntry, readEntry]
  · rw [ngxJsDictParseEntry, readEntry]
    by_cases hbrace : ch ≠ chr '{'
    · simp [hbrace]
    · rw [if_neg hbrace, if_neg hbrace, parseEntryLoop_ok_iff]

theorem storeEntries_cons {e : FileEntry} :
    storeEntries c (e :: es) junk = some l ↔ ∃ x xs, l = x :: xs ∧
      storeMembers c e.members { junk 0 with key := e.key } false = some x ∧
        storeEntries c es (fun i => junk (i + 1)) = some xs := by
  rw [storeEntries]
  split
  · next x xs hx hxs => simp [hx, hxs, eq_comm]
  · next hnone =>
    simp only [reduceCtorEq, false_iff]
    rintro ⟨x, xs, -, hx, hxs⟩
    exact hnone x xs hx hxs

theorem parseStateLoop_ok_iff {rounds : ℕ} {p q : Bytes} :
    parseStateLoop strtod c rounds junk p = .ok (l, q) ↔
      ∃ es, readEntries strtod rounds p = .ok (es, q) ∧ storeEntries c es junk = some l := by
  induction rounds generalizing junk p q l with
  | zero => simp [parseStateLoop, readEntries]
  | succ rounds ih =>
    rw [parseStateLoop, readEntries]
    rcases ngxJsSkipSpace p with _ | ⟨ch, r⟩
    · simp
    by_cases hbrace : ch = chr '}'
    · simp [if_pos hbrace, storeEntries, and_comm, eq_comm]
    simp only [if_neg hbrace, bind_ok_iff, Prod.exists, parseEntry_ok_iff, ih]
    constructor
    · rintro ⟨key, p₁, h₁, p₂, h₂, e, p₃, ⟨ms, h₃, he⟩, p₄, h₄, es, q', ⟨fs, h₅, hes⟩, heq⟩
      cases heq
      exact ⟨⟨key, ms⟩ :: fs, ⟨key, p₁, h₁, p₂, h₂, ms, p₃, h₃, p₄, h₄, fs, q, h₅, rfl⟩,
        storeEntries_cons.mpr ⟨e, es, rfl, he, hes⟩⟩
    · rintro ⟨_, ⟨key, p₁, h₁, p₂, h₂, ms, p₃, h₃, p₄, h₄, fs, q', h₅, heq⟩, hstore⟩
      cases heq
      obtain ⟨e, es, rfl, he, hes⟩ := storeEntries_cons.mp hstore
      exact ⟨key, p₁, h₁, p₂, h₂, e, p₃, ⟨ms, h₃, he⟩, p₄, h₄, es, q, ⟨fs, h₅, hes⟩, rfl⟩

theorem parseState_ok_iff {buf : Bytes} : ngxJsDictParseState strtod c junk buf = .ok l ↔
      ∃ es, fileEntries strtod buf = .ok es ∧ storeEntries c es junk = some l := by
  rw [ngxJsDictParseState, fileEntries]
  rcases ngxJsSkipSpace buf with _ | ⟨ch, p⟩
  · simp
  by_cases hbrace : ch ≠ chr '{'
  · simp [hbrace]
  simp only [if_neg hbrace, bind_ok_iff, Prod.exists, parseStateLoop_ok_iff]
  constructor
  · rintro ⟨l', q, ⟨es, hes, hstore⟩, hend⟩
    split at hend
    · next hspace =>
      cases hend
      exact ⟨es, ⟨es, q, hes, by rw [hspace]⟩, hstore⟩
    · exact absurd hend (by simp)
  rintro ⟨es, ⟨es', q, hes, hend⟩, hstore⟩
  split at hend
  · next hspace =>
    cases hend
    exact ⟨l, q, ⟨es, hes, hstore⟩, by rw [hspace]⟩
  · exact absurd hend (by simp)

/-! ### What does not depend on the memory -/

/-- A numeric member `expire`. -/
def Member.isExpire (m : Member) : Bool :=
  match m.value with
  | .str _ => false
  | .number _ => decide (m.key = expireKey)

/-- Two entries agree in the key, in the value if it has been seen, and in the expiry time if it
is known. -/
structure Agree (seeValue known : Bool) (e₁ e₂ : ParsedEntry) : Prop where
  key : e₁.key = e₂.key
  value : seeValue = true → e₁.value = e₂.value
  expire : known = true → e₁.expire = e₂.expire

theorem Agree.storeMember {see' known : Bool} {e₁ e₂ e₁' : ParsedEntry} {m : Member}
    (h : Agree see known e₁ e₂) (hstore : storeMember c e₁ see m = some (e₁', see')) :
    ∃ e₂', storeMember c e₂ see m = some (e₂', see') ∧
      Agree see' (known || m.isExpire) e₁' e₂' := by
  have hvalue : valueKey ≠ expireKey := by decide
  rcases m with ⟨key, v⟩
  simp only [SharedDict.storeMember] at hstore ⊢
  by_cases hkey : key = valueKey
  · have hexp : Member.isExpire ⟨key, v⟩ = false := by
      cases v <;> simp [Member.isExpire, hkey, hvalue]
    simp only [if_pos hkey, hexp, Bool.or_false] at hstore ⊢
    cases v <;> cases hc : c.type <;> simp only [hc] at hstore
    · cases hstore
      exact ⟨_, rfl, h.key, fun _ => rfl, h.expire⟩
    · cases hstore
    · cases hstore
    · cases hstore
      exact ⟨_, rfl, h.key, fun _ => rfl, h.expire⟩
  simp only [if_neg hkey] at hstore ⊢
  cases v with
  | str s =>
    cases hstore
    exact ⟨e₂, rfl, h.key, h.value, by simpa [Member.isExpire] using h.expire⟩
  | number x =>
    simp only at hstore ⊢
    by_cases hexp : key = expireKey
    · rw [if_pos hexp] at hstore ⊢
      cases hstore
      exact ⟨_, rfl, h.key, h.value, fun _ => rfl⟩
    · rw [if_neg hexp] at hstore ⊢
      cases hstore
      exact ⟨e₂, rfl, h.key, h.value, by simpa [Member.isExpire, hexp] using h.expire⟩

theorem Agree.storeMembers {known : Bool} {e₁ e₂ e₁' : ParsedEntry} {ms : List Member}
    (h : Agree see known e₁ e₂) (hstore : storeMembers c ms e₁ see = some e₁') :
    ∃ e₂', storeMembers c ms e₂ see = some e₂' ∧
      Agree true (known || ms.any Member.isExpire) e₁' e₂' := by
  induction ms generalizing see known e₁ e₂ with
  | nil =>
    cases see with
    | false => exact absurd hstore (by simp [SharedDict.storeMembers])
    | true =>
      cases hstore
      exact ⟨e₂, rfl, by simpa using h⟩
  | cons m ms ih =>
    rw [SharedDict.storeMembers] at hstore
    split at hstore
    · exact absurd hstore (by simp)
    next e see' hm =>
    obtain ⟨e₂', hm₂, hagree⟩ := h.storeMember hm
    obtain ⟨e₂'', hms, hagree'⟩ := ih hagree hstore
    refine ⟨e₂'', ?_, by simpa [Bool.or_assoc] using hagree'⟩
    rw [SharedDict.storeMembers, hm₂]
    exact hms

theorem storeMember_expire {see' : Bool} {e e' : ParsedEntry} {m : Member}
    (hstore : storeMember c e see m = some (e', see')) :
    e'.key = e.key ∧ (m.isExpire = false → e'.expire = e.expire) := by
  rcases m with ⟨key, v⟩
  simp only [storeMember] at hstore
  by_cases hkey : key = valueKey
  · rw [if_pos hkey] at hstore
    split at hstore <;> cases hstore <;> exact ⟨rfl, fun _ => rfl⟩
  rw [if_neg hkey] at hstore
  cases v with
  | str s =>
    cases hstore
    exact ⟨rfl, fun _ => rfl⟩
  | number x =>
    simp only at hstore
    by_cases hexp : key = expireKey
    · rw [if_pos hexp] at hstore
      cases hstore
      exact ⟨rfl, fun hnone => absurd hnone (by simp [Member.isExpire, hexp])⟩
    · rw [if_neg hexp] at hstore
      cases hstore
      exact ⟨rfl, fun _ => rfl⟩

theorem storeMembers_expire {e e' : ParsedEntry} {ms : List Member}
    (hstore : storeMembers c ms e see = some e') :
    e'.key = e.key ∧ (ms.any Member.isExpire = false → e'.expire = e.expire) := by
  induction ms generalizing see e with
  | nil =>
    cases see with
    | false => exact absurd hstore (by simp [storeMembers])
    | true =>
      cases hstore
      exact ⟨rfl, fun _ => rfl⟩
  | cons m ms ih =>
    rw [storeMembers] at hstore
    split at hstore
    · exact absurd hstore (by simp)
    next e₁ see' hm =>
    obtain ⟨hkey, hexp⟩ := ih hstore
    obtain ⟨hkey', hexp'⟩ := storeMember_expire hm
    refine ⟨hkey.trans hkey', fun hany => ?_⟩
    rw [List.any_cons, Bool.or_eq_false_iff] at hany
    exact (hexp hany.2).trans (hexp' hany.1)

theorem storeEntries_agree (known : Bool)
    (hknown : known = true → ∀ e ∈ es, e.members.any Member.isExpire = true)
    (hstore : storeEntries c es junk = some l) (junk' : ℕ → ParsedEntry) :
    ∃ l', storeEntries c es junk' = some l' ∧ List.Forall₂ (Agree true known) l l' := by
  induction es generalizing junk l junk' with
  | nil =>
    cases hstore
    exact ⟨[], rfl, .nil⟩
  | cons e es ih =>
    obtain ⟨x, xs, rfl, hx, hxs⟩ := storeEntries_cons.mp hstore
    have hagree : Agree false false { junk 0 with key := e.key } { junk' 0 with key := e.key } :=
      ⟨rfl, fun h => absurd h (by simp), fun h => absurd h (by simp)⟩
    obtain ⟨x', hx', hagree'⟩ := hagree.storeMembers hx
    obtain ⟨xs', hxs', hrest⟩ := ih (fun hk e' he' => hknown hk e' (List.mem_cons_of_mem _ he'))
      hxs fun i => junk' (i + 1)
    refine ⟨x' :: xs', storeEntries_cons.mpr ⟨x', xs', rfl, hx', hxs'⟩, .cons ?_ hrest⟩
    refine ⟨hagree'.key, hagree'.value, fun hk => hagree'.expire ?_⟩
    rw [hknown hk e List.mem_cons_self]
    rfl

theorem loadEntries_congr {l' : List ParsedEntry} {known : Bool}
    (hknown : c.timeout = 0 ∨ known = true) (h : List.Forall₂ (Agree true known) l l')
    (z : Zone JsNumber) : loadEntries c now l z = loadEntries c now l' z := by
  induction h generalizing z with
  | nil => rfl
  | @cons e e' l l' hagree _ ih =>
    have hexp : loadExpire c now e.expire = loadExpire c now e'.expire := by
      rcases hknown with ht | hk
      · simp [loadExpire, ht]
      · rw [hagree.expire hk]
    have hih := funext ih
    rw [loadEntries, loadEntries, hexp, hagree.key, hagree.value rfl, hih]

/-- The file gives the expiry time of each of its entries. -/
def ExpireGiven (strtod : Strtod) (buf : Bytes) : Prop :=
  ∀ es, fileEntries strtod buf = .ok es → ∀ e ∈ es, e.members.any Member.isExpire = true

theorem load_of_expireGiven {buf : Bytes} (h : c.timeout = 0 ∨ ExpireGiven strtod buf)
    (z : Zone JsNumber) (junk junk' : ℕ → ParsedEntry) :
    ngxJsDictLoad strtod c junk now (some buf) z =
      ngxJsDictLoad strtod c junk' now (some buf) z := by
  -- Whatever is accepted with one array is accepted with any other.
  have hok : ∀ junk junk' l, ngxJsDictParseState strtod c junk buf = .ok l →
      ∃ l', ngxJsDictParseState strtod c junk' buf = .ok l' ∧
        loadEntries c now l z = loadEntries c now l' z := by
    intro junk junk' l hl
    obtain ⟨es, hes, hstore⟩ := parseState_ok_iff.mp hl
    rcases h with ht | hgiven
    · obtain ⟨l', hl', hagree⟩ :=
        storeEntries_agree false (fun hk => absurd hk (by simp)) hstore junk'
      exact ⟨l', parseState_ok_iff.mpr ⟨es, hes, hl'⟩, loadEntries_congr (.inl ht) hagree z⟩
    · obtain ⟨l', hl', hagree⟩ :=
        storeEntries_agree true (fun _ => hgiven es hes) hstore junk'
      exact ⟨l', parseState_ok_iff.mpr ⟨es, hes, hl'⟩, loadEntries_congr (.inr rfl) hagree z⟩
  rw [ngxJsDictLoad, ngxJsDictLoad]
  by_cases hfile : c.stateFile = false
  · rw [if_pos hfile, if_pos hfile]
  rw [if_neg hfile, if_neg hfile]
  by_cases hbuf : buf = []
  · simp only [if_pos hbuf]
  simp only [if_neg hbuf]
  cases hp : ngxJsDictParseState strtod c junk buf with
  | ok l =>
    obtain ⟨l', hl', heq⟩ := hok junk junk' l hp
    rw [hl']
    exact heq
  | error e =>
    cases hp' : ngxJsDictParseState strtod c junk' buf with
    | error e' => rfl
    | ok l' =>
      obtain ⟨l, hl, -⟩ := hok junk' junk l' hp'
      rw [hp] at hl
      exact absurd hl (by simp)

/-! ### What depends on the memory -/

theorem map_key_storeEntries (hstore : storeEntries c es junk = some l) :
    l.map ParsedEntry.key = es.map FileEntry.key := by
  induction es generalizing junk l with
  | nil =>
    cases hstore
    rfl
  | cons e es ih =>
    obtain ⟨x, xs, rfl, hx, hxs⟩ := storeEntries_cons.mp hstore
    rw [List.map_cons, List.map_cons, ih hxs, (storeMembers_expire hx).1]

theorem exists_storeEntries {e : FileEntry} {j : ParsedEntry}
    (hstore : storeEntries c es (fun _ => j) = some l) (he : e ∈ es)
    (hnone : e.members.any Member.isExpire = false) :
    ∃ p ∈ l, p.key = e.key ∧ p.expire = j.expire := by
  induction es generalizing l with
  | nil => exact absurd he List.not_mem_nil
  | cons e' es ih =>
    obtain ⟨x, xs, rfl, hx, hxs⟩ := storeEntries_cons.mp hstore
    rcases List.mem_cons.mp he with rfl | he
    · obtain ⟨hkey, hexp⟩ := storeMembers_expire hx
      exact ⟨x, List.mem_cons_self, hkey, hexp hnone⟩
    · obtain ⟨p, hp, hrest⟩ := ih hxs he
      exact ⟨p, List.mem_cons_of_mem _ hp, hrest⟩

/-- An allocator that serves `k` requests, from the address `p` on. -/
def answersFrom (p k : ℕ) : List (ℕ → Option Addr) :=
  (List.range' p k).map fun a _ => some a

theorem serves_answersFrom {p k : ℕ} {used : List Addr} (h : ∀ a ∈ used, a < p) :
    Serves k (answersFrom p k) used := by
  induction k generalizing p used with
  | zero => trivial
  | succ k ih =>
    intro n
    refine ⟨p, rfl, fun hmem => absurd (h p hmem) (lt_irrefl p), ih fun a ha => ?_⟩
    rcases List.mem_cons.mp ha with rfl | ha
    · exact Nat.lt_succ_self a
    · exact Nat.lt_succ_of_lt (h a ha)

/-- Memory that holds the expiry time `t` at every entry. -/
def timesAt (t : Msec) (_ : ℕ) : ParsedEntry where
  key := []
  value := .str []
  expire := t

/-- The zone with this file is loaded, the reader accepts the file, and no key stands there
twice. -/
def Loadable (strtod : Strtod) (c : Conf) (buf : Bytes) : Prop :=
  c.stateFile = true ∧ ∃ es, fileEntries strtod buf = .ok es ∧
    (∃ junk l, storeEntries c es junk = some l) ∧ (es.map FileEntry.key).Nodup

/-- An empty zone with an allocator that serves `k` requests. -/
def ampleZone (n : Node JsNumber) (k : ℕ) : Zone JsNumber :=
  (Zone.init n).withSlab (answersFrom 0 k)

theorem load_timesAt {buf : Bytes} (hfile : c.stateFile = true)
    (hes : fileEntries strtod buf = .ok es) (hstore : storeEntries c es junk = some l)
    (hkeys : (es.map FileEntry.key).Nodup) {t : Msec} (ht : c.timeout ≠ 0) (hnow : now < t)
    (hlt : 1 < 1 + t) {e : FileEntry} (he : e ∈ es)
    (hnone : e.members.any Member.isExpire = false) (n : Node JsNumber) :
    ∃ z', ngxJsDictLoad strtod c (timesAt t) now (some buf) (ampleZone n (2 * es.length)) =
        (z', .ok) ∧
      (∃ x ∈ entries c z', x.key = e.key) ∧
      ∀ x ∈ entries c z', x.key = e.key → x.expire = 1 + t := by
  obtain ⟨l', hl', -⟩ := storeEntries_agree false (fun hk => absurd hk (by simp)) hstore
    (timesAt t)
  have hmap := map_key_storeEntries hl'
  have hlen : l'.length = es.length := by simpa using congrArg List.length hmap
  have hload : ∀ z, ngxJsDictLoad strtod c (timesAt t) now (some buf) z =
      loadEntries c now l' z := by
    intro z
    have hbuf : buf ≠ [] := by
      rintro rfl
      exact absurd hes (by simp [fileEntries, ngxJsSkipSpace])
    rw [ngxJsDictLoad, if_neg (by simp [hfile])]
    simp only [if_neg hbuf, parseState_ok_iff.mpr ⟨es, hes, hl'⟩]
  have hinv : Inv c (ampleZone n (2 * es.length)) [] [] := (Inv.init c n).withSlab _
  have hserves : Serves (2 * l'.length) (ampleZone n (2 * es.length)).slab
      (ampleZone n (2 * es.length)).chunks := by
    rw [hlen]
    exact serves_answersFrom fun a ha => absurd ha List.not_mem_nil
  rw [← hmap] at hkeys
  obtain ⟨p, hp, hkey, hexp⟩ := exists_storeEntries hl' he hnone
  have hpos : t ≠ 0 := by
    rintro rfl
    simp at hlt
  have hkept : loadExpire c now p.expire = some (t, false) := by
    have hge : ¬ now ≥ t := UInt64.not_le.mpr hnow
    rw [hexp]
    simp [loadExpire, ht, hpos, hge]
  obtain ⟨z', hz', -, hall⟩ := loadEntries_complete hinv hserves hkeys
    fun p _ x hx => absurd hx List.not_mem_nil
  refine ⟨z', (hload _).trans hz', ?_, ?_⟩
  · obtain ⟨x, hx, hseen⟩ := hall p hp t false hkept fun _ => hlt
    exact ⟨x, hx, (congrArg Prod.fst hseen).trans hkey⟩
  intro x hx hxkey
  rcases loadEntries_sound hinv hserves hz' x hx with hin | ⟨q, hq, t', d, hq', hseen⟩
  · exact absurd hin List.not_mem_nil
  -- No other parsed entry has this key.
  have hqp : q = p := List.inj_on_of_nodup_map hkeys hq hp
    ((congrArg Prod.fst hseen).symm.trans (hxkey.trans hkey.symm))
  rw [hqp, hkept] at hq'
  obtain ⟨rfl, -⟩ := Prod.mk.inj (Option.some.inj hq')
  simpa [Entry.seen, loaded, ht] using congrArg (fun y => y.2.2) hseen

/-- Loading depends on the file only when the zone has no timeout or the file gives all the expiry
times. Of a file that is accepted and in which no key stands twice the converse is true at any time
from which a few milliseconds can be counted. -/
theorem load_determined (strtod : Strtod) (c : Conf) (buf : Bytes) (now : Msec) :
    (c.timeout = 0 ∨ ExpireGiven strtod buf → ∀ z junk junk',
      ngxJsDictLoad strtod c junk now (some buf) z =
        ngxJsDictLoad strtod c junk' now (some buf) z) ∧
    (Loadable strtod c buf → now.toNat + 3 < 2 ^ 64 → (∀ n k junk junk',
        entries c (ngxJsDictLoad strtod c junk now (some buf) (ampleZone n k)).1 =
          entries c (ngxJsDictLoad strtod c junk' now (some buf) (ampleZone n k)).1) →
      c.timeout = 0 ∨ ExpireGiven strtod buf) := by
  refine ⟨fun h z junk junk' => load_of_expireGiven h z junk junk', ?_⟩
  rintro ⟨hfile, es, hes, ⟨junk, l, hstore⟩, hkeys⟩ hnow hsame
  by_contra hnot
  rw [not_or] at hnot
  obtain ⟨ht, hgiven⟩ := hnot
  have hmissing : ∃ e ∈ es, e.members.any Member.isExpire = false := by
    by_contra hall
    refine hgiven fun es' hes' e he => ?_
    rw [hes] at hes'
    cases hes'
    exact Bool.not_eq_false _ ▸ fun hnone => hall ⟨e, he, hnone⟩
  obtain ⟨e, he, hnone⟩ := hmissing
  have hnow₁ : (now + 1).toNat = now.toNat + 1 := by
    rw [UInt64.toNat_add]
    change (now.toNat + 1) % 2 ^ 64 = _
    omega
  have hnow₂ : (now + 2).toNat = now.toNat + 2 := by
    rw [UInt64.toNat_add]
    change (now.toNat + 2) % 2 ^ 64 = _
    omega
  have hone : ∀ t : Msec, t.toNat < 2 ^ 64 - 1 → (1 + t).toNat = 1 + t.toNat := by
    intro t ht
    rw [UInt64.toNat_add]
    change (1 + t.toNat) % 2 ^ 64 = _
    omega
  have hlater : ∀ t : Msec, now.toNat < t.toNat → t.toNat < 2 ^ 64 - 1 → now < t ∧ 1 < 1 + t := by
    intro t hlt hle
    refine ⟨UInt64.lt_iff_toNat_lt.mpr hlt, UInt64.lt_iff_toNat_lt.mpr ?_⟩
    rw [hone t hle]
    change 1 < _
    omega
  obtain ⟨hlt₁, hlive₁⟩ := hlater (now + 1) (by omega) (by omega)
  obtain ⟨hlt₂, hlive₂⟩ := hlater (now + 2) (by omega) (by omega)
  obtain ⟨z₁, hz₁, ⟨x, hx, hxkey⟩, hexp₁⟩ :=
    load_timesAt hfile hes hstore hkeys ht hlt₁ hlive₁ he hnone blankNode
  obtain ⟨z₂, hz₂, -, hexp₂⟩ :=
    load_timesAt hfile hes hstore hkeys ht hlt₂ hlive₂ he hnone blankNode
  have heq := hsame blankNode (2 * es.length) (timesAt (now + 1)) (timesAt (now + 2))
  rw [hz₁, hz₂] at heq
  have hdiff : 1 + (now + 1) = 1 + (now + 2) :=
    (hexp₁ x hx hxkey).symm.trans (hexp₂ x (heq ▸ hx) hxkey)
  have := congrArg UInt64.toNat hdiff
  rw [hone _ (by omega), hone _ (by omega)] at this
  omega

/-- The file `{"a":{"value":"b","expire":9}}`. -/
def timedFile : Bytes :=
  literal ['\x7b', '"', 'a', '"', ':', '\x7b', '"', 'v', 'a', 'l', 'u', 'e', '"', ':', '"', 'b',
    '"', ',', '"', 'e', 'x', 'p', 'i', 'r', 'e', '"', ':', '9', '\x7d', '\x7d']

/-- It is loaded in the same way from two memories. -/
theorem load_determined_timed :
    ngxJsDictLoad decimalStrtod (fileConf 60000) (timesAt 2000) 1 (some timedFile)
        (ampleZone blankNode 2) =
      ngxJsDictLoad decimalStrtod (fileConf 60000) (timesAt 500000) 1 (some timedFile)
        (ampleZone blankNode 2) := by
  refine (load_determined decimalStrtod (fileConf 60000) timedFile 1).1 (.inr fun es hes e he => ?_)
    _ _ _
  obtain rfl : [FileEntry.mk [97] [⟨valueKey, .str [98]⟩, ⟨expireKey, .number (.finite 9)⟩]] = es :=
    Except.ok.inj hes
  obtain rfl := List.mem_singleton.mp he
  decide

/-- The file `{"a":{"value":"b"}}`, without the expiry time of its entry. -/
def plainFile : Bytes :=
  literal ['\x7b', '"', 'a', '"', ':', '\x7b', '"', 'v', 'a', 'l', 'u', 'e', '"', ':', '"', 'b',
    '"', '\x7d', '\x7d']

/-- The reader accepts this file, and a zone with a timeout of a minute holds its entry for as
long as the memory says. -/
theorem not_load_determined_plain :
    ¬ ∀ (strtod : Strtod) (c : Conf) (buf : Bytes) (now : Msec) (z : Zone JsNumber)
        (junk junk' : ℕ → ParsedEntry),
      (∃ l, ngxJsDictParseState strtod c junk buf = .ok l) →
      entries c (ngxJsDictLoad strtod c junk now (some buf) z).1 =
        entries c (ngxJsDictLoad strtod c junk' now (some buf) z).1 := by
  intro h
  have heq := congrArg (List.map Entry.expire) (h decimalStrtod (fileConf 60000) plainFile 1000
    (ampleZone blankNode 2) (timesAt 2000) (timesAt 500000) ⟨_, rfl⟩)
  exact absurd heq (by decide)

end Njs.SharedDict
