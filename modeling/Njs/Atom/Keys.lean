import Njs.Atom.Invariant

/-!
# Property keys and atoms

A machine turns strings and numbers into atoms, makes symbols, and is cloned at some time, after
which the clone goes on. Two keys get one atom if and only if they are one property key, a number
being the same key as its text, and the reverse lookup gives the text of a key at any later time.
-/

namespace Njs.Atom

open FlatHash Text Decimal

variable {ν : Type}

def decimal (n : ℕ) : Bytes := (Numeral.ofNat n).text

/-- What the conversions of numbers promise about unsigned integers. -/
structure Numbers.Lawful (f : Numbers ν) : Prop where
  dtoa_of_uint32 : ∀ num n, f.uint32 num = some n → f.dtoa num = decimal n
  uint32_of_dtoa : ∀ num n, n < 2 ^ 31 → f.dtoa num = decimal n → f.uint32 num = some n
  uint32_atod : ∀ n < 2 ^ 31, f.uint32 (f.atod (decimal n)) = some n
  isNegZero_atod : ∀ n < 2 ^ 31, f.isNegZero (f.atod (decimal n)) = false
  uint32_ofUint32 : ∀ n < 2 ^ 31, f.uint32 (f.ofUint32 n) = some n
  isNegZero_negZero : f.isNegZero f.negZero = true
  uint32_nan : ∀ num, f.isNan num = true → f.uint32 num = none
  uint32_inf : ∀ num, f.isInf num = true → f.uint32 num = none

def Key.text (f : Numbers ν) : Key ν → Bytes
  | .string s => s
  | .number num => (njsNumberToString f num).1

/-! ### Numerals -/

theorem decimal_inj {m n : ℕ} (h : decimal m = decimal n) : m = n := by
  have hread : ∀ k : ℕ, readNumeral (decimal k) = some ((k : ℚ), []) := fun k => by
    have := readNumeral_text (Numeral.ofNat k) (p := []) (by simp)
    rwa [List.append_nil, Numeral.value_ofNat] at this
  have hm := hread m
  rw [h, hread n] at hm
  have hcast : (m : ℚ) = n := (congrArg Prod.fst (Option.some.inj hm)).symm
  exact_mod_cast hcast

theorem decimal_head (n : ℕ) : (decimal n).head?.any isDigitChar = true := by
  obtain ⟨d, l, hl⟩ := List.exists_cons_of_ne_nil (digits_ne_nil n)
  have hd : d < 10 := lt_of_mem_digits (by rw [hl]; exact List.mem_cons_self)
  rw [decimal, Numeral.text_ofNat, hl]
  exact (digitChar_spec d hd).1

theorem ne_decimal {s : Bytes} (hs : s.head?.any isDigitChar = false) (n : ℕ) : s ≠ decimal n := by
  rintro rfl
  rw [decimal_head] at hs
  cases hs

/-! ### The atom of a key -/

section AtomizeKey

variable {f : Numbers ν} (hf : f.Lawful) {vm : Vm} {names : List Name}

variable {n : ℕ}

theorem Numbers.index_eq_some {num : ν} :
    f.index num = some n ↔ f.uint32 num = some n ∧ n < 2 ^ 31 := by
  simp [Numbers.index, Option.filter_eq_some_iff]

include hf

theorem Numbers.Lawful.index_of_text {num : ν} (hn : n < 2 ^ 31)
    (ht : (njsNumberToString f num).1 = decimal n) : f.index num = some n := by
  rw [njsNumberToString] at ht
  split_ifs at ht
  · exact absurd ht (ne_decimal (by decide) n)
  · exact absurd ht (ne_decimal (by decide) n)
  · exact absurd ht (ne_decimal (by decide) n)
  · exact Numbers.index_eq_some.mpr ⟨hf.uint32_of_dtoa num n hn ht, hn⟩

theorem Numbers.Lawful.text_of_index {num : ν} (hn : f.index num = some n) :
    n < 2 ^ 31 ∧ (njsNumberToString f num).1 = decimal n := by
  obtain ⟨huint, hlt⟩ := Numbers.index_eq_some.mp hn
  refine ⟨hlt, ?_⟩
  rw [njsNumberToString]
  split_ifs with hnan hinf
  · rw [hf.uint32_nan num hnan] at huint
    cases huint
  · rw [hf.uint32_inf num hinf] at huint
    cases huint
  · rw [hf.uint32_inf num hinf] at huint
    cases huint
  · exact hf.dtoa_of_uint32 num n huint

theorem Numbers.Lawful.stringToIndex_iff {s : Bytes} : ((njsStringToIndex f s).bind fun num =>
      if f.isNegZero num then none else f.index num) = some n ↔
    n < 2 ^ 31 ∧ s = decimal n := by
  rw [njsStringToIndex]
  by_cases hzero : s = lit "-0"
  · rw [if_pos hzero, Option.bind_some, hf.isNegZero_negZero, if_pos rfl]
    refine ⟨(nomatch ·), fun h => ?_⟩
    exact absurd (hzero.symm.trans h.2) (ne_decimal (by decide) n)
  rw [if_neg hzero]
  constructor
  · intro h
    simp only at h
    split_ifs at h with hdtoa
    · rw [Option.bind_some] at h
      split_ifs at h
      obtain ⟨huint, hlt⟩ := Numbers.index_eq_some.mp h
      exact ⟨hlt, hdtoa.trans (hf.dtoa_of_uint32 _ _ huint)⟩
    · cases h
  rintro ⟨hn, rfl⟩
  have huint := hf.uint32_atod n hn
  simp only
  rw [if_pos (hf.dtoa_of_uint32 _ _ huint).symm, Option.bind_some, hf.isNegZero_atod n hn,
    if_neg Bool.false_ne_true]
  exact Numbers.index_eq_some.mpr ⟨huint, hn⟩

theorem Numbers.Lawful.atomizeKey_index (mem : Bool) (junk : Junk) (vm : Vm) {key : Key ν}
    (hn : n < 2 ^ 31) (ht : key.text f = decimal n) :
    njsAtomAtomizeKey f mem junk vm key = (vm, some (njsNumberAtom n)) := by
  cases key with
  | string s =>
    have hindex := hf.stringToIndex_iff.mpr ⟨hn, ht⟩
    rw [Key.text] at hindex
    rw [njsAtomAtomizeKey, hindex]
  | number num =>
    rw [njsAtomAtomizeKey, hf.index_of_text hn ht]

end AtomizeKey

def Denotes (names : List Name) (id : ℕ) (text : Bytes) : Prop :=
  (∃ n < 2 ^ 31, text = decimal n ∧ id = njsNumberAtom n) ∨
    ((∀ n < 2 ^ 31, text ≠ decimal n) ∧ names[id]? = some (.string text))

theorem Denotes.mono {names names' : List Name} (hpre : names <+: names') {id : ℕ} {text : Bytes}
    (h : Denotes names id text) : Denotes names' id text := by
  rcases h with h | ⟨hnot, hget⟩
  · exact .inl h
  · have hlt := (List.getElem?_eq_some_iff.mp hget).1
    refine .inr ⟨hnot, ?_⟩
    obtain ⟨l, rfl⟩ := hpre
    rw [List.getElem?_append_left hlt, hget]

theorem Denotes.id_eq {names : List Name} (hd : Distinct names) {i j : ℕ} {text : Bytes}
    (hi : Denotes names i text) (hj : Denotes names j text) : i = j := by
  rcases hi with ⟨m, hm, ht, rfl⟩ | ⟨hnot, hget⟩ <;> rcases hj with ⟨n, hn, ht', rfl⟩ | ⟨hnot',
    hget'⟩
  · rw [decimal_inj (ht.symm.trans ht')]
  · exact absurd ht (hnot' m hm)
  · exact absurd ht' (hnot n hn)
  · exact hd.getElem?_inj hget hget'

theorem Denotes.text_eq {names : List Name} (hcount : names.length ≤ 2 ^ 26) {id : ℕ}
    {s t : Bytes} (hs : Denotes names id s) (ht : Denotes names id t) : s = t := by
  have hbig : ∀ n < 2 ^ 31, ∀ u, names[njsNumberAtom n]? ≠ some (Name.string u) := by
    intro n hn u hget
    have hlt := (List.getElem?_eq_some_iff.mp hget).1
    rw [njsNumberAtom_eq hn] at hlt
    omega
  rcases hs with ⟨m, hm, rfl, rfl⟩ | ⟨-, hget⟩ <;> rcases ht with ⟨n, hn, rfl, heq⟩ | ⟨-, hget'⟩
  · rw [njsNumberAtom_eq hm, njsNumberAtom_eq hn] at heq
    have : m = n := by omega
    rw [this]
  · exact absurd hget' (hbig m hm t)
  · rw [heq] at hget
    exact absurd hget (hbig n hn s)
  · rw [hget] at hget'
    exact Name.string.inj (Option.some.inj hget')

theorem intern_spec (names : List Name) (s : Bytes) :
    names <+: (intern names s).1 ∧ (intern names s).1[(intern names s).2]? = some (.string s) := by
  rw [intern]
  cases hidx : names.idxOf? (.string s) with
  | some i =>
    obtain ⟨hlt, heq, -⟩ := List.idxOf?_eq_some_iff.mp hidx
    exact ⟨List.prefix_rfl, by rw [List.getElem?_eq_getElem hlt, heq]⟩
  | none => exact ⟨List.prefix_append _ _, by simp⟩

section Machines

variable {f : Numbers ν} {vm : Vm} {names : List Name}

theorem predefined_get (hpre : njsAtom.map Def.name <+: names) {s : Bytes}
    (hs : Def.string s ∈ njsAtom) : names[njsAtom.idxOf (.string s)]? = some (.string s) := by
  obtain ⟨l, rfl⟩ := hpre
  have hlt : njsAtom.idxOf (.string s) < njsAtom.length := List.idxOf_lt_length_iff.mpr hs
  rw [List.getElem?_append_left (by rwa [List.length_map]), List.getElem?_map,
    List.getElem?_idxOf hs]
  rfl

theorem Represents.atomizeKey (hf : f.Lawful) (hr : Represents vm names)
    (hpre : njsAtom.map Def.name <+: names) (hcount : names.length < 2 ^ 26) (junk : Junk)
    (key : Key ν) :
    ∃ vm' names' id, njsAtomAtomizeKey f true junk vm key = (vm', some id) ∧
      Represents vm' names' ∧ names <+: names' ∧ vm'.atomHashCurrent = vm.atomHashCurrent ∧
      Denotes names' id (key.text f) := by
  by_cases hindex : ∃ n < 2 ^ 31, key.text f = decimal n
  · obtain ⟨n, hn, ht⟩ := hindex
    exact ⟨vm, names, _, hf.atomizeKey_index true junk vm hn ht, hr, List.prefix_rfl, rfl,
      .inl ⟨n, hn, ht, rfl⟩⟩
  have hnot : ∀ n < 2 ^ 31, key.text f ≠ decimal n := fun n hn ht => hindex ⟨n, hn, ht⟩
  -- Every other key is interned, or is predefined.
  have hintern : ∀ s, (∀ n < 2 ^ 31, s ≠ decimal n) → ∃ vm' names' id,
      Atom.atomizeString true junk vm s = (vm', some id) ∧ Represents vm' names' ∧
        names <+: names' ∧ vm'.atomHashCurrent = vm.atomHashCurrent ∧ Denotes names' id s := by
    intro s hs
    obtain ⟨vm', heq, hr', hcur⟩ := hr.atomizeString hcount junk s
    obtain ⟨hinit, hget⟩ := intern_spec names s
    exact ⟨vm', _, _, heq, hr', hinit, hcur, .inr ⟨hs, hget⟩⟩
  have hpredefined : ∀ s, Def.string s ∈ njsAtom → (∀ n < 2 ^ 31, s ≠ decimal n) →
      ∃ vm' names' id, (vm, some (njsAtom.idxOf (.string s))) = (vm', some id) ∧
        Represents vm' names' ∧ names <+: names' ∧
        vm'.atomHashCurrent = vm.atomHashCurrent ∧ Denotes names' id s := fun s hmem hs =>
    ⟨vm, names, _, rfl, hr, List.prefix_rfl, rfl, .inr ⟨hs, predefined_get hpre hmem⟩⟩
  cases key with
  | string s =>
    have hnone : ((njsStringToIndex f s).bind fun num =>
        if f.isNegZero num then none else f.index num) = none := by
      rw [Option.eq_none_iff_forall_ne_some]
      intro n hn
      obtain ⟨hlt, rfl⟩ := hf.stringToIndex_iff.mp hn
      exact hnot n hlt rfl
    rw [njsAtomAtomizeKey, hnone]
    exact hintern s hnot
  | number num =>
    have hnone : f.index num = none := by
      rw [Option.eq_none_iff_forall_ne_some]
      intro n hn
      obtain ⟨hlt, ht⟩ := hf.text_of_index hn
      exact hnot n hlt ht
    rw [njsAtomAtomizeKey, hnone]
    rw [Key.text, njsNumberToString] at hnot ⊢
    simp only
    split_ifs at hnot ⊢
    · exact hpredefined _ mem_njsAtom.1 hnot
    · exact hpredefined _ mem_njsAtom.2.1 hnot
    · exact hpredefined _ mem_njsAtom.2.2 hnot
    · exact hintern _ hnot

theorem Represents.toValue_denotes (hf : f.Lawful) (hr : Represents vm names)
    (hcount : names.length ≤ 2 ^ 26) {id : ℕ} {text : Bytes} (h : Denotes names id text) :
    njsAtomToValue f vm id = some (.string id text) := by
  rcases h with ⟨n, hn, rfl, rfl⟩ | ⟨-, hget⟩
  · obtain ⟨hnumber, hn'⟩ := njsNumberAtom_spec hn
    rw [njsAtomToValue, if_pos hnumber, hn', hf.dtoa_of_uint32 _ _ (hf.uint32_ofUint32 n hn)]
  · exact hr.toValue f hcount hget

end Machines

/-! ### Runs -/

/-- What happens to a machine. -/
inductive Event (ν : Type)
  | atomize (key : Key ν)
  | symbol (description : Option Bytes)
  | clone

/-- An event, whether a request for memory is served, and what the new memory holds. -/
structure Step (ν : Type) where
  event : Event ν
  mem : Bool
  junk : Junk

/-- A step: the machine after it, and the id that it returns. -/
def Step.run (f : Numbers ν) (s : Step ν) (vm : Vm) : Vm × Option ℕ :=
  match s.event with
  | .atomize key => njsAtomAtomizeKey f s.mem s.junk vm key
  | .symbol description => njsAtomSymbolAdd s.mem s.junk vm description
  | .clone => (njsVmClone vm, none)

/-- A run: the machine after it, and the ids. -/
def run (f : Numbers ν) : List (Step ν) → Vm → Vm × List (Option ℕ)
  | [], vm => (vm, [])
  | s :: steps, vm =>
    ((run f steps (s.run f vm).1).1, (s.run f vm).2 :: (run f steps (s.run f vm).1).2)

/-- The cloning. -/
def Step.isClone (s : Step ν) : Bool :=
  match s.event with
  | .clone => true
  | _ => false

/-- How often a machine may be cloned: a clone is not cloned again. -/
def Vm.clonesLeft (vm : Vm) : ℕ :=
  match vm.atomHashCurrent with
  | .shared => 1
  | .own => 0

/-- A property key: a text, or the symbol that a step makes. -/
inductive PropertyKey
  | text (s : Bytes)
  | symbol (step : ℕ)

/-- The property key that the `i`-th event is about. -/
def Event.key (f : Numbers ν) (i : ℕ) : Event ν → Option PropertyKey
  | .atomize key => some (.text (key.text f))
  | .symbol _ => some (.symbol i)
  | .clone => none

def keyAt (f : Numbers ν) (steps : List (Step ν)) (i : ℕ) : Option PropertyKey :=
  steps[i]?.bind fun s => s.event.key f i

/-- The answers of a run are those of property keys: every key has an id, two keys have one id if
and only if they are the same, and the id of a string or a number is turned back into its text. -/
structure Faithful (f : Numbers ν) (steps : List (Step ν)) (vm : Vm) (ids : List (Option ℕ)) :
    Prop where
  answered : ∀ i k, keyAt f steps i = some k → ∃ id, ids[i]? = some (some id)
  same_iff : ∀ i j k l, keyAt f steps i = some k → keyAt f steps j = some l →
    (ids[i]? = ids[j]? ↔ k = l)
  toValue : ∀ i text, keyAt f steps i = some (.text text) →
    ∃ id, ids[i]? = some (some id) ∧ njsAtomToValue f vm id = some (.string id text)

/-- The answers of a run among the names at its end; symbols have ascending ids from `m` on. -/
inductive Answers (f : Numbers ν) (names : List Name) : ℕ → List (Step ν) → List (Option ℕ) → Prop
  | nil (m : ℕ) : Answers f names m [] []
  | atomize {m id : ℕ} {s : Step ν} {key : Key ν} {steps : List (Step ν)} {ids : List (Option ℕ)}
      (hs : s.event = .atomize key) (hid : Denotes names id (key.text f))
      (h : Answers f names m steps ids) : Answers f names m (s :: steps) (some id :: ids)
  | symbol {m id : ℕ} {s : Step ν} {d : Option Bytes} {steps : List (Step ν)}
      {ids : List (Option ℕ)} (hs : s.event = .symbol d) (hle : m ≤ id)
      (hid : names[id]? = some (.symbol d)) (h : Answers f names (id + 1) steps ids) :
      Answers f names m (s :: steps) (some id :: ids)
  | clone {m : ℕ} {s : Step ν} {steps : List (Step ν)} {ids : List (Option ℕ)}
      (hs : s.event = .clone) (h : Answers f names m steps ids) :
      Answers f names m (s :: steps) (none :: ids)

section Runs

variable {f : Numbers ν} {names : List Name} {m : ℕ} {steps : List (Step ν)} {ids : List (Option ℕ)}

theorem Answers.mono (h : Answers f names m steps ids) {k : ℕ} (hk : k ≤ m) :
    Answers f names k steps ids := by
  induction h with
  | nil m => exact .nil k
  | atomize hs hid _ ih => exact .atomize hs hid (ih hk)
  | symbol hs hle hid h _ => exact .symbol hs (hk.trans hle) hid h
  | clone hs _ ih => exact .clone hs (ih hk)

def Answered (f : Numbers ν) (names : List Name) (m : ℕ) (answer : Option (Option ℕ)) :
    Event ν → Prop
  | .atomize key => ∃ id, answer = some (some id) ∧ Denotes names id (key.text f)
  | .symbol d => ∃ id, answer = some (some id) ∧ m ≤ id ∧ names[id]? = some (.symbol d)
  | .clone => answer = some none

theorem Answered.mono {answer : Option (Option ℕ)} {e : Event ν} {k : ℕ} (hk : k ≤ m)
    (h : Answered f names m answer e) : Answered f names k answer e := by
  cases e with
  | atomize key => exact h
  | symbol d =>
    obtain ⟨id, hid, hle, hget⟩ := h
    exact ⟨id, hid, hk.trans hle, hget⟩
  | clone => exact h

theorem Answers.get (h : Answers f names m steps ids) :
    ∀ (i : ℕ) (s : Step ν), steps[i]? = some s → Answered f names m ids[i]? s.event := by
  induction h with
  | nil m =>
    intro i s hi
    cases hi
  | atomize hs hid _ ih =>
    rintro (_ | i) s hi
    · obtain rfl := Option.some.inj hi
      rw [hs]
      exact ⟨_, rfl, hid⟩
    · exact ih i s hi
  | symbol hs hle hid _ ih =>
    rintro (_ | i) s hi
    · obtain rfl := Option.some.inj hi
      rw [hs]
      exact ⟨_, rfl, hle, hid⟩
    · exact (ih i s hi).mono (by omega)
  | clone hs _ ih =>
    rintro (_ | i) s hi
    · obtain rfl := Option.some.inj hi
      rw [hs]
      rfl
    · exact ih i s hi

theorem Answers.symbol_inj (h : Answers f names m steps ids) :
    ∀ (i j : ℕ) (s t : Step ν) (d d' : Option Bytes), steps[i]? = some s → steps[j]? = some t →
      s.event = .symbol d → t.event = .symbol d' → ids[i]? = ids[j]? → i = j := by
  induction h with
  | nil m =>
    intro i j s t d d' hi
    cases hi
  | atomize hs hid _ ih =>
    rintro (_ | i) (_ | j) s t d d' hi hj hsd htd heq
    · rfl
    · obtain rfl := Option.some.inj hi
      rw [hs] at hsd
      cases hsd
    · obtain rfl := Option.some.inj hj
      rw [hs] at htd
      cases htd
    · rw [ih i j s t d d' hi hj hsd htd heq]
  | @symbol m id s d steps ids hs hle hid h ih =>
    -- The symbols after this one have greater ids.
    have hlater : ∀ (i : ℕ) (s : Step ν) (d : Option Bytes), steps[i]? = some s →
        s.event = .symbol d → ids[i]? ≠ some (some id) := by
      intro i s d hi hsd heq
      obtain ⟨id', hid', hlt, -⟩ : Answered f names (id + 1) ids[i]? (.symbol d) :=
        hsd ▸ h.get i s hi
      rw [heq, Option.some.injEq, Option.some.injEq] at hid'
      omega
    rintro (_ | i) (_ | j) s t d d' hi hj hsd htd heq
    · rfl
    · exact absurd heq.symm (hlater j t d' hj htd)
    · exact absurd heq (hlater i s d hi hsd)
    · rw [ih i j s t d d' hi hj hsd htd heq]
  | clone hs _ ih =>
    rintro (_ | i) (_ | j) s t d d' hi hj hsd htd heq
    · rfl
    · obtain rfl := Option.some.inj hi
      rw [hs] at hsd
      cases hsd
    · obtain rfl := Option.some.inj hj
      rw [hs] at htd
      cases htd
    · rw [ih i j s t d d' hi hj hsd htd heq]

theorem run_spec (hf : f.Lawful) (steps : List (Step ν)) :
    ∀ {vm : Vm} {names : List Name}, Represents vm names → njsAtom.map Def.name <+: names →
      (∀ s ∈ steps, s.mem = true) → steps.countP Step.isClone ≤ vm.clonesLeft →
      (∀ n, (run f (steps.take n) vm).1.atomIdGenerator < 2 ^ 26) →
      ∃ names', Represents (run f steps vm).1 names' ∧ names <+: names' ∧
        names'.length < 2 ^ 26 ∧ Answers f names' names.length steps (run f steps vm).2 := by
  induction steps with
  | nil =>
    intro vm names hr hpre _ _ hfits
    have hcount := hfits 0
    rw [List.take_zero, run, hr.generator] at hcount
    exact ⟨names, hr, List.prefix_rfl, hcount, .nil _⟩
  | cons s steps ih =>
    intro vm names hr hpre hmem hclone hfits
    have hcount := hfits 0
    rw [List.take_zero, run, hr.generator] at hcount
    have hfits' : ∀ n, (run f (steps.take n) (s.run f vm).1).1.atomIdGenerator < 2 ^ 26 :=
      fun n => hfits (n + 1)
    have hmem' : ∀ t ∈ steps, t.mem = true := fun t ht => hmem t (List.mem_cons_of_mem s ht)
    obtain ⟨e, mem, junk⟩ := s
    obtain rfl : mem = true := hmem _ List.mem_cons_self
    rw [List.countP_cons] at hclone
    cases e with
    | atomize key =>
      obtain ⟨vm', names', id, heq, hr', hinit, hcur, hid⟩ :=
        hr.atomizeKey hf hpre hcount junk key
      have hrun : Step.run f ⟨.atomize key, true, junk⟩ vm = (vm', some id) := heq
      rw [hrun] at hfits'
      obtain ⟨names'', hr'', hinit', hcount', hanswers⟩ := ih hr' (hpre.trans hinit) hmem'
        (by rw [Vm.clonesLeft, hcur]; exact hclone) hfits'
      refine ⟨names'', ?_, hinit.trans hinit', hcount', ?_⟩
      · rw [run, hrun]
        exact hr''
      · rw [run, hrun]
        exact .atomize rfl (hid.mono hinit') (hanswers.mono hinit.length_le)
    | symbol d =>
      obtain ⟨vm', heq, hr', hcur⟩ := hr.symbolAdd hcount junk d
      have hrun : Step.run f ⟨.symbol d, true, junk⟩ vm = (vm', some names.length) := heq
      rw [hrun] at hfits'
      have hinit : names <+: names ++ [.symbol d] := List.prefix_append _ _
      obtain ⟨names'', hr'', hinit', hcount', hanswers⟩ := ih hr' (hpre.trans hinit) hmem'
        (by rw [Vm.clonesLeft, hcur]; exact hclone) hfits'
      refine ⟨names'', ?_, hinit.trans hinit', hcount', ?_⟩
      · rw [run, hrun]
        exact hr''
      · rw [run, hrun]
        rw [List.length_append, List.length_singleton] at hanswers
        refine .symbol rfl le_rfl ?_ hanswers
        obtain ⟨l, rfl⟩ := hinit'
        rw [List.getElem?_append_left (by simp), List.getElem?_concat_length]
    | clone =>
      have hleft : steps.countP Step.isClone + 1 ≤ vm.clonesLeft := hclone
      have hcur : vm.atomHashCurrent = .shared := by
        rw [Vm.clonesLeft] at hleft
        cases h : vm.atomHashCurrent with
        | shared => rfl
        | own =>
          rw [h] at hleft
          simp at hleft
      have hzero : steps.countP Step.isClone ≤ (njsVmClone vm).clonesLeft := by
        rw [Vm.clonesLeft, hcur] at hleft
        exact Nat.le_of_succ_le_succ hleft
      obtain ⟨names'', hr'', hinit', hcount', hanswers⟩ := ih (hr.clone hcur) hpre hmem' hzero
        hfits'
      exact ⟨names'', hr'', hinit', hcount', .clone rfl hanswers⟩

theorem advance_setCurrent_le (vm : Vm) (fh : AtomHash) :
    (vm.setCurrent fh).advance.atomIdGenerator ≤ vm.atomIdGenerator + 1 := by
  rw [Vm.advance, Vm.setCurrent_atomIdGenerator]
  exact Nat.mod_le _ _

theorem njsAtomAdd_generator_le (mem : Bool) (junk : Junk) (vm : Vm) (s : Bytes) (hash : UInt32) :
    (njsAtomAdd mem junk vm s hash).1.atomIdGenerator ≤ vm.atomIdGenerator + 1 := by
  rw [njsAtomAdd]
  split
  · simp only
    split_ifs
    · exact advance_setCurrent_le _ _
    · exact advance_setCurrent_le _ _
  · simp

theorem atomizeString_generator_le (mem : Bool) (junk : Junk) (vm : Vm) (s : Bytes) :
    (atomizeString mem junk vm s).1.atomIdGenerator ≤ vm.atomIdGenerator + 1 := by
  have hadd := njsAtomAdd_generator_le mem junk vm s (njsDjbHash s)
  rw [atomizeString]
  split
  · exact Nat.le_succ _
  · exact Nat.le_succ _
  · rcases hres : njsAtomAdd mem junk vm s (njsDjbHash s) with ⟨vm', _ | ⟨i, d⟩ | ⟨i, d⟩⟩ <;>
      (rw [hres] at hadd; exact hadd)

theorem Step.run_generator_le (s : Step ν) (vm : Vm) :
    (s.run f vm).1.atomIdGenerator ≤ vm.atomIdGenerator + 1 := by
  obtain ⟨e, mem, junk⟩ := s
  cases e with
  | atomize key =>
    change (njsAtomAtomizeKey f mem junk vm key).1.atomIdGenerator ≤ _
    cases key with
    | string s =>
      rw [njsAtomAtomizeKey]
      split
      · exact Nat.le_succ _
      · exact atomizeString_generator_le mem junk vm s
    | number num =>
      rw [njsAtomAtomizeKey]
      split
      · exact Nat.le_succ _
      · split
        · exact atomizeString_generator_le mem junk vm _
        · exact Nat.le_succ _
  | symbol d =>
    change (njsAtomSymbolAdd mem junk vm d).1.atomIdGenerator ≤ _
    rw [njsAtomSymbolAdd]
    split
    · simp only
      split_ifs
      · exact advance_setCurrent_le _ _
      · exact advance_setCurrent_le _ _
    · simp
  | clone => exact Nat.le_succ _

theorem run_generator_le (steps : List (Step ν)) :
    ∀ vm : Vm, (run f steps vm).1.atomIdGenerator ≤ vm.atomIdGenerator + steps.length := by
  induction steps with
  | nil => exact fun vm => le_rfl
  | cons s steps ih =>
    intro vm
    have hstep := s.run_generator_le (f := f) vm
    have hrun := ih (s.run f vm).1
    rw [List.length_cons]
    change (run f steps (s.run f vm).1).1.atomIdGenerator ≤ _
    omega

end Runs

/-- From a new machine on, with its cloning at some time, the atoms are those of property keys. -/
theorem atoms_faithful {f : Numbers ν} (hf : f.Lawful) (junk : Junk) :
    ∃ vm, njsAtomHashInit true junk = some vm ∧ ∀ steps : List (Step ν),
      (∀ s ∈ steps, s.mem = true) → steps.countP Step.isClone ≤ 1 →
      (∀ n, (run f (steps.take n) vm).1.atomIdGenerator < 2 ^ 26) →
      Faithful f steps (run f steps vm).1 (run f steps vm).2 := by
  obtain ⟨vm, hinit, hr, hcur⟩ := hashInit_represents junk
  refine ⟨vm, hinit, fun steps hmem hclone hfits => ?_⟩
  obtain ⟨names, hr', -, hcount, hanswers⟩ := run_spec hf steps hr List.prefix_rfl hmem
    (by rw [Vm.clonesLeft, hcur]; exact hclone) hfits
  have htext : ∀ i text, keyAt f steps i = some (.text text) →
      ∃ id, (run f steps vm).2[i]? = some (some id) ∧ Denotes names id text := by
    intro i text hi
    obtain ⟨s, hs, hkey⟩ := Option.bind_eq_some_iff.mp hi
    have := hanswers.get i s hs
    cases he : s.event with
    | atomize key =>
      rw [he] at this hkey
      obtain rfl := PropertyKey.text.inj (Option.some.inj hkey)
      exact this
    | symbol d =>
      rw [he] at hkey
      cases hkey
    | clone =>
      rw [he] at hkey
      cases hkey
  have hsymbol : ∀ i n, keyAt f steps i = some (.symbol n) → i = n ∧ ∃ s d id,
      steps[i]? = some s ∧ s.event = .symbol d ∧ (run f steps vm).2[i]? = some (some id) ∧
        names[id]? = some (.symbol d) := by
    intro i n hi
    obtain ⟨s, hs, hkey⟩ := Option.bind_eq_some_iff.mp hi
    have := hanswers.get i s hs
    cases he : s.event with
    | atomize key =>
      rw [he] at hkey
      cases hkey
    | symbol d =>
      rw [he] at this hkey
      obtain ⟨id, hid, -, hget⟩ := this
      exact ⟨PropertyKey.symbol.inj (Option.some.inj hkey), s, d, id, hs, he, hid, hget⟩
    | clone =>
      rw [he] at hkey
      cases hkey
  -- A symbol has no text.
  have hmixed : ∀ id d text, names[id]? = some (.symbol d) → ¬Denotes names id text := by
    rintro id d text hget (⟨n, hn, -, rfl⟩ | ⟨-, hget'⟩)
    · have hlt := (List.getElem?_eq_some_iff.mp hget).1
      rw [njsNumberAtom_eq hn] at hlt
      omega
    · rw [hget] at hget'
      cases hget'
  refine ⟨fun i k hi => ?_, fun i j k l hi hj => ?_, fun i text hi => ?_⟩
  · cases k with
    | text t =>
      obtain ⟨id, hid, -⟩ := htext i t hi
      exact ⟨id, hid⟩
    | symbol n =>
      obtain ⟨-, s, d, id, -, -, hid, -⟩ := hsymbol i n hi
      exact ⟨id, hid⟩
  · cases k with
    | text s =>
      obtain ⟨a, ha, hda⟩ := htext i s hi
      cases l with
      | text t =>
        obtain ⟨b, hb, hdb⟩ := htext j t hj
        rw [ha, hb, Option.some.injEq, Option.some.injEq, PropertyKey.text.injEq]
        constructor
        · rintro rfl
          exact hda.text_eq hcount.le hdb
        · rintro rfl
          exact hda.id_eq hr'.distinct hdb
      | symbol n =>
        obtain ⟨-, u, d, b, -, -, hb, hget⟩ := hsymbol j n hj
        rw [ha, hb, Option.some.injEq, Option.some.injEq]
        refine ⟨?_, (nomatch ·)⟩
        rintro rfl
        exact absurd hda (hmixed a d s hget)
    | symbol n =>
      obtain ⟨rfl, u, d, a, hu, hud, ha, hget⟩ := hsymbol i n hi
      cases l with
      | text t =>
        obtain ⟨b, hb, hdb⟩ := htext j t hj
        rw [ha, hb, Option.some.injEq, Option.some.injEq]
        refine ⟨?_, (nomatch ·)⟩
        rintro rfl
        exact absurd hdb (hmixed a d t hget)
      | symbol n' =>
        obtain ⟨rfl, v, d', b, hv, hvd, hb, -⟩ := hsymbol j n' hj
        constructor
        · intro heq
          rw [hanswers.symbol_inj i j u v d d' hu hv hud hvd heq]
        · intro heq
          rw [PropertyKey.symbol.inj heq]
  · obtain ⟨id, hid, hdenotes⟩ := htext i text hi
    exact ⟨id, hid, hr'.toValue_denotes hf hcount.le hdenotes⟩

/-! ### A run with integers -/

def integers : Numbers (Option (Bool × ℕ)) where
  dtoa
    | none => lit "NaN"
    | some (neg, n) => if neg = true ∧ n ≠ 0 then chr '-' :: decimal n else decimal n
  atod s :=
    let neg : Bool := s.head? = some (chr '-')
    match readDigits (if neg then s.tail else s) with
    | ([], _) => none
    | (l, _) => some (neg, ofDigits l)
  uint32
    | none => none
    | some (neg, n) => if neg = true ∧ n ≠ 0 ∨ 2 ^ 32 ≤ n then none else some n
  ofUint32 n := some (false, n)
  negZero := some (true, 0)
  isNegZero x := x = some (true, 0)
  isNan x := x.isNone
  isInf _ := false
  isNegative
    | none => false
    | some (neg, n) => neg && n ≠ 0

theorem atod_decimal (n : ℕ) : integers.atod (decimal n) = some (false, n) := by
  obtain ⟨d, l, hl⟩ := List.exists_cons_of_ne_nil (digits_ne_nil n)
  have hhead : (decimal n).head? ≠ some (chr '-') := by
    intro h
    have := decimal_head n
    rw [h] at this
    revert this
    decide
  have hread : readDigits (decimal n) = (d :: l, []) := by
    rw [decimal, Numeral.text_ofNat, ← List.append_nil (List.map _ _),
      readDigits_append (fun d hd => lt_of_mem_digits hd) (by simp), hl]
  have hvalue : ofDigits (d :: l) = n := by
    rw [← hl, ofDigits_digits]
  simp only [integers, hhead, decide_false, Bool.false_eq_true, if_false, hread, hvalue]

theorem lawful_integers : integers.Lawful where
  dtoa_of_uint32 := by
    rintro (_ | ⟨neg, m⟩) n h
    · cases h
    · simp only [integers] at h ⊢
      split_ifs at h with hcond
      rw [not_or] at hcond
      rw [if_neg hcond.1, Option.some.inj h]
  uint32_of_dtoa := by
    rintro (_ | ⟨neg, m⟩) n hn h
    · exact absurd h (ne_decimal (by decide) n)
    simp only [integers] at h ⊢
    split_ifs at h with hneg
    · exact absurd h (ne_decimal (by rfl) n)
    · obtain rfl := decimal_inj h
      have hlarge : ¬2 ^ 32 ≤ m := by omega
      rw [if_neg (not_or.mpr ⟨hneg, hlarge⟩)]
  uint32_atod n hn := by
    rw [atod_decimal]
    simp [integers]
    omega
  isNegZero_atod n hn := by
    rw [atod_decimal]
    simp [integers]
  uint32_ofUint32 n hn := by
    simp [integers]
    omega
  isNegZero_negZero := rfl
  uint32_nan := by
    rintro (_ | ⟨neg, m⟩) h
    · rfl
    · cases h
  uint32_inf num h := by cases h

/-- A key before and after the cloning, as a string and as a number, and a symbol. -/
theorem atoms_faithful_seven :
    let junk : Junk := fun _ => ⟨0, .free, 0, none, .symbol 0 none⟩
    let steps : List (Step (Option (Bool × ℕ))) :=
      [.atomize (.string (lit "seven")), .atomize (.number (some (false, 7))), .clone,
        .symbol none, .atomize (.string (lit "7")), .atomize (.number none),
        .atomize (.string (lit "seven"))].map (⟨·, true, junk⟩)
    ∃ vm, njsAtomHashInit true junk = some vm ∧
      Faithful integers steps (run integers steps vm).1 (run integers steps vm).2 := by
  intro junk steps
  obtain ⟨vm, hinit, h⟩ := atoms_faithful lawful_integers junk
  refine ⟨vm, hinit, h steps (by simp [steps]) (by decide) fun n => ?_⟩
  have hgenerator : vm.atomIdGenerator = 485 := by
    obtain ⟨fh, -, rfl⟩ := Option.map_eq_some_iff.mp hinit
    exact length_njsAtom
  have hrun := run_generator_le (f := integers) (steps.take n) vm
  have hlen : (steps.take n).length ≤ 7 := List.length_take_le' n steps
  omega

end Njs.Atom
