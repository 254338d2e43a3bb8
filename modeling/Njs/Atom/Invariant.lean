import Njs.Atom.Table
import Njs.FlatHash.Refinement
import Mathlib.Data.Nat.Bitwise

/-!
# The names in the atom table

A table holds a list of names in the order of insertion, and a machine with its clone a list that
is cut in two. Interning a string returns its place in the list, or puts it at the end.
-/

namespace Njs.Atom

open FlatHash IndexChain Text

/-- What an atom stands for. -/
inductive Name
  | string (s : Bytes)
  | symbol (description : Option Bytes)
  deriving DecidableEq

def Name.text? : Name → Option Bytes
  | .string s => some s
  | .symbol _ => none

def Name.value (n : ℕ) : Name → Value
  | .string s => .string n s
  | .symbol d => .symbol n d

def Name.query (n : ℕ) : Name → Query (Option Bytes)
  | .string s => stringQuery s (njsDjbHash s)
  | .symbol _ => symbolQuery n

def Name.entry (n : ℕ) (name : Name) : Entry (Option Bytes) Value :=
  (name.query n).entry (name.value n)

/-- The entries of a list of names in the order of insertion, the first with the number `n`. -/
def nameEntries (n : ℕ) (names : List Name) : List (Entry (Option Bytes) Value) :=
  (names.zipIdx n).map fun p => p.1.entry p.2

/-- No two atoms stand for one string. -/
def Distinct (names : List Name) : Prop := (names.filterMap Name.text?).Nodup

/-- A table holds a list of names, the first with the number `n`. -/
structure Holding (fh : AtomHash) (n : ℕ) (names : List Name) : Prop where
  holds : Holds fh
  entries : mapOf fh = (nameEntries n names).reverse
  count : countOf fh = names.length

/-! ### Hashes -/

theorem njsAtomStringKey_lt (hash : UInt32) : (njsAtomStringKey hash).toNat < 2 ^ 31 := by
  rw [njsAtomStringKey, UInt32.toNat_and]
  exact Nat.lt_of_le_of_lt Nat.and_le_right (by decide)

theorem njsAtomSymbolKey_ofNat {n : ℕ} (hn : n < 2 ^ 31) :
    (njsAtomSymbolKey (UInt32.ofNat n)).toNat = n + 2 ^ 31 := by
  have hmod : (UInt32.ofNat n).toNat = n := by
    rw [UInt32.toNat_ofNat']
    omega
  have hor := Nat.two_pow_add_eq_or_of_lt hn 1
  rw [Nat.mul_one] at hor
  rw [njsAtomSymbolKey, UInt32.toNat_or, hmod, Nat.or_comm]
  change 2 ^ 31 ||| n = n + 2 ^ 31
  omega

theorem symbolKey_ne_stringKey {n : ℕ} (hn : n < 2 ^ 31) (hash : UInt32) :
    njsAtomSymbolKey (UInt32.ofNat n) ≠ njsAtomStringKey hash := by
  intro h
  have hlt := njsAtomStringKey_lt hash
  rw [← h, njsAtomSymbolKey_ofNat hn] at hlt
  omega

theorem njsAtomSymbolKey_inj {m n : ℕ} (hm : m < 2 ^ 31) (hn : n < 2 ^ 31)
    (h : njsAtomSymbolKey (UInt32.ofNat m) = njsAtomSymbolKey (UInt32.ofNat n)) : m = n := by
  have := congrArg UInt32.toNat h
  rw [njsAtomSymbolKey_ofNat hm, njsAtomSymbolKey_ofNat hn] at this
  omega

theorem njsAtomIsNumber_of_lt {n : ℕ} (hn : n < 2 ^ 31) : njsAtomIsNumber n = false := by
  have hand : n &&& 2 ^ 31 = 0 := by
    rw [Nat.and_two_pow, Nat.testBit_eq_false_of_lt hn]
    rfl
  rw [njsAtomIsNumber, decide_eq_false_iff_not, not_not]
  exact hand

theorem njsNumberAtom_eq {n : ℕ} (hn : n < 2 ^ 31) : njsNumberAtom n = n + 2 ^ 31 := by
  have hor := Nat.two_pow_add_eq_or_of_lt hn 1
  rw [Nat.mul_one] at hor
  have hbit : (0x80000000 : ℕ) = 2 ^ 31 := rfl
  rw [njsNumberAtom, hbit, Nat.or_comm, ← hor, Nat.add_comm]

theorem njsNumberAtom_spec {n : ℕ} (hn : n < 2 ^ 31) :
    njsAtomIsNumber (njsNumberAtom n) = true ∧ njsAtomNumber (njsNumberAtom n) = n := by
  have hbit : (0x80000000 : ℕ) = 2 ^ 31 := rfl
  have hmask : (0x7fffffff : ℕ) = 2 ^ 31 - 1 := rfl
  have htest : (n + 2 ^ 31).testBit 31 = true := by
    rw [Nat.testBit_eq_decide_div_mod_eq]
    have : (n + 2 ^ 31) / 2 ^ 31 % 2 = 1 := by omega
    exact decide_eq_true this
  rw [njsNumberAtom_eq hn]
  constructor
  · rw [njsAtomIsNumber, hbit, Nat.and_two_pow, htest]
    simp
  · rw [njsAtomNumber, hmask, Nat.and_two_pow_sub_one_eq_mod]
    omega

/-! ### Lists of names -/

theorem mem_nameEntries {n : ℕ} {names : List Name} {e : Entry (Option Bytes) Value} :
    e ∈ nameEntries n names ↔ ∃ (i : ℕ) (name : Name), names[i]? = some name ∧
      e = name.entry (n + i) := by
  rw [nameEntries, List.mem_map]
  constructor
  · rintro ⟨⟨name, k⟩, hmem, rfl⟩
    obtain ⟨hle, hlt, hname⟩ := List.mem_zipIdx hmem
    refine ⟨k - n, name, ?_, ?_⟩
    · rw [hname, List.getElem?_eq_getElem]
    · simp only
      congr 1
      omega
  · rintro ⟨i, name, hname, rfl⟩
    refine ⟨(name, n + i), ?_, rfl⟩
    rw [List.mem_iff_getElem?]
    exact ⟨i, by rw [List.getElem?_zipIdx, hname]; rfl⟩

theorem nameEntries_concat (n : ℕ) (names : List Name) (name : Name) :
    nameEntries n (names ++ [name]) = nameEntries n names ++ [name.entry (n + names.length)] := by
  simp [nameEntries, List.zipIdx_append]

theorem Distinct.getElem?_inj {names : List Name} (hd : Distinct names) {i j : ℕ} {s : Bytes}
    (hi : names[i]? = some (.string s)) (hj : names[j]? = some (.string s)) : i = j := by
  induction names generalizing i j with
  | nil => simp at hi
  | cons name names ih =>
    have hnot : ∀ k : ℕ, name = .string s → names[k]? ≠ some (Name.string s) := by
      rintro k rfl hk
      have hmem : s ∈ names.filterMap Name.text? :=
        List.mem_filterMap.mpr ⟨_, List.mem_of_getElem? hk, rfl⟩
      exact (List.nodup_cons.mp hd).1 hmem
    have htail : Distinct names := by
      cases name with
      | string t => exact (List.nodup_cons.mp hd).2
      | symbol d => exact hd
    rcases i with _ | i <;> rcases j with _ | j
    · rfl
    · exact absurd hj (hnot j (Option.some.inj hi))
    · exact absurd hi (hnot i (Option.some.inj hj))
    · rw [ih htail hi hj]

theorem Distinct.concat_string {names : List Name} (hd : Distinct names) {s : Bytes}
    (hs : Name.string s ∉ names) : Distinct (names ++ [.string s]) := by
  rw [Distinct, List.filterMap_append]
  refine List.Nodup.append hd (List.nodup_singleton s) ?_
  intro t ht hts
  obtain ⟨name, hmem, htext⟩ := List.mem_filterMap.mp ht
  cases name with
  | string u =>
    have hut : u = s := (Option.some.inj htext).trans (List.mem_singleton.mp hts)
    exact hs (hut ▸ hmem)
  | symbol d => cases htext

theorem Distinct.concat_symbol {names : List Name} (hd : Distinct names) (d : Option Bytes) :
    Distinct (names ++ [.symbol d]) := by
  rw [Distinct, List.filterMap_append, List.filterMap_cons_none rfl, List.filterMap_nil,
    List.append_nil]
  exact hd

theorem Distinct.take {names : List Name} (hd : Distinct names) (k : ℕ) : Distinct (names.take k) :=
  hd.sublist ((List.take_sublist k names).filterMap _)

theorem Distinct.drop {names : List Name} (hd : Distinct names) (k : ℕ) : Distinct (names.drop k) :=
  hd.sublist ((List.drop_sublist k names).filterMap _)

/-! ### One table -/

section Tables

variable {fh : AtomHash} {n : ℕ} {names : List Name}

theorem Holding.empty (n : ℕ) : Holding none n [] := ⟨trivial, rfl, rfl⟩

theorem Holding.insert (hh : Holding fh n names) (hcount : names.length < 2 ^ 26) (name : Name)
    {p : Elt (Option Bytes) Value → Bool} {q : Entry (Option Bytes) Value → Bool}
    (hp : ∀ e, p e = true → e.keyHash = (name.query (n + names.length)).keyHash)
    (hpq : ∀ e, p e = q e.entry)
    (hnew : ∀ (i : ℕ) (name' : Name), names[i]? = some name' → q (name'.entry (n + i)) = false)
    (junk : Junk) :
    ∃ h elt, insertElt p junk true (name.query (n + names.length)) fh = (some h, .ok, some elt) ∧
      Holding (some (h.store elt (name.query (n + names.length)).key
        (name.value (n + names.length)))) n (names ++ [name]) := by
  have hnone : (mapOf fh).find? q = none := by
    rw [List.find?_eq_none, hh.entries]
    intro e he
    obtain ⟨i, name', hname, rfl⟩ := mem_nameEntries.mp (List.mem_reverse.mp he)
    rw [hnew i name' hname]
    exact Bool.false_ne_true
  obtain ⟨h, elt, heq, hstore⟩ := insertElt_new hh.holds (hh.count ▸ hcount) hp hpq hnone junk
  obtain ⟨hholds, hmap, hc⟩ := hstore (name.query (n + names.length)).key
    (name.value (n + names.length))
  refine ⟨h, elt, heq, hholds, ?_, ?_⟩
  · rw [hmap, nameEntries_concat, List.reverse_append, hh.entries]
    rfl
  · rw [hc, hh.count, List.length_append, List.length_singleton]

theorem stringQuery_same_iff {s : Bytes} {i : ℕ} {name : Name} :
    (stringQuery s (njsDjbHash s)).same (name.entry i) = true ↔ name = .string s := by
  cases name with
  | string t =>
    simp only [Query.same, Name.entry, Name.query, Query.entry, stringQuery, Bool.and_eq_true,
      decide_eq_true_eq, Option.some.injEq, Name.string.injEq]
    refine ⟨fun h => h.2, fun h => ?_⟩
    subst h
    exact ⟨decide_eq_true rfl, rfl⟩
  | symbol d => simp [Query.same, Name.entry, Name.query, Query.entry, stringQuery, symbolQuery]

theorem stringQuery_test (s : Bytes) (hash : UInt32) (e : Elt (Option Bytes) Value) :
    (stringQuery s hash).test e = true → e.keyHash = (stringQuery s hash).keyHash := by
  intro h
  exact of_decide_eq_true (Bool.and_eq_true_iff.mp h).1

theorem Holding.insertString (hh : Holding fh n names) (hcount : names.length < 2 ^ 26)
    {s : Bytes} (hs : Name.string s ∉ names) (junk : Junk) :
    ∃ h elt, njsFlathshInsert junk true (stringQuery s (njsDjbHash s)) fh =
        (some h, .ok, some elt) ∧
      Holding (some (h.store elt (some s) (.string (n + names.length) s))) n
        (names ++ [.string s]) := by
  have hnew : ∀ (i : ℕ) (name : Name), names[i]? = some name →
      (stringQuery s (njsDjbHash s)).same (name.entry (n + i)) = false := by
    intro i name hi
    rw [← Bool.not_eq_true, stringQuery_same_iff]
    rintro rfl
    exact hs (List.mem_of_getElem? hi)
  exact hh.insert hcount (.string s) (stringQuery_test s (njsDjbHash s)) (fun _ => rfl)
    hnew junk

theorem Holding.insertSymbol (hh : Holding fh n names) (hcount : n + names.length < 2 ^ 26)
    (d : Option Bytes) (junk : Junk) :
    ∃ h elt, njsFlathshUniqueInsert junk true (symbolQuery (n + names.length)) fh =
        (some h, .ok, some elt) ∧
      Holding (some (h.store elt none (.symbol (n + names.length) d))) n
        (names ++ [.symbol d]) := by
  have hnew : ∀ (i : ℕ) (name : Name), names[i]? = some name →
      (symbolQuery (n + names.length)).sameHash (name.entry (n + i)) = false := by
    intro i name hi
    have hlt : i < names.length := (List.getElem?_eq_some_iff.mp hi).1
    refine decide_eq_false fun hhash => ?_
    cases name with
    | string s => exact symbolKey_ne_stringKey (by omega) _ hhash.symm
    | symbol d' =>
      have := njsAtomSymbolKey_inj (by omega) (by omega) hhash
      omega
  exact hh.insert (by omega) (.symbol d) (fun e he => of_decide_eq_true he)
    (fun _ => rfl) hnew junk

theorem Holding.find_some (hh : Holding fh n names) (hd : Distinct names) {s : Bytes} {i : ℕ}
    (hi : names[i]? = some (.string s)) :
    (njsFlathshFind (stringQuery s (njsDjbHash s)) fh).map Elt.value =
      some (.string (n + i) s) := by
  have hfind := findElt_eq (q := (stringQuery s (njsDjbHash s)).same) hh.holds
    (stringQuery_test s _) fun _ => rfl
  have hentry : (mapOf fh).find? (stringQuery s (njsDjbHash s)).same =
      some ((Name.string s).entry (n + i)) := by
    cases hres : (mapOf fh).find? (stringQuery s (njsDjbHash s)).same with
    | none =>
      have hmem : (Name.string s).entry (n + i) ∈ mapOf fh := by
        rw [hh.entries, List.mem_reverse]
        exact mem_nameEntries.mpr ⟨i, _, hi, rfl⟩
      exact absurd (stringQuery_same_iff.mpr rfl) (List.find?_eq_none.mp hres _ hmem)
    | some e =>
      have hmem := List.mem_of_find?_eq_some hres
      rw [hh.entries, List.mem_reverse] at hmem
      obtain ⟨j, name, hj, rfl⟩ := mem_nameEntries.mp hmem
      obtain rfl := stringQuery_same_iff.mp (List.find?_some hres)
      rw [hd.getElem?_inj hj hi]
  rw [hentry, Option.map_eq_some_iff] at hfind
  obtain ⟨elt, helt, heq⟩ := hfind
  rw [njsFlathshFind, helt, Option.map_some]
  exact congrArg (fun e => some e.value) heq

theorem Holding.find_none (hh : Holding fh n names) {s : Bytes} (hs : Name.string s ∉ names) :
    njsFlathshFind (stringQuery s (njsDjbHash s)) fh = none := by
  have hfind := findElt_eq (q := (stringQuery s (njsDjbHash s)).same) hh.holds
    (stringQuery_test s _) fun _ => rfl
  have hentry : (mapOf fh).find? (stringQuery s (njsDjbHash s)).same = none := by
    rw [List.find?_eq_none, hh.entries]
    intro e he hsame
    obtain ⟨i, name, hi, rfl⟩ := mem_nameEntries.mp (List.mem_reverse.mp he)
    obtain rfl := stringQuery_same_iff.mp hsame
    exact hs (List.mem_of_getElem? hi)
  rw [hentry, Option.map_eq_none_iff] at hfind
  exact hfind

theorem Holding.eltValue (hh : Holding fh n names) {i : ℕ} {name : Name}
    (hi : names[i]? = some name) : eltValue fh i = some (name.value (n + i)) := by
  have hlt : i < names.length := (List.getElem?_eq_some_iff.mp hi).1
  have hc := hh.count
  match fh, hh with
  | none, _ => exact absurd hlt (by simp only [countOf] at hc; omega)
  | some h, hh =>
    have hent := hh.entries
    have hlen : (FlatHash.entries h).length = h.eltsCount := by
      have : (mapOf (some h)).length = names.length := by
        rw [hent, List.length_reverse, nameEntries, List.length_map, List.length_zipIdx]
      exact this.trans hc.symm
    -- No element is free, as there are as many entries as elements.
    have hlive : liveElts h.elts h.eltsCount = below h.eltsCount := by
      rw [FlatHash.entries, eltEntries, List.length_map] at hlen
      refine List.filter_eq_self.mpr (List.length_filter_eq_length_iff.mp ?_)
      rw [length_below]
      exact hlen
    have hrev : (mapOf (some h)).reverse = (List.range h.eltsCount).map fun j =>
        (h.elts j).entry := by
      change (FlatHash.entries h).reverse = _
      rw [FlatHash.entries, eltEntries, hlive, ← List.map_reverse, reverse_below]
    have hget := congrArg (fun l => l[i]?) hrev
    rw [hent, List.reverse_reverse] at hget
    simp only [nameEntries, List.getElem?_map, List.getElem?_zipIdx, hi, Option.map_some] at hget
    have hcount : i < h.eltsCount := by
      simp only [countOf] at hc
      omega
    rw [List.getElem?_range hcount, Option.map_some, Option.some.injEq] at hget
    rw [Atom.eltValue]
    simp only [if_pos hcount]
    exact congrArg (fun e => some e.value) hget.symm

end Tables

/-! ### A machine -/

/-- The names that a machine holds: those of the shared table first. -/
structure Represents (vm : Vm) (names : List Name) : Prop where
  distinct : Distinct names
  generator : vm.atomIdGenerator = names.length
  shared_le : vm.sharedAtomCount ≤ names.length
  current : Holding vm.current vm.sharedAtomCount (names.drop vm.sharedAtomCount)
  shared :
    match vm.atomHashCurrent with
    | .shared => vm.sharedAtomCount = 0
    | .own => Holding vm.atomHashShared 0 (names.take vm.sharedAtomCount)

def intern (names : List Name) (s : Bytes) : List Name × ℕ :=
  match names.idxOf? (.string s) with
  | some i => (names, i)
  | none => (names ++ [.string s], names.length)

section Machines

variable {vm : Vm} {names : List Name}

@[simp] theorem Vm.setCurrent_current (vm : Vm) (fh : AtomHash) :
    (vm.setCurrent fh).current = fh := by
  rw [Vm.setCurrent, Vm.current]
  cases vm.atomHashCurrent <;> simp only

@[simp] theorem Vm.setCurrent_sharedAtomCount (vm : Vm) (fh : AtomHash) :
    (vm.setCurrent fh).sharedAtomCount = vm.sharedAtomCount := by
  rw [Vm.setCurrent]
  split <;> rfl

@[simp] theorem Vm.setCurrent_atomIdGenerator (vm : Vm) (fh : AtomHash) :
    (vm.setCurrent fh).atomIdGenerator = vm.atomIdGenerator := by
  rw [Vm.setCurrent]
  split <;> rfl

theorem Represents.add (hr : Represents vm names) (hcount : names.length < 2 ^ 26) {name : Name}
    (hd : Distinct (names ++ [name])) {fh : AtomHash}
    (hh : Holding fh vm.sharedAtomCount (names.drop vm.sharedAtomCount ++ [name])) :
    Represents (vm.setCurrent fh).advance (names ++ [name]) where
  distinct := hd
  generator := by
    rw [Vm.advance, Vm.setCurrent_atomIdGenerator, hr.generator, List.length_append,
      List.length_singleton]
    exact Nat.mod_eq_of_lt (by omega)
  shared_le := by
    change (vm.setCurrent fh).sharedAtomCount ≤ _
    rw [Vm.setCurrent_sharedAtomCount, List.length_append]
    exact hr.shared_le.trans (Nat.le_add_right _ _)
  current := by
    change Holding (vm.setCurrent fh).current (vm.setCurrent fh).sharedAtomCount _
    rw [Vm.setCurrent_current]
    simp only [Vm.advance, Vm.setCurrent_sharedAtomCount]
    rw [List.drop_append_of_le_length hr.shared_le]
    exact hh
  shared := by
    have hshared := hr.shared
    simp only [Vm.advance, Vm.setCurrent]
    cases hcur : vm.atomHashCurrent with
    | shared =>
      rw [hcur] at hshared
      exact hshared
    | own =>
      rw [hcur] at hshared
      simp only
      rw [List.take_append_of_le_length hr.shared_le]
      exact hshared

theorem Represents.length_drop (hr : Represents vm names) :
    vm.sharedAtomCount + (names.drop vm.sharedAtomCount).length = names.length := by
  have := hr.shared_le
  rw [List.length_drop]
  omega

theorem Represents.find_some (hr : Represents vm names) {s : Bytes} {i : ℕ}
    (hi : names[i]? = some (.string s)) :
    njsAtomFind vm s (njsDjbHash s) = some (.string i s) := by
  rw [njsAtomFind]
  by_cases hle : vm.sharedAtomCount ≤ i
  · have hdrop : (names.drop vm.sharedAtomCount)[i - vm.sharedAtomCount]? = some (.string s) := by
      rw [List.getElem?_drop, Nat.add_sub_cancel' hle, hi]
    have hfind := hr.current.find_some (hr.distinct.drop _) hdrop
    rw [Nat.add_sub_cancel' hle] at hfind
    obtain ⟨elt, helt, hvalue⟩ := Option.map_eq_some_iff.mp hfind
    rw [helt]
    exact congrArg some hvalue
  -- The string is in the shared table, and only there.
  have hnot : Name.string s ∉ names.drop vm.sharedAtomCount := by
    intro hmem
    obtain ⟨j, hj⟩ := List.mem_iff_getElem?.mp hmem
    rw [List.getElem?_drop] at hj
    have := hr.distinct.getElem?_inj hi hj
    omega
  have hshared := hr.shared
  rw [hr.current.find_none hnot]
  cases hcur : vm.atomHashCurrent with
  | shared =>
    rw [hcur] at hshared
    simp only at hshared
    omega
  | own =>
    rw [hcur] at hshared
    have htake : (names.take vm.sharedAtomCount)[i]? = some (.string s) := by
      rw [List.getElem?_take_of_lt (by omega), hi]
    have hfind := Holding.find_some hshared (hr.distinct.take _) htake
    rw [Nat.zero_add] at hfind
    exact hfind

theorem Represents.find_none (hr : Represents vm names) {s : Bytes}
    (hs : Name.string s ∉ names) : njsAtomFind vm s (njsDjbHash s) = none := by
  have hdrop : Name.string s ∉ names.drop vm.sharedAtomCount := fun h =>
    hs (List.mem_of_mem_drop h)
  have hcurrent := hr.current.find_none hdrop
  have hshared := hr.shared
  rw [njsAtomFind, hcurrent]
  cases hcur : vm.atomHashCurrent with
  | shared =>
    rw [Vm.current, hcur] at hcurrent
    rw [hcurrent]
    rfl
  | own =>
    rw [hcur] at hshared
    rw [Holding.find_none hshared fun h => hs (List.mem_of_mem_take h)]
    rfl

/-- `njs_atom_add` of a string that is not there. -/
theorem Represents.atomAdd (hr : Represents vm names) (hcount : names.length < 2 ^ 26)
    (junk : Junk) {s : Bytes} (hs : Name.string s ∉ names) :
    ∃ vm', njsAtomAdd true junk vm s (njsDjbHash s) = (vm', some (.string names.length s)) ∧
      Represents vm' (names ++ [.string s]) ∧ vm'.atomHashCurrent = vm.atomHashCurrent := by
  have hlen := hr.length_drop
  obtain ⟨h, elt, heq, hh⟩ := hr.current.insertString (by omega)
    (fun hmem => hs (List.mem_of_mem_drop hmem)) junk
  have hsmall := njsAtomIsNumber_of_lt (n := names.length) (by omega)
  rw [hlen] at hh
  refine ⟨(vm.setCurrent (some (h.store elt (some s) (.string names.length s)))).advance, ?_,
    hr.add hcount (hr.distinct.concat_string hs) hh, ?_⟩
  · rw [njsAtomAdd, heq, hr.generator]
    simp only [hsmall, Bool.false_eq_true, if_false]
  · rw [Vm.advance, Vm.setCurrent]
    split <;> rfl

/-- `njs_atom_find` and `njs_atom_add` together intern a string. -/
theorem Represents.atomizeString (hr : Represents vm names) (hcount : names.length < 2 ^ 26)
    (junk : Junk) (s : Bytes) :
    ∃ vm', Atom.atomizeString true junk vm s = (vm', some (intern names s).2) ∧
      Represents vm' (intern names s).1 ∧ vm'.atomHashCurrent = vm.atomHashCurrent := by
  rw [intern, Atom.atomizeString]
  cases hidx : names.idxOf? (.string s) with
  | some i =>
    have hi : names[i]? = some (.string s) := by
      obtain ⟨hlt, heq, -⟩ := List.idxOf?_eq_some_iff.mp hidx
      rw [List.getElem?_eq_getElem hlt, heq]
    rw [hr.find_some hi]
    exact ⟨vm, rfl, hr, rfl⟩
  | none =>
    have hs : Name.string s ∉ names := List.idxOf?_eq_none_iff.mp hidx
    obtain ⟨vm', heq, hr', hcur⟩ := hr.atomAdd hcount junk hs
    rw [hr.find_none hs, heq]
    exact ⟨vm', rfl, hr', hcur⟩

theorem Represents.symbolAdd (hr : Represents vm names) (hcount : names.length < 2 ^ 26)
    (junk : Junk) (d : Option Bytes) :
    ∃ vm', njsAtomSymbolAdd true junk vm d = (vm', some names.length) ∧
      Represents vm' (names ++ [.symbol d]) ∧ vm'.atomHashCurrent = vm.atomHashCurrent := by
  have hlen := hr.length_drop
  obtain ⟨h, elt, heq, hh⟩ := hr.current.insertSymbol (by omega) d junk
  rw [hlen] at heq hh
  have hadvance : vm.advance.atomIdGenerator = names.length + 1 := by
    change (vm.atomIdGenerator + 1) % 2 ^ 32 = _
    rw [hr.generator]
    omega
  refine ⟨(vm.setCurrent (some (h.store elt none (.symbol names.length d)))).advance, ?_,
    hr.add hcount (hr.distinct.concat_symbol d) hh, ?_⟩
  · rw [njsAtomSymbolAdd, hadvance, hr.generator, heq]
    simp only
    rw [if_neg (by omega)]
  · rw [Vm.advance, Vm.setCurrent]
    split <;> rfl

theorem Represents.clone (hr : Represents vm names) (hcur : vm.atomHashCurrent = .shared) :
    Represents (njsVmClone vm) names where
  distinct := hr.distinct
  generator := hr.generator
  shared_le := hr.generator.le
  current := by
    change Holding none vm.atomIdGenerator (names.drop vm.atomIdGenerator)
    rw [hr.generator, List.drop_length]
    exact Holding.empty _
  shared := by
    have hzero := hr.shared
    have hcurrent := hr.current
    rw [hcur] at hzero
    rw [Vm.current, hcur, hzero, List.drop_zero] at hcurrent
    change Holding vm.atomHashShared 0 (names.take vm.atomIdGenerator)
    rw [hr.generator, List.take_length]
    exact hcurrent

theorem Represents.toValue {ν : Type} (f : Numbers ν) (hr : Represents vm names)
    (hcount : names.length ≤ 2 ^ 26) {i : ℕ} {name : Name} (hi : names[i]? = some name) :
    njsAtomToValue f vm i = some (name.value i) := by
  have hlt : i < names.length := (List.getElem?_eq_some_iff.mp hi).1
  rw [njsAtomToValue, njsAtomIsNumber_of_lt (by omega), if_neg Bool.false_ne_true]
  by_cases hle : vm.sharedAtomCount ≤ i
  · have hdrop : (names.drop vm.sharedAtomCount)[i - vm.sharedAtomCount]? = some name := by
      rw [List.getElem?_drop, Nat.add_sub_cancel' hle, hi]
    have hvalue := hr.current.eltValue hdrop
    rw [Nat.add_sub_cancel' hle] at hvalue
    rw [if_neg (by omega), hvalue]
  have hshared := hr.shared
  rw [if_pos (by omega)]
  cases hcur : vm.atomHashCurrent with
  | shared =>
    rw [hcur] at hshared
    simp only at hshared
    omega
  | own =>
    rw [hcur] at hshared
    have htake : (names.take vm.sharedAtomCount)[i]? = some name := by
      rw [List.getElem?_take_of_lt (by omega), hi]
    have hvalue := Holding.eltValue hshared htake
    rwa [Nat.zero_add] at hvalue

end Machines

/-! ### A new machine -/

/-- A predefined atom. -/
def Def.name : Def → Name
  | .string s => .string s
  | .symbol description => .symbol (some description)

theorem distinct_njsAtom : Distinct (njsAtom.map Def.name) := by
  have htext : (njsAtom.map Def.name).filterMap Name.text? = njsAtom.filterMap Def.text? := by
    rw [List.filterMap_map]
    refine List.filterMap_congr fun d _ => ?_
    cases d <;> rfl
  rw [Distinct, htext]
  exact nodup_njsAtom

theorem hashInitStep_holding {fh : AtomHash} {names : List Name} (hh : Holding fh 0 names)
    (hcount : names.length < 2 ^ 26) (junk : Junk) {d : Def}
    (hd : Distinct (names ++ [d.name])) :
    ∃ fh', hashInitStep true junk fh names.length d = some fh' ∧
      Holding fh' 0 (names ++ [d.name]) := by
  cases d with
  | symbol description =>
    obtain ⟨h, elt, heq, hh'⟩ := hh.insertSymbol (by omega) (some description) junk
    rw [Nat.zero_add] at heq hh'
    refine ⟨_, ?_, hh'⟩
    rw [hashInitStep, heq]
  | string s =>
    have hs : Name.string s ∉ names := by
      intro hmem
      rw [Distinct, List.filterMap_append] at hd
      exact (List.nodup_append.mp hd).2.2 s (List.mem_filterMap.mpr ⟨_, hmem, rfl⟩) s
        (List.mem_singleton_self s) rfl
    obtain ⟨h, elt, heq, hh'⟩ := hh.insertString hcount hs junk
    rw [Nat.zero_add] at hh'
    refine ⟨_, ?_, hh'⟩
    rw [hashInitStep, heq]

theorem hashInitLoop_holding (junk : Junk) (defs : List Def) :
    ∀ {fh : AtomHash} {names : List Name}, Holding fh 0 names →
      names.length + defs.length < 2 ^ 26 → Distinct (names ++ defs.map Def.name) →
      ∃ fh', hashInitLoop true junk names.length defs fh = some fh' ∧
        Holding fh' 0 (names ++ defs.map Def.name) := by
  induction defs with
  | nil =>
    intro fh names hh hcount hd
    exact ⟨fh, rfl, by simpa using hh⟩
  | cons d defs ih =>
    intro fh names hh hcount hd
    have happ : names ++ (d :: defs).map Def.name =
        names ++ [d.name] ++ defs.map Def.name := by simp
    rw [List.length_cons] at hcount
    rw [happ] at hd ⊢
    obtain ⟨fh₁, heq₁, hh₁⟩ := hashInitStep_holding hh (by omega) junk
      (hd.sublist ((List.sublist_append_left _ _).filterMap _))
    obtain ⟨fh₂, heq₂, hh₂⟩ := ih hh₁ (by simp; omega) hd
    rw [List.length_append, List.length_singleton] at heq₂
    refine ⟨fh₂, ?_, hh₂⟩
    rw [hashInitLoop, heq₁]
    exact heq₂

theorem hashInit_represents (junk : Junk) :
    ∃ vm, njsAtomHashInit true junk = some vm ∧ Represents vm (njsAtom.map Def.name) ∧
      vm.atomHashCurrent = .shared := by
  obtain ⟨fh, heq, hh⟩ := hashInitLoop_holding junk njsAtom (Holding.empty 0)
    (by rw [length_njsAtom]; decide) distinct_njsAtom
  rw [List.nil_append] at hh
  refine ⟨_, by rw [njsAtomHashInit]; exact congrArg (Option.map _) heq, ?_, rfl⟩
  exact ⟨distinct_njsAtom, by simp [njsAtomSize], Nat.zero_le _, hh, rfl⟩

end Njs.Atom
