import Njs.FlatHash.Invariant

/-!
# The flat hash as a map in the order of insertion

A map is the list of its entries, the latest first. An insertion with a new key puts an entry at
the head, an insertion that replaces leaves the entry at its place, and a deletion takes one out.
`njs_flathsh_unique_insert` tells entries apart by their hashes alone, the other operations by
hashes and keys.
-/

namespace Njs.FlatHash

open IndexChain FirstMatch

variable {κ ν : Type}

/-! ### The map -/

/-- The insertion of an entry; `p` tells which entries it may replace. -/
def insertEntry (p : Entry κ ν → Bool) (replace : Bool) (new : Entry κ ν)
    (l : List (Entry κ ν)) : List (Entry κ ν) × Rc :=
  if (l.find? p).isSome then if replace then (replaceP p new l, .ok) else (l, .declined)
  else (new :: l, .ok)

def deleteEntry (p : Entry κ ν → Bool) (l : List (Entry κ ν)) : List (Entry κ ν) × Rc :=
  if (l.find? p).isSome then (l.eraseP p, .ok) else (l, .declined)

def Query.same [DecidableEq κ] (fhq : Query κ) (e : Entry κ ν) : Bool :=
  e.keyHash = fhq.keyHash && e.key = fhq.key

def Query.sameHash (fhq : Query κ) (e : Entry κ ν) : Bool := e.keyHash = fhq.keyHash

def Query.entry (fhq : Query κ) (value : ν) : Entry κ ν where
  keyHash := fhq.keyHash
  key := fhq.key
  value := value

/-! ### Calls -/

/-- The calls, those of insertion with the value that the caller writes into its element. -/
inductive Call (κ ν : Type)
  | insert (fhq : Query κ) (value : ν)
  | uniqueInsert (fhq : Query κ) (value : ν)
  | find (fhq : Query κ)
  | delete (fhq : Query κ)

/-- The code that a call returns, and the entry that it finds. -/
abbrev Answer (κ ν : Type) : Type := Rc × Option (Entry κ ν)

/-- A call, whether a request for memory is served, and what the new memory holds. -/
structure Step (κ ν : Type) where
  call : Call κ ν
  mem : Bool
  junk : ℕ → Elt κ ν

/-- The caller of an insertion writes into the element that it gets. -/
def writeElt (fhq : Query κ) (value : ν) : Flathsh κ ν × Rc × Option ℕ → Flathsh κ ν × Answer κ ν
  | (some h, rc, some elt) => (some (h.store elt fhq.key value), rc, none)
  | (fh, rc, _) => (fh, rc, none)

/-- The code of a search. -/
def foundRc (e : Option (Entry κ ν)) : Answer κ ν := (if e.isSome then .ok else .declined, e)

section Runs

variable [DecidableEq κ]

/-- What a call does to a flat hash. -/
def Step.run (s : Step κ ν) (fh : Flathsh κ ν) : Flathsh κ ν × Answer κ ν :=
  match s.call with
  | .insert fhq value => writeElt fhq value (njsFlathshInsert s.junk s.mem fhq fh)
  | .uniqueInsert fhq value => writeElt fhq value (njsFlathshUniqueInsert s.junk s.mem fhq fh)
  | .find fhq => (fh, foundRc ((njsFlathshFind fhq fh).map Elt.entry))
  | .delete fhq =>
    let (fh, rc) := njsFlathshDelete s.mem fhq fh
    (fh, rc, none)

def Call.spec (c : Call κ ν) (l : List (Entry κ ν)) : List (Entry κ ν) × Answer κ ν :=
  match c with
  | .insert fhq value =>
    let (l, rc) := insertEntry fhq.same fhq.replace (fhq.entry value) l
    (l, rc, none)
  | .uniqueInsert fhq value =>
    let (l, rc) := insertEntry fhq.sameHash fhq.replace (fhq.entry value) l
    (l, rc, none)
  | .find fhq => (l, foundRc (l.find? fhq.same))
  | .delete fhq =>
    let (l, rc) := deleteEntry fhq.same l
    (l, rc, none)

/-- A run: the hash that it leaves, and the answers. -/
def run : List (Step κ ν) → Flathsh κ ν → Flathsh κ ν × List (Answer κ ν)
  | [], fh => (fh, [])
  | s :: steps, fh => ((run steps (s.run fh).1).1, (s.run fh).2 :: (run steps (s.run fh).1).2)

/-- A run of the same calls on a map. -/
def specRun : List (Step κ ν) → List (Entry κ ν) → List (Entry κ ν) × List (Answer κ ν)
  | [], l => (l, [])
  | s :: steps, l =>
    ((specRun steps (s.call.spec l).1).1, (s.call.spec l).2 :: (specRun steps (s.call.spec l).1).2)

/-- A condition on a step and the hash before it holds at every step of a run. -/
def Always (P : Step κ ν → Flathsh κ ν → Prop) : List (Step κ ν) → Flathsh κ ν → Prop
  | [], _ => True
  | s :: steps, fh => P s fh ∧ Always P steps (s.run fh).1

instance Always.decidable {P : Step κ ν → Flathsh κ ν → Prop} [∀ s fh, Decidable (P s fh)] :
    ∀ steps fh, Decidable (Always P steps fh)
  | [], _ => inferInstanceAs (Decidable True)
  | _ :: steps, _ => @instDecidableAnd _ _ _ (Always.decidable steps _)

end Runs

/-- `elts_count` of a hash. -/
def countOf : Flathsh κ ν → ℕ
  | none => 0
  | some h => h.eltsCount

/-- What a hash holds, the latest entry first. -/
def mapOf : Flathsh κ ν → List (Entry κ ν)
  | none => []
  | some h => entries h

/-- The invariant of a hash. -/
def Holds : Flathsh κ ν → Prop
  | none => True
  | some h => Inv h

/-! ### One operation -/

theorem inv_new (junk : ℕ → Elt κ ν) : Inv (njsFlathshNew junk) where
  linked _ := .nil
  deleted := rfl
  count_le := Nat.zero_le _
  two_le := le_rfl
  size_le := (by decide : 2 ≤ 2 ^ 27)
  mask_lt := (by decide : 3 < 2 ^ 28)

theorem find?_entries (h : Descr κ ν) (q : Entry κ ν → Bool) : (entries h).find? q =
      ((liveElts h.elts h.eltsCount).find? fun i => q (h.elts i).entry).map fun i =>
        (h.elts i).entry :=
  List.find?_map

section Operations

variable {h : Descr κ ν} {fh : Flathsh κ ν} {fhq : Query κ} {p : Elt κ ν → Bool}
  {q : Entry κ ν → Bool}

theorem findElt_eq (hfh : Holds fh) (hp : ∀ e, p e = true → e.keyHash = fhq.keyHash)
    (hpq : ∀ e, p e = q e.entry) : (findElt p fhq fh).map Elt.entry = (mapOf fh).find? q := by
  match fh, hfh with
  | none, _ => rfl
  | some h, hi =>
    rw [findElt, mapOf, find?_entries]
    simp only [← hpq]
    obtain ⟨hs, hfind⟩ | ⟨eltPrev, elt, hs, hf⟩ := Inv.search_cases hi hp
    · rw [hs, hfind]
      rfl
    · rw [hs, hf.find]
      rfl

theorem insertElt_chunk (hi : Inv h) (hcount : h.eltsCount < 2 ^ 26)
    (hp : ∀ e, p e = true → e.keyHash = fhq.keyHash) (hpq : ∀ e, p e = q e.entry)
    (junk : ℕ → Elt κ ν) (value : ν) :
    let r := writeElt fhq value (insertElt p junk true fhq (some h))
    Holds r.1 ∧ (mapOf r.1, r.2.1) = insertEntry q fhq.replace (fhq.entry value) (entries h) ∧
      r.2.2 = none := by
  rw [insertElt, insertEntry, find?_entries]
  simp only [← hpq]
  obtain ⟨hs, hfind⟩ | ⟨eltPrev, elt, hs, hf⟩ := hi.search_cases hp
  · obtain ⟨h', hadd, hi', -, hent⟩ := hi.addElt hcount fhq
    rw [hs, hfind, hadd]
    exact ⟨hi'.store _ _ _, congrArg (·, Rc.ok) (hent fhq.key value), rfl⟩
  · rw [hs, hf.find]
    cases fhq.replace with
    | false => exact ⟨hi, rfl, rfl⟩
    | true => exact ⟨hi.store _ _ _, congrArg (·, Rc.ok) (hf.entries_store hpq hp _ _), rfl⟩

theorem insertElt_new (hfh : Holds fh) (hcount : countOf fh < 2 ^ 26)
    (hp : ∀ e, p e = true → e.keyHash = fhq.keyHash) (hpq : ∀ e, p e = q e.entry)
    (hnew : (mapOf fh).find? q = none) (junk : ℕ → Elt κ ν) :
    ∃ h elt, insertElt p junk true fhq fh = (some h, .ok, some elt) ∧ ∀ key value,
      Holds (some (h.store elt key value)) ∧
        mapOf (some (h.store elt key value)) = ⟨fhq.keyHash, key, value⟩ :: mapOf fh ∧
        countOf (some (h.store elt key value)) = countOf fh + 1 := by
  -- An empty hash gets a chunk first.
  obtain ⟨h, hi, hslot, hent, hc⟩ : ∃ h, Inv h ∧
      insertElt p junk true fhq fh = insertElt p junk true fhq (some h) ∧ entries h = mapOf fh ∧
        h.eltsCount = countOf fh := by
    match fh, hfh with
    | none, _ => exact ⟨njsFlathshNew junk, inv_new junk, rfl, rfl, rfl⟩
    | some h, hi => exact ⟨h, hi, rfl, rfl, rfl⟩
  rw [← hent, find?_entries] at hnew
  simp only [← hpq] at hnew
  obtain ⟨hs, -⟩ | ⟨eltPrev, elt, -, hf⟩ := hi.search_cases hp
  · obtain ⟨h', hadd, hi', hc', hent'⟩ := hi.addElt (hc ▸ hcount) fhq
    refine ⟨h', h.eltsCount, ?_, fun key value => ⟨hi'.store _ _ _, ?_, ?_⟩⟩
    · rw [hslot, insertElt]
      simp only [hs, hadd]
    · rw [← hent]
      exact hent' key value
    · rw [← hc]
      exact hc'
  · rw [hf.find] at hnew
    cases hnew

theorem insertElt_spec (hfh : Holds fh) (hcount : countOf fh < 2 ^ 26)
    (hp : ∀ e, p e = true → e.keyHash = fhq.keyHash) (hpq : ∀ e, p e = q e.entry)
    (junk : ℕ → Elt κ ν) (value : ν) :
    let r := writeElt fhq value (insertElt p junk true fhq fh)
    Holds r.1 ∧ (mapOf r.1, r.2.1) = insertEntry q fhq.replace (fhq.entry value) (mapOf fh) ∧
      r.2.2 = none := by
  match fh, hfh with
  | none, _ => exact insertElt_chunk (inv_new junk) (by decide : 0 < 2 ^ 26) hp hpq junk value
  | some h, hi => exact insertElt_chunk hi hcount hp hpq junk value

theorem njsFlathshDelete_spec [DecidableEq κ] (hfh : Holds fh) (hcount : countOf fh < 2 ^ 26)
    (fhq : Query κ) :
    Holds (njsFlathshDelete true fhq fh).1 ∧
      (mapOf (njsFlathshDelete true fhq fh).1, (njsFlathshDelete true fhq fh).2) =
        deleteEntry fhq.same (mapOf fh) := by
  match fh, hfh with
  | none, _ => exact ⟨trivial, rfl⟩
  | some h, hi =>
    have hp : ∀ e : Elt κ ν, fhq.test e = true → e.keyHash = fhq.keyHash := fun e he => by
      simpa using (Bool.and_eq_true_iff.mp he).1
    have hpq : ∀ e : Elt κ ν, fhq.test e = fhq.same e.entry := fun _ => rfl
    rw [njsFlathshDelete, deleteEntry, mapOf, find?_entries]
    simp only [← hpq]
    obtain ⟨hs, hfind⟩ | ⟨eltPrev, elt, hs, hf⟩ := Inv.search_cases hi hp
    · rw [hs, hfind]
      exact ⟨hi, rfl⟩
    rw [hs, hf.find]
    obtain ⟨hi₁, hc₁, hent₁⟩ := Inv.remove hi hpq hf
    simp only
    generalize freeElt elt (unlinkElt fhq eltPrev elt h) = u at hi₁ hc₁ hent₁
    -- Compaction, if there is one, keeps the entries.
    obtain ⟨h₂, heq, hi₂, hent₂⟩ : ∃ h₂,
        (if u.eltsDeletedCount ≥ 8 ∧ u.eltsDeletedCount ≥ u.eltsCount / 2 then
          njsShrinkElts true u else some u) = some h₂ ∧ Inv h₂ ∧ entries h₂ = entries u := by
      by_cases hmany : u.eltsDeletedCount ≥ 8 ∧ u.eltsDeletedCount ≥ u.eltsCount / 2
      · obtain ⟨h₂, heq, hi₂, hent₂, -⟩ := hi₁.shrink (hc₁.trans_lt hcount)
        exact ⟨h₂, by rw [if_pos hmany, heq], hi₂, hent₂⟩
      · exact ⟨u, by rw [if_neg hmany], hi₁, rfl⟩
    rw [heq]
    simp only [Option.map_some, Option.isSome_some, if_true]
    by_cases hempty : h₂.eltsDeletedCount = h₂.eltsCount
    · -- The chunk is freed when nothing is left.
      have hlen := hi₂.entries_length
      have hnil : entries h₂ = [] := List.length_eq_zero_iff.mp (by omega)
      rw [if_pos hempty]
      exact ⟨trivial, congrArg (·, Rc.ok) (hnil.symm.trans (hent₂.trans hent₁))⟩
    · rw [if_neg hempty]
      exact ⟨hi₂, congrArg (·, Rc.ok) (hent₂.trans hent₁)⟩

theorem njsFlathshDelete_count_le [DecidableEq κ] (hfh : Holds fh) (hcount : countOf fh < 2 ^ 26)
    (fhq : Query κ) : countOf (njsFlathshDelete true fhq fh).1 ≤ countOf fh := by
  match fh, hfh with
  | none, _ => exact le_rfl
  | some h, hi =>
    have hp : ∀ e : Elt κ ν, fhq.test e = true → e.keyHash = fhq.keyHash := fun e he => by
      simpa using (Bool.and_eq_true_iff.mp he).1
    have hpq : ∀ e : Elt κ ν, fhq.test e = fhq.same e.entry := fun _ => rfl
    rw [njsFlathshDelete]
    obtain ⟨hs, -⟩ | ⟨eltPrev, elt, hs, hf⟩ := Inv.search_cases hi hp
    · rw [hs]
    rw [hs]
    obtain ⟨hi₁, hc₁, -⟩ := Inv.remove hi hpq hf
    simp only
    generalize freeElt elt (unlinkElt fhq eltPrev elt h) = u at hi₁ hc₁
    obtain ⟨h₂, heq, hle⟩ : ∃ h₂,
        (if u.eltsDeletedCount ≥ 8 ∧ u.eltsDeletedCount ≥ u.eltsCount / 2 then
          njsShrinkElts true u else some u) = some h₂ ∧ h₂.eltsCount ≤ u.eltsCount := by
      by_cases hmany : u.eltsDeletedCount ≥ 8 ∧ u.eltsDeletedCount ≥ u.eltsCount / 2
      · obtain ⟨h₂, heq, -, -, hle⟩ := hi₁.shrink (hc₁.trans_lt hcount)
        exact ⟨h₂, by rw [if_pos hmany, heq], hle⟩
      · exact ⟨u, by rw [if_neg hmany], le_rfl⟩
    rw [heq]
    simp only
    split_ifs
    · exact Nat.zero_le _
    · exact hle.trans hc₁.le

end Operations

/-! ### Enumeration -/

/-- The entries that `njs_flathsh_each` returns from `cp` on, in so many calls at most. -/
def eachEntries (fh : Flathsh κ ν) : ℕ → ℕ → List (Entry κ ν)
  | 0, _ => []
  | rounds + 1, cp =>
    match fh, njsFlathshEach fh cp with
    | some h, some (elt, cp) => (h.elts elt).entry :: eachEntries fh rounds cp
    | _, _ => []

theorem eachEntries_succ (h : Descr κ ν) (rounds cp : ℕ) : eachEntries (some h) (rounds + 1) cp =
      match eachLoop h (h.eltsCount - cp) cp with
      | some (elt, cp) => (h.elts elt).entry :: eachEntries (some h) rounds cp
      | none => [] := by
  cases heq : eachLoop h (h.eltsCount - cp) cp with
  | none => simp [eachEntries, njsFlathshEach, heq]
  | some r => simp [eachEntries, njsFlathshEach, heq]

theorem eachEntries_from (h : Descr κ ν) (k : ℕ) : ∀ cp rounds, cp + k = h.eltsCount → k < rounds →
      eachEntries (some h) rounds cp =
        ((List.range' cp k).filter fun i => (h.elts i).live).map fun i => (h.elts i).entry := by
  induction k with
  | zero =>
    rintro cp (_ | rounds) hcp hlt
    · rfl
    · have hsub : h.eltsCount - cp = 0 := by omega
      rw [eachEntries_succ, hsub]
      rfl
  | succ k ih =>
    rintro cp (_ | rounds) hcp hlt
    · omega
    have hsub : h.eltsCount - cp = k + 1 := by omega
    have hsub' : h.eltsCount - (cp + 1) = k := by omega
    rw [List.range'_succ, eachEntries_succ, hsub, eachLoop]
    by_cases hlive : (h.elts cp).type ≠ .free
    · have hlive' : (h.elts cp).live = true := decide_eq_true hlive
      rw [if_pos hlive, List.filter_cons, if_pos hlive', List.map_cons,
        ← ih (cp + 1) rounds (by omega) (by omega)]
    · have hdead : ¬(h.elts cp).live = true := by simpa [Elt.live] using hlive
      rw [if_neg hlive, List.filter_cons, if_neg hdead,
        ← ih (cp + 1) (rounds + 1) (by omega) (by omega), eachEntries_succ, hsub']

theorem eachEntries_eq (fh : Flathsh κ ν) {rounds : ℕ} (hrounds : countOf fh < rounds) :
    eachEntries fh rounds 0 = (mapOf fh).reverse := by
  match fh, rounds with
  | _, 0 => omega
  | none, rounds + 1 => rfl
  | some h, rounds + 1 =>
    rw [eachEntries_from h h.eltsCount 0 _ (Nat.zero_add _) hrounds, ← List.range_eq_range',
      ← reverse_below, List.filter_reverse, List.map_reverse]
    rfl

/-! ### Runs -/

section Runs

variable [DecidableEq κ] {fh : Flathsh κ ν}

theorem Step.refines {s : Step κ ν} (hmem : s.mem = true) (hfh : Holds fh)
    (hcount : countOf fh < 2 ^ 26) :
    Holds (s.run fh).1 ∧ (mapOf (s.run fh).1, (s.run fh).2) = s.call.spec (mapOf fh) := by
  have htest : ∀ (fhq : Query κ) (e : Elt κ ν), fhq.test e = true → e.keyHash = fhq.keyHash :=
    fun fhq e he => by simpa using (Bool.and_eq_true_iff.mp he).1
  have hhash : ∀ (fhq : Query κ) (e : Elt κ ν), fhq.testHash e = true → e.keyHash = fhq.keyHash :=
    fun fhq e he => of_decide_eq_true he
  obtain ⟨call, mem, junk⟩ := s
  simp only at hmem
  subst hmem
  cases call with
  | insert fhq value =>
    obtain ⟨hi, heq, hnone⟩ :=
      insertElt_spec hfh hcount (q := fhq.same) (htest fhq) (fun _ => rfl) junk value
    exact ⟨hi, by simp only [Call.spec, ← heq, ← hnone]; rfl⟩
  | uniqueInsert fhq value =>
    obtain ⟨hi, heq, hnone⟩ :=
      insertElt_spec hfh hcount (q := fhq.sameHash) (hhash fhq) (fun _ => rfl) junk value
    exact ⟨hi, by simp only [Call.spec, ← heq, ← hnone]; rfl⟩
  | find fhq =>
    refine ⟨hfh, ?_⟩
    simp only [Step.run, Call.spec, njsFlathshFind]
    rw [findElt_eq (q := fhq.same) hfh (htest fhq) fun _ => rfl]
  | delete fhq =>
    obtain ⟨hi, heq⟩ := njsFlathshDelete_spec hfh hcount fhq
    exact ⟨hi, by simp only [Call.spec, ← heq]; rfl⟩

theorem run_refines (steps : List (Step κ ν)) :
    ∀ fh : Flathsh κ ν, Holds fh → countOf fh < 2 ^ 26 → (∀ s ∈ steps, s.mem = true) →
      Always (fun s fh => countOf (s.run fh).1 < 2 ^ 26) steps fh →
      Holds (run steps fh).1 ∧ (mapOf (run steps fh).1, (run steps fh).2) =
        specRun steps (mapOf fh) := by
  induction steps with
  | nil => exact fun fh hfh _ _ _ => ⟨hfh, rfl⟩
  | cons s steps ih =>
    intro fh hfh hcount hmem hfits
    obtain ⟨hfh₁, heq₁⟩ := Step.refines (hmem s List.mem_cons_self) hfh hcount
    obtain ⟨hfh₂, heq₂⟩ := ih _ hfh₁ hfits.1 (fun t ht => hmem t (List.mem_cons_of_mem s ht))
      hfits.2
    refine ⟨hfh₂, ?_⟩
    rw [specRun, ← heq₁]
    simp only
    rw [← heq₂]
    rfl

end Runs

end Njs.FlatHash

/-!
## What a key holds

A search for a key finds what the last insertion of the key has written, unless the key has been
deleted since. `njs_flathsh_unique_insert` is made for tables whose hashes tell the keys apart:
where it replaces the element of another key, that key is lost.
-/

namespace Njs.FlatHash

open FirstMatch

variable {κ ν : Type} [DecidableEq κ]

/-! ### Keys in a map -/

def Entry.id (e : Entry κ ν) : UInt32 × κ := (e.keyHash, e.key)

def Query.id (fhq : Query κ) : UInt32 × κ := (fhq.keyHash, fhq.key)

theorem Query.same_eq (fhq : Query κ) :
    (fhq.same : Entry κ ν → Bool) = fun e => decide (e.id = fhq.id) := by
  funext e
  simp only [Query.same, Entry.id, Query.id, Prod.mk.injEq]
  exact (Bool.decide_and _ _).symm

/-- No two entries have the same hash and key. -/
def Distinct (l : List (Entry κ ν)) : Prop := (l.map Entry.id).Nodup

def lookup (k : UInt32 × κ) (l : List (Entry κ ν)) : Option (Entry κ ν) :=
  l.find? fun e => e.id = k

section Map

variable {p : Entry κ ν → Bool} {l : List (Entry κ ν)}

theorem lookup_insertEntry (replace : Bool) (new : Entry κ ν) (hd : Distinct l)
    (hnone : l.find? p = none → lookup new.id l = none)
    (hsome : replace = true → ∀ e, l.find? p = some e → e.id = new.id) :
    Distinct (insertEntry p replace new l).1 ∧ ∀ k, lookup k (insertEntry p replace new l).1 =
        if (insertEntry p replace new l).2 = .ok ∧ new.id = k then some new else lookup k l := by
  rw [insertEntry]
  cases hfind : l.find? p with
  | none =>
    have hnew := hnone hfind
    rw [if_neg (by simp)]
    refine ⟨List.nodup_cons.mpr ⟨fun hmem => ?_, hd⟩, fun k => ?_⟩
    · obtain ⟨e, he, heq⟩ := List.mem_map.mp hmem
      exact List.find?_eq_none.mp hnew e he (decide_eq_true heq)
    · rw [lookup, List.find?_cons, lookup]
      by_cases hk : new.id = k
      · rw [if_pos ⟨rfl, hk⟩, decide_eq_true hk]
      · rw [if_neg fun h => hk h.2, decide_eq_false hk]
  | some e =>
    rw [if_pos (by rfl)]
    cases replace with
    | false => exact ⟨hd, fun k => by simp⟩
    | true =>
      have hid := (hsome rfl e hfind).symm
      refine ⟨nodup_replaceP hd hfind hid, fun k => ?_⟩
      rw [lookup, if_pos rfl, find?_replaceP hd hfind hid]
      simp only [true_and]
      rfl

theorem lookup_deleteEntry {k' : UInt32 × κ} (hd : Distinct l)
    (hp : p = fun e => decide (e.id = k')) :
    Distinct (deleteEntry p l).1 ∧ ∀ k, lookup k (deleteEntry p l).1 =
        if (deleteEntry p l).2 = .ok ∧ k' = k then none else lookup k l := by
  rw [deleteEntry]
  cases hfind : l.find? p with
  | none =>
    rw [if_neg (by simp)]
    exact ⟨hd, fun k => by simp⟩
  | some e =>
    have hid : e.id = k' := by
      have := List.find?_some hfind
      rw [hp] at this
      exact of_decide_eq_true this
    rw [if_pos (by rfl)]
    refine ⟨nodup_eraseP hd, fun k => ?_⟩
    rw [lookup, find?_eraseP hd hfind, hid]
    simp only [true_and]
    rfl

end Map

/-! ### The history of a run -/

/-- What a call and its answer say of a key of which the calls before say `e`. -/
def Query.after (fhq : Query κ) (e : Option (Entry κ ν)) :
    Call κ ν × Answer κ ν → Option (Entry κ ν)
  | (.insert q value, rc, _) | (.uniqueInsert q value, rc, _) =>
    if rc = .ok ∧ q.id = fhq.id then some (q.entry value) else e
  | (.delete q, rc, _) => if rc = .ok ∧ q.id = fhq.id then none else e
  | (.find _, _) => e

def history (steps : List (Step κ ν)) (fh : Flathsh κ ν) : List (Call κ ν × Answer κ ν) :=
  (steps.map Step.call).zip (run steps fh).2

/-- What the last insertion of a key that succeeded has written, if no deletion of the key has
succeeded since. -/
def lastWritten (fhq : Query κ) (calls : List (Call κ ν × Answer κ ν)) : Option (Entry κ ν) :=
  calls.foldl fhq.after none

/-- A unique insertion that may replace an element finds none of another key. -/
def OwnKey (s : Step κ ν) (fh : Flathsh κ ν) : Prop :=
  match s.call with
  | .uniqueInsert fhq _ =>
    fhq.replace = true → ∀ elt ∈ njsFlathshUniqueFind fhq fh, elt.key = fhq.key
  | _ => True

instance (s : Step κ ν) (fh : Flathsh κ ν) : Decidable (OwnKey s fh) :=
  match s with
  | ⟨.uniqueInsert fhq _, _, _⟩ =>
    inferInstanceAs (Decidable
      (fhq.replace = true → ∀ elt ∈ njsFlathshUniqueFind fhq fh, elt.key = fhq.key))
  | ⟨.insert _ _, _, _⟩ | ⟨.find _, _, _⟩ | ⟨.delete _, _, _⟩ => inferInstanceAs (Decidable True)

theorem Call.lookup_spec {c : Call κ ν} {l : List (Entry κ ν)} (hd : Distinct l)
    (hown : ∀ q value, c = .uniqueInsert q value → q.replace = true →
      ∀ e, l.find? q.sameHash = some e → e.key = q.key) :
    Distinct (c.spec l).1 ∧ ∀ fhq : Query κ, lookup fhq.id (c.spec l).1 =
        fhq.after (lookup fhq.id l) (c, (c.spec l).2) := by
  cases c with
  | insert q value =>
    have hsame : ∀ e, l.find? q.same = some e → e.id = q.id := fun e he => by
      have := List.find?_some he
      rw [q.same_eq] at this
      exact of_decide_eq_true this
    obtain ⟨hd', hl⟩ := lookup_insertEntry q.replace (q.entry value) hd
      (fun h => by rw [← h, q.same_eq]; rfl) fun _ => hsame
    exact ⟨hd', fun fhq => hl fhq.id⟩
  | uniqueInsert q value =>
    have hnone : l.find? q.sameHash = none → lookup q.id l = none := fun h => by
      rw [List.find?_eq_none] at h
      refine List.find?_eq_none.mpr fun e he hid => h e he (decide_eq_true ?_)
      exact congrArg Prod.fst (of_decide_eq_true hid)
    have hsame : q.replace = true → ∀ e, l.find? q.sameHash = some e → e.id = q.id :=
      fun hr e he => by
        have hhash : q.sameHash e = true := List.find?_some he
        exact Prod.ext (of_decide_eq_true hhash) (hown q value rfl hr e he)
    obtain ⟨hd', hl⟩ := lookup_insertEntry q.replace (q.entry value) hd hnone hsame
    exact ⟨hd', fun fhq => hl fhq.id⟩
  | find q => exact ⟨hd, fun fhq => rfl⟩
  | delete q =>
    obtain ⟨hd', hl⟩ := lookup_deleteEntry hd q.same_eq
    exact ⟨hd', fun fhq => hl fhq.id⟩

theorem lookup_run (steps : List (Step κ ν)) :
    ∀ fh : Flathsh κ ν, Holds fh → countOf fh < 2 ^ 26 → (∀ s ∈ steps, s.mem = true) →
      Always (fun s fh => countOf (s.run fh).1 < 2 ^ 26) steps fh → Always OwnKey steps fh →
      Distinct (mapOf fh) →
      Distinct (mapOf (run steps fh).1) ∧ ∀ fhq : Query κ, lookup fhq.id (mapOf (run steps fh).1) =
          (history steps fh).foldl fhq.after (lookup fhq.id (mapOf fh)) := by
  induction steps with
  | nil => exact fun fh _ _ _ _ _ hd => ⟨hd, fun _ => rfl⟩
  | cons s steps ih =>
    intro fh hfh hcount hmem hfits hown hd
    obtain ⟨hfh₁, heq₁⟩ := Step.refines (hmem s List.mem_cons_self) hfh hcount
    obtain ⟨hd₁, hl₁⟩ := Call.lookup_spec (c := s.call) hd fun q value hc hr e he => by
      have hfind : (njsFlathshUniqueFind q fh).map Elt.entry = (mapOf fh).find? q.sameHash :=
        findElt_eq hfh (fun e he => of_decide_eq_true he) fun _ => rfl
      rw [he, Option.map_eq_some_iff] at hfind
      obtain ⟨elt, helt, rfl⟩ := hfind
      have hs := hown.1
      rw [OwnKey, hc] at hs
      exact hs hr elt helt
    rw [← heq₁] at hd₁ hl₁
    obtain ⟨hd₂, hl₂⟩ := ih _ hfh₁ hfits.1 (fun t ht => hmem t (List.mem_cons_of_mem s ht)) hfits.2
      hown.2 hd₁
    refine ⟨hd₂, fun fhq => ?_⟩
    rw [run, hl₂, hl₁]
    rfl

/-! ### Runs from the empty hash -/

/-- A run from the empty hash answers as a map does, the enumeration lists the entries of the map
in the order of insertion, and a search finds what the map holds. If no unique insertion replaces
an element of another key, a search finds exactly what was written last and not deleted since. -/
theorem flathsh_refines (steps : List (Step κ ν)) (hmem : ∀ s ∈ steps, s.mem = true)
    (hfits : Always (fun s fh => countOf (s.run fh).1 < 2 ^ 26) steps none) :
    (run steps none).2 = (specRun steps []).2 ∧ (∀ rounds, countOf (run steps none).1 < rounds →
        eachEntries (run steps none).1 rounds 0 = (specRun steps []).1.reverse) ∧
      (∀ fhq : Query κ, (njsFlathshFind fhq (run steps none).1).map Elt.entry =
        (specRun steps []).1.find? fhq.same) ∧
      (Always OwnKey steps none → ((specRun steps []).1.map Entry.id).Nodup ∧
          ∀ fhq : Query κ, (njsFlathshFind fhq (run steps none).1).map Elt.entry =
            lastWritten fhq (history steps none)) := by
  obtain ⟨hfh, heq⟩ := run_refines steps none trivial (by decide : 0 < 2 ^ 26) hmem hfits
  rw [← show (mapOf (run steps none).1, (run steps none).2) = specRun steps [] from heq]
  have hfind : ∀ fhq : Query κ, (njsFlathshFind fhq (run steps none).1).map Elt.entry =
      (mapOf (run steps none).1).find? fhq.same := fun fhq =>
    findElt_eq hfh (fun e he => by simpa using (Bool.and_eq_true_iff.mp he).1) fun _ => rfl
  refine ⟨rfl, fun rounds hrounds => eachEntries_eq _ hrounds, hfind, fun hown => ?_⟩
  obtain ⟨hd, hl⟩ := lookup_run steps none trivial (by decide : 0 < 2 ^ 26) hmem hfits hown
    List.nodup_nil
  refine ⟨hd, fun fhq => ?_⟩
  rw [hfind, fhq.same_eq]
  exact hl fhq

def zeroElts (_ : ℕ) : Elt ℕ ℕ := ⟨0, .free, 0, 0, 0⟩

/-- Two keys with one hash, the second of them deleted again. -/
def collisionSteps : List (Step ℕ ℕ) :=
  [⟨.insert ⟨5, 1, false⟩ 10, true, zeroElts⟩, ⟨.insert ⟨5, 2, false⟩ 20, true, zeroElts⟩,
    ⟨.uniqueInsert ⟨9, 3, true⟩ 30, true, zeroElts⟩, ⟨.delete ⟨5, 2, false⟩, true, zeroElts⟩]

theorem flathsh_refines_collision :
    eachEntries (run collisionSteps none).1 4 0 = [⟨5, 1, 10⟩, ⟨9, 3, 30⟩] ∧
      ∀ fhq : Query ℕ, (njsFlathshFind fhq (run collisionSteps none).1).map Elt.entry =
        lastWritten fhq (history collisionSteps none) := by
  obtain ⟨-, heach, -, hkeys⟩ := flathsh_refines collisionSteps (by decide) (by decide)
  exact ⟨(heach 4 (by decide)).trans (by decide), (hkeys (by decide)).2⟩

/-- A unique insertion that replaces takes the element of another key with the hash. -/
theorem flathsh_not_refines : ¬∀ steps : List (Step ℕ ℕ), (∀ s ∈ steps, s.mem = true) →
      Always (fun s fh => countOf (s.run fh).1 < 2 ^ 26) steps none →
      ∀ fhq : Query ℕ, (njsFlathshFind fhq (run steps none).1).map Elt.entry =
        lastWritten fhq (history steps none) := by
  intro h
  have := h [⟨.insert ⟨5, 1, false⟩ 10, true, zeroElts⟩,
    ⟨.uniqueInsert ⟨5, 2, true⟩ 20, true, zeroElts⟩] (by decide) (by decide) ⟨5, 1, false⟩
  exact absurd this (by decide)

end Njs.FlatHash
