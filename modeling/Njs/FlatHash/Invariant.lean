import Njs.FlatHash.Table
import Njs.Lib.FirstMatch
import Mathlib.Order.Nat

/-!
# The invariant of a flat hash

Every cell is the head of a list of exactly those elements that are not deleted and belong to the
cell, the latest first. Deleted elements keep their links, and nothing leads to them.
-/

namespace Njs.FlatHash

open IndexChain FirstMatch

variable {κ ν : Type} {h h' : Descr κ ν}

/-- What an element holds for its users. -/
structure Entry (κ ν : Type) where
  keyHash : UInt32
  key : κ
  value : ν
  deriving DecidableEq

def Elt.entry (e : Elt κ ν) : Entry κ ν where
  keyHash := e.keyHash
  key := e.key
  value := e.value

/-- An element that is not deleted. -/
def Elt.live (e : Elt κ ν) : Bool := e.type ≠ .free

/-- The elements that are not deleted, the latest first. -/
def liveElts (elts : ℕ → Elt κ ν) (n : ℕ) : List ℕ :=
  (below n).filter fun i => (elts i).live

/-- The elements of a cell that are not deleted, the latest first. -/
def bucket (hashMask : ℕ) (elts : ℕ → Elt κ ν) (n cell : ℕ) : List ℕ :=
  (below n).filter fun i => (elts i).live && cellNum (elts i).keyHash hashMask = cell

/-- The entries of the first elements of an array, the latest first. -/
def eltEntries (elts : ℕ → Elt κ ν) (n : ℕ) : List (Entry κ ν) :=
  (liveElts elts n).map fun i => (elts i).entry

/-- The list of every cell, among the first elements of an array. -/
def Linked (hashMask : ℕ) (cells : ℕ → ℕ) (elts : ℕ → Elt κ ν) (n : ℕ) : Prop :=
  ∀ cell, Chain (fun i => (elts i).nextElt) (cells cell) (bucket hashMask elts n cell)

/-- The invariant of a chunk. -/
structure Inv (h : Descr κ ν) : Prop where
  linked : Linked h.hashMask h.cells h.elts h.eltsCount
  deleted : h.eltsDeletedCount + (liveElts h.elts h.eltsCount).length = h.eltsCount
  count_le : h.eltsCount ≤ h.eltsSize
  two_le : 2 ≤ h.eltsSize
  size_le : h.eltsSize ≤ 2 ^ 27
  mask_lt : h.hashMask < 2 ^ 28

/-- What a chunk holds, the latest entry first. -/
def entries (h : Descr κ ν) : List (Entry κ ν) := eltEntries h.elts h.eltsCount

/-! ### Lists of elements -/

theorem nodup_liveElts (elts : ℕ → Elt κ ν) (n : ℕ) : (liveElts elts n).Nodup :=
  (nodup_below n).filter _

theorem nodup_bucket (hashMask : ℕ) (elts : ℕ → Elt κ ν) (n cell : ℕ) :
    (bucket hashMask elts n cell).Nodup :=
  (nodup_below n).filter _

theorem mem_liveElts {elts : ℕ → Elt κ ν} {n i : ℕ} :
    i ∈ liveElts elts n ↔ i < n ∧ (elts i).live = true := by
  rw [liveElts, List.mem_filter, mem_below]

theorem mem_bucket {hashMask n cell i : ℕ} {elts : ℕ → Elt κ ν} : i ∈ bucket hashMask elts n cell ↔
      i < n ∧ (elts i).live = true ∧ cellNum (elts i).keyHash hashMask = cell := by
  rw [bucket, List.mem_filter, mem_below, Bool.and_eq_true, decide_eq_true_eq]

def SameData (elts elts' : ℕ → Elt κ ν) (n : ℕ) : Prop :=
  ∀ i < n, (elts' i).type = (elts i).type ∧ (elts' i).entry = (elts i).entry

variable {elts' : ℕ → Elt κ ν}

theorem SameData.live {elts : ℕ → Elt κ ν} {n : ℕ} (hd : SameData elts elts' n) {i : ℕ}
    (hi : i < n) : (elts' i).live = (elts i).live := by
  rw [Elt.live, Elt.live, (hd i hi).1]

theorem SameData.keyHash {elts : ℕ → Elt κ ν} {n : ℕ} (hd : SameData elts elts' n) {i : ℕ}
    (hi : i < n) : (elts' i).keyHash = (elts i).keyHash :=
  congrArg Entry.keyHash (hd i hi).2

theorem SameData.liveElts {elts : ℕ → Elt κ ν} {n : ℕ} (hd : SameData elts elts' n) :
    liveElts elts' n = liveElts elts n :=
  List.filter_congr fun _ hi => hd.live (mem_below.mp hi)

theorem SameData.bucket {elts : ℕ → Elt κ ν} {n : ℕ} (hd : SameData elts elts' n)
    (hashMask cell : ℕ) : bucket hashMask elts' n cell = bucket hashMask elts n cell :=
  List.filter_congr fun i hi => by rw [hd.live (mem_below.mp hi), hd.keyHash (mem_below.mp hi)]

theorem SameData.eltEntries {elts : ℕ → Elt κ ν} {n : ℕ} (hd : SameData elts elts' n) :
    eltEntries elts' n = eltEntries elts n := by
  rw [FlatHash.eltEntries, FlatHash.eltEntries, hd.liveElts]
  exact List.map_congr_left fun i hi => (hd i (mem_liveElts.mp hi).1).2

/-! ### Linking one element -/

section Link

variable {hashMask n : ℕ} {cells : ℕ → ℕ} {elts : ℕ → Elt κ ν}

theorem Linked.cell_le (hl : Linked hashMask cells elts n) (cell : ℕ) : cells cell ≤ n := by
  have hc := hl cell
  cases hb : bucket hashMask elts n cell with
  | nil =>
    rw [hb] at hc
    cases hc' : cells cell with
    | zero => omega
    | succ i =>
      rw [hc'] at hc
      obtain ⟨t, ht, -⟩ := hc.exists_cons
      simp at ht
  | cons i l =>
    have hi : i < n := (mem_bucket.mp (hb ▸ List.mem_cons_self)).1
    rw [hb] at hc
    have := hc.of_cons.1
    omega

theorem sameData_update (elts : ℕ → Elt κ ν) (n : ℕ) (e : Elt κ ν) :
    SameData elts (Function.update elts n e) n := fun i hi => by
  rw [Function.update_of_ne (by omega)]
  exact ⟨rfl, rfl⟩

theorem liveElts_succ (elts : ℕ → Elt κ ν) (n : ℕ) : liveElts elts (n + 1) =
      if (elts n).live then n :: liveElts elts n else liveElts elts n :=
  List.filter_cons

theorem bucket_succ (hashMask : ℕ) (elts : ℕ → Elt κ ν) (n cell : ℕ) :
    bucket hashMask elts (n + 1) cell =
      if (elts n).live && cellNum (elts n).keyHash hashMask = cell then
        n :: bucket hashMask elts n cell
      else bucket hashMask elts n cell :=
  List.filter_cons

theorem eltEntries_succ (elts : ℕ → Elt κ ν) (n : ℕ) : eltEntries elts (n + 1) =
      if (elts n).live then (elts n).entry :: eltEntries elts n else eltEntries elts n := by
  rw [eltEntries, liveElts_succ]
  split <;> rfl

theorem Linked.link (hl : Linked hashMask cells elts n) {e : Elt κ ν} (he : e.live = true)
    (hnext : e.nextElt = cells (cellNum e.keyHash hashMask)) :
    Linked hashMask (Function.update cells (cellNum e.keyHash hashMask) (n + 1))
      (Function.update elts n e) (n + 1) := by
  intro cell
  have hlinks : (fun i => (Function.update elts n e i).nextElt) =
      Function.update (fun i => (elts i).nextElt) n e.nextElt := by
    funext i
    by_cases hi : i = n
    · rw [hi, Function.update_self, Function.update_self]
    · rw [Function.update_of_ne hi, Function.update_of_ne hi]
  have hnot : n ∉ bucket hashMask elts n cell :=
    fun hn => absurd (mem_bucket.mp hn).1 (Nat.lt_irrefl n)
  rw [bucket_succ, (sameData_update elts n e).bucket, Function.update_self, he, Bool.true_and,
    hlinks]
  by_cases hcell : cellNum e.keyHash hashMask = cell
  · rw [if_pos (by simpa using hcell), hnext, hcell, Function.update_self]
    exact (hl cell).link hnot
  · rw [if_neg (by simpa using hcell), Function.update_of_ne (Ne.symm hcell)]
    refine (hl cell).congr fun i hi => Function.update_of_ne ?_ _ _
    rintro rfl
    exact hnot hi

theorem Linked.skip (hl : Linked hashMask cells elts n) (hn : (elts n).live = false) :
    Linked hashMask cells elts (n + 1) := by
  intro cell
  rw [bucket_succ, hn, Bool.false_and, if_neg (by decide)]
  exact hl cell

end Link

/-! ### Reallocation -/

theorem relink_spec (hashMask : ℕ) (elts : ℕ → Elt κ ν) {n : ℕ} (hn : n ≤ 2 ^ 26) :
    Linked hashMask (relink hashMask elts n).1 (relink hashMask elts n).2 n ∧
      ∀ m, SameData elts (relink hashMask elts n).2 m := by
  induction n with
  | zero => exact ⟨fun _ => .nil, fun _ _ _ => ⟨rfl, rfl⟩⟩
  | succ n ih =>
    obtain ⟨hl, hd⟩ := ih (by omega)
    rw [relink]
    generalize relink hashMask elts n = r at hl hd
    obtain ⟨cells, elts'⟩ := r
    simp only at hl hd ⊢
    by_cases he : (elts' n).type ≠ .free
    · have hle := hl.cell_le (cellNum (elts' n).keyHash hashMask)
      simp only [if_pos he]
      refine ⟨hl.link (e := { elts' n with
        nextElt := cells (cellNum (elts' n).keyHash hashMask) % 2 ^ 26 })
        (decide_eq_true he) (Nat.mod_eq_of_lt (by omega)), fun m i hi => ?_⟩
      by_cases hin : i = n
      · rw [hin, Function.update_self]
        exact hd (n + 1) n (by omega)
      · rw [Function.update_of_ne hin]
        exact hd m i hi
    · rw [if_neg he]
      exact ⟨hl.skip (decide_eq_false he), hd⟩

theorem compact_spec (hashMask : ℕ) (src elts : ℕ → Elt κ ν) {n : ℕ} (hn : n ≤ 2 ^ 26) :
    let r := compact hashMask src elts n
    Linked hashMask r.1 r.2.1 r.2.2 ∧ r.2.2 = (liveElts src n).length ∧
      liveElts r.2.1 r.2.2 = below r.2.2 ∧ eltEntries r.2.1 r.2.2 = eltEntries src n := by
  induction n with
  | zero => exact ⟨fun _ => .nil, rfl, rfl, rfl⟩
  | succ n ih =>
    obtain ⟨hl, hlen, hlive, hent⟩ := ih (by omega)
    rw [compact, liveElts_succ, eltEntries_succ]
    generalize compact hashMask src elts n = r at hl hlen hlive hent
    obtain ⟨cells, elts', j⟩ := r
    simp only at hl hlen hlive hent ⊢
    have hj : j ≤ n := by
      rw [hlen]
      exact (List.length_filter_le _ _).trans (length_below n).le
    by_cases he : (src n).type ≠ .free
    · have hlive' : (src n).live = true := decide_eq_true he
      have hle := hl.cell_le (cellNum (src n).keyHash hashMask)
      simp only [if_pos he, hlive', if_true]
      set e : Elt κ ν := { src n with
        nextElt := cells (cellNum (src n).keyHash hashMask) % 2 ^ 26 }
      have helive : e.live = true := hlive'
      have hd := sameData_update elts' j e
      refine ⟨hl.link helive (Nat.mod_eq_of_lt (by omega)), by rw [hlen, List.length_cons], ?_, ?_⟩
      · rw [liveElts_succ, Function.update_self, helive, if_pos rfl, hd.liveElts, hlive, below]
      · rw [eltEntries_succ, Function.update_self, helive, if_pos rfl, hd.eltEntries, hent]
        rfl
    · have hlive' : (src n).live = false := decide_eq_false he
      simp only [if_neg he, hlive', Bool.false_eq_true, if_false]
      exact ⟨hl, hlen, hlive, hent⟩

theorem growHashSize_le (m rounds n : ℕ) : growHashSize m rounds n ≤ max n (2 * m) := by
  induction rounds generalizing n with
  | zero => exact le_max_left _ _
  | succ rounds ih =>
    rw [growHashSize]
    split
    · refine (ih (2 * n)).trans ?_
      omega
    · exact le_max_left _ _

theorem le_growHashSize (m rounds n : ℕ) : n ≤ growHashSize m rounds n := by
  induction rounds generalizing n with
  | zero => exact le_rfl
  | succ rounds ih =>
    rw [growHashSize]
    split
    · exact le_trans (by omega) (ih (2 * n))
    · exact le_rfl

theorem shrinkHashSize_le (m rounds n : ℕ) : shrinkHashSize m rounds n ≤ n := by
  induction rounds generalizing n with
  | zero => exact le_rfl
  | succ rounds ih =>
    rw [shrinkHashSize]
    split
    · exact (ih (n / 2)).trans (Nat.div_le_self n 2)
    · exact le_rfl

theorem Inv.entries_length (hi : Inv h) :
    h.eltsDeletedCount + (entries h).length = h.eltsCount := by
  rw [entries, eltEntries, List.length_map]
  exact hi.deleted

theorem Inv.expand (hi : Inv h) (hcount : h.eltsCount < 2 ^ 26) (hfull : h.eltsCount = h.eltsSize) :
    ∃ h', njsExpandElts true h = some h' ∧ Inv h' ∧ h'.eltsCount = h.eltsCount ∧
      h'.eltsDeletedCount = h.eltsDeletedCount ∧ h.eltsCount < h'.eltsSize ∧
      SameData h.elts h'.elts h.eltsCount := by
  obtain ⟨m, hm⟩ : ∃ m, m = max (h.eltsCount + 1) (h.eltsSize * 3 / 2) := ⟨_, rfl⟩
  have hsize : m < 2 ^ 27 ∧ h.eltsCount < m := by omega
  have hgrow := growHashSize_le m 64 (h.hashMask + 1)
  have hge := le_growHashSize m 64 (h.hashMask + 1)
  have hmask := hi.mask_lt
  have htwo := hi.two_le
  obtain ⟨hl, hd⟩ := relink_spec (growHashSize m 64 (h.hashMask + 1) - 1) h.elts
    (n := h.eltsCount) (by omega)
  rw [njsExpandElts, ← hm]
  simp only
  rw [if_neg (by omega), if_neg (by decide), Nat.mod_eq_of_lt (by omega)]
  split
  · refine ⟨_, rfl, ⟨hl, ?_, ?_, ?_, ?_, ?_⟩, rfl, rfl, hsize.2, hd _⟩
    · change h.eltsDeletedCount + (liveElts _ h.eltsCount).length = h.eltsCount
      rw [(hd _).liveElts]
      exact hi.deleted
    all_goals simp only; omega
  · refine ⟨_, rfl, ⟨hi.linked, hi.deleted, ?_, ?_, ?_, hmask⟩, rfl, rfl, hsize.2,
      fun _ _ => ⟨rfl, rfl⟩⟩
    all_goals simp only; omega

theorem Inv.shrink (hi : Inv h) (hcount : h.eltsCount < 2 ^ 26) :
    ∃ h', njsShrinkElts true h = some h' ∧ Inv h' ∧ entries h' = entries h ∧
      h'.eltsCount ≤ h.eltsCount := by
  obtain ⟨m, hm⟩ : ∃ m, m = max 2 (h.eltsCount - h.eltsDeletedCount) := ⟨_, rfl⟩
  have hshrink := shrinkHashSize_le m 32 (h.hashMask + 1)
  have hmask := hi.mask_lt
  have hsize := hi.size_le
  have htwo := hi.two_le
  have hle := hi.count_le
  have hdel := hi.deleted
  obtain ⟨hl, hlen, hlive, hent⟩ := compact_spec (shrinkHashSize m 32 (h.hashMask + 1) - 1) h.elts
    h.elts (n := h.eltsCount) (by omega)
  rw [njsShrinkElts, ← hm]
  simp only
  rw [if_neg (by decide)]
  refine ⟨_, rfl, ⟨hl, ?_, ?_, ?_, ?_, ?_⟩, hent, ?_⟩
  · change 0 + (liveElts _ _).length = _
    rw [hlive, length_below, Nat.zero_add]
  all_goals simp only [hlen]; omega

/-! ### The search -/

theorem searchLoop_eq {p : Elt κ ν → Bool} {l : List ℕ} {n : ℕ}
    (hc : Chain (fun i => (h.elts i).nextElt) n l) :
    ∀ rounds prev, l.length < rounds →
      (searchLoop h p rounds prev n = none ∧ l.find? (fun i => p (h.elts i)) = none) ∨
      ∃ l₁ i l₂, l = l₁ ++ i :: l₂ ∧ l.find? (fun i => p (h.elts i)) = some i ∧
        searchLoop h p rounds prev n = some (l₁.getLast?.or prev, i) := by
  induction hc with
  | nil =>
    rintro (_ | rounds) prev hlt
    · exact .inl ⟨rfl, rfl⟩
    · exact .inl ⟨rfl, rfl⟩
  | @cons i l hc ih =>
    intro rounds prev hlt
    obtain ⟨rounds, rfl⟩ : ∃ m, rounds = m + 1 := ⟨rounds - 1, by omega⟩
    rw [List.length_cons] at hlt
    rw [searchLoop, List.find?_cons]
    by_cases hp : p (h.elts i) = true
    · rw [if_pos hp, hp]
      exact .inr ⟨[], i, l, rfl, rfl, rfl⟩
    have hp' : p (h.elts i) = false := by simpa using hp
    rw [if_neg hp, hp']
    obtain ⟨hloop, hfind⟩ | ⟨l₁, j, l₂, rfl, hfind, hloop⟩ := ih rounds (some i) (by omega)
    · exact .inl ⟨hloop, hfind⟩
    refine .inr ⟨i :: l₁, j, l₂, rfl, hfind, ?_⟩
    rw [hloop]
    cases l₁ with
    | nil => rfl
    | cons a l₁ =>
      rw [List.getLast?_cons_cons]
      cases hlast : (a :: l₁).getLast? with
      | none => simp at hlast
      | some b => rfl

/-- What the search finds: the element before it in its list, and the element. -/
structure Found (h : Descr κ ν) (fhq : Query κ) (p : Elt κ ν → Bool) (eltPrev : Option ℕ)
    (elt : ℕ) : Prop where
  find : (liveElts h.elts h.eltsCount).find? (fun i => p (h.elts i)) = some elt
  split : ∃ l₁ l₂, bucket h.hashMask h.elts h.eltsCount (cellNum fhq.keyHash h.hashMask) =
    l₁ ++ elt :: l₂ ∧ eltPrev = l₁.getLast?

variable {p : Elt κ ν → Bool}

theorem find?_bucket {fhq : Query κ} (hp : ∀ e, p e = true → e.keyHash = fhq.keyHash) :
    (bucket h.hashMask h.elts h.eltsCount (cellNum fhq.keyHash h.hashMask)).find?
        (fun i => p (h.elts i)) =
      (liveElts h.elts h.eltsCount).find? fun i => p (h.elts i) := by
  rw [bucket, liveElts, List.find?_filter, List.find?_filter]
  congr 1
  funext i
  by_cases htest : p (h.elts i) = true
  · simp [hp _ htest]
  · simp [htest]

theorem Inv.search_cases (hi : Inv h) {fhq : Query κ}
    (hp : ∀ e, p e = true → e.keyHash = fhq.keyHash) :
    (search h fhq p = none ∧ (liveElts h.elts h.eltsCount).find? (fun i => p (h.elts i)) = none) ∨
    ∃ eltPrev elt, search h fhq p = some (eltPrev, elt) ∧ Found h fhq p eltPrev elt := by
  have hlen : (bucket h.hashMask h.elts h.eltsCount
      (cellNum fhq.keyHash h.hashMask)).length < h.eltsCount + 1 := by
    have := List.length_filter_le (fun i => (h.elts i).live &&
      cellNum (h.elts i).keyHash h.hashMask = cellNum fhq.keyHash h.hashMask) (below h.eltsCount)
    rw [length_below] at this
    exact Nat.lt_succ_of_le this
  rw [search, ← find?_bucket hp]
  obtain ⟨hloop, hfind⟩ | ⟨l₁, i, l₂, hl, hfind, hloop⟩ :=
    searchLoop_eq (p := p) (hi.linked (cellNum fhq.keyHash h.hashMask)) _ none hlen
  · exact .inl ⟨hloop, hfind⟩
  · rw [Option.or_none] at hloop
    exact .inr ⟨_, _, hloop, by rw [← find?_bucket hp, hfind], l₁, l₂, hl, rfl⟩

/-! ### Adding, writing and removing an element -/

theorem Inv.congr (hi : Inv h) {elts : ℕ → Elt κ ν}
    (hd : ∀ i, (elts i).nextElt = (h.elts i).nextElt ∧ (elts i).live = (h.elts i).live ∧
      (elts i).keyHash = (h.elts i).keyHash) : Inv { h with elts } where
  linked cell := by
    have hbucket : bucket h.hashMask elts h.eltsCount cell =
        bucket h.hashMask h.elts h.eltsCount cell :=
      List.filter_congr fun i _ => by rw [(hd i).2.1, (hd i).2.2]
    have hlinks : (fun i => (elts i).nextElt) = fun i => (h.elts i).nextElt :=
      funext fun i => (hd i).1
    change Chain (fun i => (elts i).nextElt) (h.cells cell)
      (bucket h.hashMask elts h.eltsCount cell)
    rw [hbucket, hlinks]
    exact hi.linked cell
  deleted := by
    have hlive : liveElts elts h.eltsCount = liveElts h.elts h.eltsCount :=
      List.filter_congr fun i _ => (hd i).2.1
    change h.eltsDeletedCount + (liveElts elts h.eltsCount).length = h.eltsCount
    rw [hlive]
    exact hi.deleted
  count_le := hi.count_le
  two_le := hi.two_le
  size_le := hi.size_le
  mask_lt := hi.mask_lt

theorem store_elts (h : Descr κ ν) (elt : ℕ) (key : κ) (value : ν) (i : ℕ) :
    ((h.store elt key value).elts i).nextElt = (h.elts i).nextElt ∧
      ((h.store elt key value).elts i).live = (h.elts i).live ∧
      ((h.store elt key value).elts i).keyHash = (h.elts i).keyHash := by
  by_cases hi : i = elt
  · simp [hi, Descr.store, Elt.live]
  · simp [Descr.store, Function.update_of_ne hi]

theorem Inv.store (hi : Inv h) (elt : ℕ) (key : κ) (value : ν) : Inv (h.store elt key value) :=
  hi.congr (store_elts h elt key value)

theorem Inv.addElt (hi : Inv h) (hcount : h.eltsCount < 2 ^ 26) (fhq : Query κ) :
    ∃ h', njsFlathshAddElt true fhq h = some (h', h.eltsCount) ∧ Inv h' ∧
      h'.eltsCount = h.eltsCount + 1 ∧
      ∀ key value, entries (h'.store h.eltsCount key value) =
        ⟨fhq.keyHash, key, value⟩ :: entries h := by
  -- After the expansion, if there is one, there is room for the element.
  obtain ⟨h₁, heq, hi₁, hc₁, hroom, hd⟩ : ∃ h₁,
      (if h.eltsCount = h.eltsSize then njsExpandElts true h else some h) = some h₁ ∧ Inv h₁ ∧
        h₁.eltsCount = h.eltsCount ∧ h.eltsCount < h₁.eltsSize ∧
        SameData h.elts h₁.elts h.eltsCount := by
    by_cases hfull : h.eltsCount = h.eltsSize
    · obtain ⟨h₁, heq, hi₁, hc₁, -, hroom, hd⟩ := hi.expand (by omega) hfull
      exact ⟨h₁, by rw [if_pos hfull, heq], hi₁, hc₁, hroom, hd⟩
    · have := hi.count_le
      exact ⟨h, by rw [if_neg hfull], hi, rfl, by omega, fun _ _ => ⟨rfl, rfl⟩⟩
  have hle := hi₁.linked.cell_le (cellNum fhq.keyHash h₁.hashMask)
  have hmod : (h₁.eltsCount + 1) % 2 ^ 32 = h₁.eltsCount + 1 := Nat.mod_eq_of_lt (by omega)
  set e : Elt κ ν := { h₁.elts h₁.eltsCount with
    keyHash := fhq.keyHash
    nextElt := h₁.cells (cellNum fhq.keyHash h₁.hashMask) % 2 ^ 26
    type := .property } with he
  have hlive : e.live = true := rfl
  have hsame := sameData_update h₁.elts h₁.eltsCount e
  rw [njsFlathshAddElt, heq, ← hc₁]
  simp only [hmod]
  refine ⟨_, rfl, ⟨hi₁.linked.link hlive (Nat.mod_eq_of_lt (by omega)), ?_, ?_,
    hi₁.two_le, hi₁.size_le, hi₁.mask_lt⟩, rfl, fun key value => ?_⟩
  · change h₁.eltsDeletedCount + (liveElts (Function.update h₁.elts h₁.eltsCount e)
      (h₁.eltsCount + 1)).length = h₁.eltsCount + 1
    rw [liveElts_succ, Function.update_self, hlive, if_pos rfl, hsame.liveElts, List.length_cons]
    have := hi₁.deleted
    omega
  · change h₁.eltsCount + 1 ≤ h₁.eltsSize
    omega
  have helive : ({ e with key, value } : Elt κ ν).live = true := hlive
  change eltEntries (Function.update (Function.update h₁.elts h₁.eltsCount e) h₁.eltsCount
    { Function.update h₁.elts h₁.eltsCount e h₁.eltsCount with key, value })
    (h₁.eltsCount + 1) = _
  rw [Function.update_idem, Function.update_self, eltEntries_succ, Function.update_self, helive,
    if_pos rfl, (sameData_update h₁.elts h₁.eltsCount _).eltEntries, hc₁, hd.eltEntries]
  rfl

theorem Found.entries_store {fhq : Query κ} {p : Elt κ ν → Bool} {q : Entry κ ν → Bool}
    (hpq : ∀ e, p e = q e.entry) {eltPrev : Option ℕ} {elt : ℕ}
    (hf : Found h fhq p eltPrev elt) (hp : ∀ e, p e = true → e.keyHash = fhq.keyHash) (key : κ)
    (value : ν) :
    entries (h.store elt key value) = replaceP q ⟨fhq.keyHash, key, value⟩ (entries h) := by
  have hfind := hf.find
  simp only [hpq] at hfind
  have hlive : liveElts (h.store elt key value).elts h.eltsCount = liveElts h.elts h.eltsCount :=
    List.filter_congr fun i _ => (store_elts h elt key value i).2.1
  have hhash : (h.elts elt).keyHash = fhq.keyHash := hp _ (by simpa using List.find?_some hf.find)
  rw [entries, entries, eltEntries, eltEntries, replaceP_map _ (nodup_liveElts _ _) hfind]
  change (liveElts (h.store elt key value).elts h.eltsCount).map _ = _
  rw [hlive]
  refine List.map_congr_left fun i _ => ?_
  by_cases hi : i = elt
  · rw [hi, Function.update_self, ← hhash]
    simp [Descr.store, Elt.entry]
  · simp [Descr.store, Function.update_of_ne hi]

theorem nextElt_update (h : Descr κ ν) (prev n : ℕ) :
    (fun i => (Function.update h.elts prev { h.elts prev with nextElt := n } i).nextElt) =
      Function.update (fun i => (h.elts i).nextElt) prev n := by
  funext i
  by_cases hi : i = prev
  · rw [hi, Function.update_self, Function.update_self]
  · rw [Function.update_of_ne hi, Function.update_of_ne hi]

theorem unlinkElt_data (fhq : Query κ) (eltPrev : Option ℕ) (elt : ℕ) (h : Descr κ ν) :
    (unlinkElt fhq eltPrev elt h).eltsCount = h.eltsCount ∧
      (unlinkElt fhq eltPrev elt h).hashMask = h.hashMask ∧
      (unlinkElt fhq eltPrev elt h).eltsDeletedCount = h.eltsDeletedCount ∧
      (unlinkElt fhq eltPrev elt h).eltsSize = h.eltsSize ∧
      ∀ i, ((unlinkElt fhq eltPrev elt h).elts i).live = (h.elts i).live ∧
        ((unlinkElt fhq eltPrev elt h).elts i).entry = (h.elts i).entry := by
  cases eltPrev with
  | none => exact ⟨rfl, rfl, rfl, rfl, fun i => ⟨rfl, rfl⟩⟩
  | some prev =>
    refine ⟨rfl, rfl, rfl, rfl, fun i => ?_⟩
    by_cases hi : i = prev
    · simp [unlinkElt, hi, Elt.live, Elt.entry]
    · simp [unlinkElt, Function.update_of_ne hi]

theorem unlinkElt_linked {fhq : Query κ} {eltPrev : Option ℕ} {elt : ℕ} (hi : Inv h)
    (hf : Found h fhq p eltPrev elt) (cell : ℕ) :
    Chain (fun i => ((unlinkElt fhq eltPrev elt h).elts i).nextElt)
      ((unlinkElt fhq eltPrev elt h).cells cell)
      ((bucket h.hashMask h.elts h.eltsCount cell).filter fun i => i ≠ elt) := by
  obtain ⟨l₁, l₂, hl, hprev⟩ := hf.split
  have hnodup := nodup_bucket h.hashMask h.elts h.eltsCount (cellNum fhq.keyHash h.hashMask)
  have hmem : elt ∈ bucket h.hashMask h.elts h.eltsCount (cellNum fhq.keyHash h.hashMask) := by
    rw [hl]
    simp
  have hchain := hi.linked cell
  by_cases hcell : cell = cellNum fhq.keyHash h.hashMask
  · rw [hcell] at hchain ⊢
    rw [hl] at hchain hnodup ⊢
    rw [filter_ne_of_nodup hnodup]
    obtain rfl | ⟨l₁, prev, rfl⟩ := l₁.eq_nil_or_concat
    · -- The element is the head of the list.
      rw [hprev, List.getLast?_nil]
      simp only [unlinkElt, Function.update_self]
      exact hchain.of_cons.2
    · rw [List.concat_eq_append, List.append_assoc] at hchain hnodup
      rw [hprev, List.concat_eq_append, List.getLast?_concat, List.append_assoc]
      simp only [unlinkElt]
      rw [nextElt_update]
      exact hchain.unlink hnodup
  · -- Neither the element nor the one before it is in the list.
    have hother : ∀ i ∈ bucket h.hashMask h.elts h.eltsCount cell,
        i ∉ bucket h.hashMask h.elts h.eltsCount (cellNum fhq.keyHash h.hashMask) :=
      fun i hi hi' => hcell ((mem_bucket.mp hi).2.2.symm.trans (mem_bucket.mp hi').2.2)
    have hall : (bucket h.hashMask h.elts h.eltsCount cell).filter (fun i => i ≠ elt) =
        bucket h.hashMask h.elts h.eltsCount cell := by
      refine List.filter_eq_self.mpr fun i hi => decide_eq_true ?_
      rintro rfl
      exact hother _ hi hmem
    rw [hall]
    cases hlast : eltPrev with
    | none =>
      simp only [unlinkElt]
      rw [Function.update_of_ne hcell]
      exact hchain
    | some prev =>
      have hin : prev ∈ bucket h.hashMask h.elts h.eltsCount (cellNum fhq.keyHash h.hashMask) := by
        rw [hl]
        exact List.mem_append_left _ (List.mem_of_getLast? (hprev ▸ hlast))
      simp only [unlinkElt]
      rw [nextElt_update]
      refine hchain.congr fun i hi => Function.update_of_ne ?_ _ _
      rintro rfl
      exact hother _ hi hin

theorem Inv.remove (hi : Inv h) {fhq : Query κ} {p : Elt κ ν → Bool} {q : Entry κ ν → Bool}
    (hpq : ∀ e, p e = q e.entry) {eltPrev : Option ℕ} {elt : ℕ}
    (hf : Found h fhq p eltPrev elt) :
    Inv (freeElt elt (unlinkElt fhq eltPrev elt h)) ∧
      (freeElt elt (unlinkElt fhq eltPrev elt h)).eltsCount = h.eltsCount ∧
      entries (freeElt elt (unlinkElt fhq eltPrev elt h)) = (entries h).eraseP q := by
  have hfind := hf.find
  simp only [hpq] at hfind
  have hmem : elt ∈ liveElts h.elts h.eltsCount := List.mem_of_find?_eq_some hfind
  have hlinked := unlinkElt_linked hi hf
  obtain ⟨hcount, hmask, hdel, hsize, hd⟩ := unlinkElt_data fhq eltPrev elt h
  generalize unlinkElt fhq eltPrev elt h = u at hlinked hcount hmask hdel hsize hd
  have hlive : ∀ i, ((freeElt elt u).elts i).live = ((h.elts i).live && decide (i ≠ elt)) := by
    intro i
    by_cases hie : i = elt
    · simp [freeElt, hie, Elt.live]
    · rw [← (hd i).1]
      simp [freeElt, hie]
  have hlist : liveElts (freeElt elt u).elts h.eltsCount =
      (liveElts h.elts h.eltsCount).filter fun i => i ≠ elt := by
    rw [liveElts, liveElts, List.filter_filter]
    exact List.filter_congr fun i _ => by rw [hlive, Bool.and_comm]
  have hentry : ∀ i, ((freeElt elt u).elts i).entry = (h.elts i).entry := by
    intro i
    rw [← (hd i).2]
    by_cases hie : i = elt
    · simp [freeElt, hie, Elt.entry]
    · simp [freeElt, Function.update_of_ne hie]
  have hent : entries (freeElt elt u) = (entries h).eraseP q := by
    change eltEntries (freeElt elt u).elts u.eltsCount = _
    rw [hcount, eltEntries, hlist, entries, eltEntries, List.eraseP_map,
      ← eraseP_eq_filter (nodup_liveElts _ _) hfind]
    exact List.map_congr_left fun i _ => hentry i
  refine ⟨⟨fun cell => ?_, ?_, ?_, ?_, ?_, ?_⟩, hcount, hent⟩
  · change Chain _ (u.cells cell) (bucket u.hashMask (freeElt elt u).elts u.eltsCount cell)
    rw [hcount, hmask]
    have hbucket : bucket h.hashMask (freeElt elt u).elts h.eltsCount cell =
        (bucket h.hashMask h.elts h.eltsCount cell).filter fun i => i ≠ elt := by
      rw [bucket, bucket, List.filter_filter]
      refine List.filter_congr fun i _ => ?_
      rw [hlive, show ((freeElt elt u).elts i).keyHash = (h.elts i).keyHash from
        congrArg Entry.keyHash (hentry i), Bool.and_right_comm, Bool.and_comm]
    rw [hbucket]
    refine (hlinked cell).congr fun i hi => ?_
    have hie : i ≠ elt := by simpa using (List.mem_filter.mp hi).2
    simp [freeElt, Function.update_of_ne hie]
  · change u.eltsDeletedCount + 1 + (liveElts (freeElt elt u).elts u.eltsCount).length = u.eltsCount
    have hlen : ((liveElts h.elts h.eltsCount).filter fun i => i ≠ elt).length + 1 =
        (liveElts h.elts h.eltsCount).length := by
      rw [← eraseP_eq_filter (nodup_liveElts _ _) hfind]
      have := List.length_eraseP_add_one hmem (List.find?_some hfind)
      exact this
    have := hi.deleted
    rw [hcount, hdel, hlist]
    omega
  · exact hcount.le.trans (hi.count_le.trans hsize.ge)
  · exact hi.two_le.trans hsize.ge
  · exact hsize.le.trans hi.size_le
  · exact hmask.le.trans_lt hi.mask_lt

end Njs.FlatHash
