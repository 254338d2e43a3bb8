import Mathlib.Data.List.AList
import Njs.Indices.Keys
import Njs.Lib.Simulation
import Njs.Lib.StableSort

/-!
# `sort` and `toSorted`

The defined elements of an array are copied to slots with their positions, the slots are sorted, and
the elements are written back with the undefined values and the holes after them.
-/

namespace Njs.Sorting

open Indices Simulation

/-! ### Comparisons -/

/-- A number that a comparison function returns. A value that is no number is a NaN. -/
inductive Answer
  | nan
  | negative
  | zero
  | positive
  deriving DecidableEq

/-- A comparison function, or strings if there is none. -/
structure Comparison (V X : Type) where
  function : Option (V → V → Except X Answer)
  toString : V → Except X (List UInt8)

/-- `njs_array_sort_slot_t`. The strings that it keeps are those of the values. -/
abbrev Slot (V : Type) : Type := V × ℕ

variable {V X : Type}

def njsStringCmp : List UInt8 → List UInt8 → ℤ
  | a :: s, b :: t => if a.toNat = b.toNat then njsStringCmp s t else (a.toNat : ℤ) - b.toNat
  | s, t => (s.length : ℤ) - t.length

/-- `compare_same`: ensures stable sorting. -/
def compareSame (aslot bslot : Slot V) : ℤ :=
  if bslot.2 < aslot.2 then 1 else if aslot.2 < bslot.2 then -1 else 0

def njsArrayCompare (c : Comparison V X) (aslot bslot : Slot V) : Except X ℤ :=
  match c.function with
  | some function => do
    match ← function aslot.1 bslot.1 with
    | .nan => return 0
    | .positive => return 1
    | .negative => return -1
    | .zero => return compareSame aslot bslot
  | none => do
    let astr ← c.toString aslot.1
    let bstr ← c.toString bslot.1
    let ret := njsStringCmp astr bstr
    if ret ≠ 0 then return ret else return compareSame aslot bslot

/-! ### Arrays -/

/-- A value, where `undefined` is `none`. -/
abbrev Value (V : Type) : Type := Option V

/-- A data property. -/
structure Property (V : Type) where
  value : Value V
  writable : Bool
  configurable : Bool
  deriving DecidableEq

def Property.plain (value : Value V) : Property V := ⟨value, true, true⟩

abbrev Properties (V : Type) : Type := AList fun _ : Key => Property V

/-- An array without index properties on its prototypes. A fast array keeps the elements in cells,
where a hole is `none`, and the other properties apart. -/
inductive Storage (V : Type)
  | fast (cells : List (Option (Value V))) (others : Properties V)
  | slow (length : ℕ) (properties : Properties V) (extensible : Bool)

namespace Storage

def length : Storage V → ℕ
  | fast cells _ => cells.length
  | slow length _ _ => length

def own : Storage V → Key → Option (Property V)
  | fast cells others, key =>
    match key with
    | .number (.finite q) =>
      if q = q.num.toNat ∧ q.num.toNat < cells.length then
        (cells[q.num.toNat]?).join.map .plain
      else others.lookup key
    | _ => others.lookup key
  | slow _ properties _, key => properties.lookup key

def element (a : Storage V) (i : ℕ) : Option (Value V) := (a.own (.index i)).map Property.value

end Storage

/-- The errors of an assignment, a deletion or a comparison. -/
inductive Error (X : Type)
  | readOnly (index : ℕ)
  /-- "Cannot add property, object is not extensible". -/
  | notExtensible (index : ℕ)
  /-- "Cannot delete property". -/
  | notConfigurable (index : ℕ)
  | script (x : X)
  deriving DecidableEq

/-- `njs_value_property_i64_set`, for an index below the length. -/
def njsValuePropertyI64Set (i : ℕ) (value : Value V) : Prog (Storage V) (Error X) PUnit := do
  match ← get with
  | .fast cells others => set (Storage.fast (cells.set i (some value)) others)
  | .slow length properties extensible =>
    match properties.lookup (.index i) with
    | some prop =>
      if prop.writable then
        set (Storage.slow length (properties.insert (.index i) { prop with value }) extensible)
      else throw (.readOnly i)
    | none =>
      if extensible then
        set (Storage.slow length (properties.insert (.index i) (.plain value)) extensible)
      else throw (.notExtensible i)

/-- `njs_value_property_i64_delete`, for an index below the length. -/
def njsValuePropertyI64Delete (i : ℕ) : Prog (Storage V) (Error X) PUnit := do
  match ← get with
  | .fast cells others => set (Storage.fast (cells.set i none) others)
  | .slow length properties extensible =>
    match properties.lookup (.index i) with
    | some prop =>
      if prop.configurable then
        set (Storage.slow length (properties.erase (.index i)) extensible)
      else throw (.notConfigurable i)
    | none => pure ()

/-! ### Methods -/

/-- The slots and the number of undefined values, of elements that are read one after the other. A
hole is skipped, or read as `undefined`. -/
def collect (skipHoles : Bool) : ℕ → List (Option (Value V)) → List (Slot V) × ℕ
  | _, [] => ([], 0)
  | pos, entry :: entries =>
    let (slots, nunds) := collect skipHoles (pos + 1) entries
    match entry with
    | some (some value) => ((value, pos) :: slots, nunds)
    | some none => (slots, nunds + 1)
    | none => if skipHoles then (slots, nunds) else (slots, nunds + 1)

variable (D : Doubles) (c : Comparison V X)

/-- The elements that `njs_sort_indexed_properties` reads. -/
def entries (skipHoles : Bool) : Storage V → List (Option (Value V))
  | .fast cells _ => cells
  | .slow length properties extensible =>
    if skipHoles then
      let keys := njsArrayIndices D properties.keys
      (keys.take length).map fun key => (properties.lookup key).map Property.value
    else (List.range length).map (Storage.slow length properties extensible).element

def njsSortIndexedProperties (skipHoles : Bool) (a : Storage V) : Except X (List V × ℕ) := do
  let (slots, nunds) := collect skipHoles 0 (entries D skipHoles a)
  let slots ← njsQsort (njsArrayCompare c) slots
  return (slots.map Prod.fst, nunds)

def njsArrayPrototypeSort : Prog (Storage V) (Error X) PUnit := do
  let a ← get
  let length := a.length
  if length = 0 then pure ()
  else
    match njsSortIndexedProperties D c true a with
    | .error e => throw (.script e)
    | .ok (slots, nunds) =>
      forM slots.zipIdx fun (p : V × ℕ) => njsValuePropertyI64Set p.2 (some p.1)
      forM (List.range nunds) fun i => njsValuePropertyI64Set (slots.length + i) none
      forM (List.range (length - (slots.length + nunds))) fun i =>
        njsValuePropertyI64Delete (slots.length + nunds + i)

def njsArrayPrototypeToSorted (a : Storage V) : Except X (List (Value V)) := do
  if a.length = 0 then return []
  else
    let (slots, _) ← njsSortIndexedProperties D c false a
    return slots.map some ++ List.replicate (a.length - slots.length) none

end Njs.Sorting

/-!
## Slots are sorted stably
-/

namespace Njs.Sorting

open Indices
open List (zipIdxLE zipIdxLE_trans zipIdxLE_total)

variable {V X : Type} {c : Comparison V X} {le : V → V → Bool} {s : List V}

/-! ### Comparisons -/

/-- The answers of a comparison, where a NaN counts as equal. -/
def Comparison.order (c : Comparison V X) (a b : V) : Except X ℤ :=
  match c.function with
  | some function => do
    match ← function a b with
    | .nan | .zero => return 0
    | .positive => return 1
    | .negative => return -1
  | none => do
    let astr ← c.toString a
    let bstr ← c.toString b
    return njsStringCmp astr bstr

/-- The answers on the values of a list are those of a total preorder. -/
structure Comparison.Induces (c : Comparison V X) (le : V → V → Bool) (s : List V) : Prop where
  trans : ∀ a b c, le a b → le b c → le a c
  total : ∀ a b, le a b || le b a
  le_iff : ∀ a ∈ s, ∀ b ∈ s, ∀ r, c.order a b = .ok r → (r ≤ 0 ↔ le a b)
  ge_iff : ∀ a ∈ s, ∀ b ∈ s, ∀ r, c.order a b = .ok r → (0 ≤ r ↔ le b a)

def Comparison.NeverNan (c : Comparison V X) (s : List V) : Prop :=
  ∀ function, c.function = some function → ∀ a ∈ s, ∀ b ∈ s, function a b ≠ .ok .nan

def Comparison.Throws (c : Comparison V X) (s : List V) (e : X) : Prop :=
  ∃ a ∈ s, ∃ b ∈ s, c.order a b = .error e

theorem njsArrayCompare_function {function : V → V → Except X Answer}
    (h : c.function = some function) (a b : Slot V) :
    njsArrayCompare c a b = (function a.1 b.1).map fun
      | .nan => 0
      | .positive => 1
      | .negative => -1
      | .zero => compareSame a b := by
  rw [njsArrayCompare, h]
  dsimp only
  rcases function a.1 b.1 with e | answer
  · rfl
  · cases answer <;> rfl

theorem order_function {function : V → V → Except X Answer} (h : c.function = some function)
    (a b : V) : c.order a b = (function a b).map fun
      | .nan | .zero => 0
      | .positive => 1
      | .negative => -1 := by
  rw [Comparison.order, h]
  dsimp only
  rcases function a b with e | answer
  · rfl
  · cases answer <;> rfl

theorem njsArrayCompare_strings (h : c.function = none) (a b : Slot V) : njsArrayCompare c a b =
      (c.order a.1 b.1).map fun r => if r ≠ 0 then r else compareSame a b := by
  rw [njsArrayCompare, Comparison.order, h]
  dsimp only
  rcases c.toString a.1 with e | astr
  · rfl
  rcases c.toString b.1 with e | bstr
  · rfl
  · show (if njsStringCmp astr bstr ≠ 0 then Except.ok (njsStringCmp astr bstr)
      else Except.ok (compareSame a b)) = Except.ok (if njsStringCmp astr bstr ≠ 0 then
        njsStringCmp astr bstr else compareSame a b)
    split_ifs <;> rfl

theorem njsArrayCompare_ok {a b : Slot V} {r : ℤ} (h : njsArrayCompare c a b = .ok r) :
    ∃ r', c.order a.1 b.1 = .ok r' ∧ (r = (if r' ≠ 0 then r' else compareSame a b) ∨
      r' = 0 ∧ r = 0 ∧ ∃ function, c.function = some function ∧ function a.1 b.1 = .ok .nan) := by
  cases hfunction : c.function with
  | none =>
    rw [njsArrayCompare_strings hfunction] at h
    rcases horder : c.order a.1 b.1 with e | r'
    · rw [horder] at h
      exact nomatch h
    · rw [horder] at h
      exact ⟨r', rfl, .inl (Except.ok.inj h).symm⟩
  | some function =>
    rw [njsArrayCompare_function hfunction] at h
    rw [order_function hfunction]
    rcases hanswer : function a.1 b.1 with e | answer
    · rw [hanswer] at h
      exact nomatch h
    rw [hanswer] at h
    have h := (Except.ok.inj h).symm
    cases answer with
    | nan => exact ⟨0, rfl, .inr ⟨rfl, h, function, rfl, hanswer⟩⟩
    | negative => exact ⟨-1, rfl, .inl h⟩
    | zero => exact ⟨0, rfl, .inl h⟩
    | positive => exact ⟨1, rfl, .inl h⟩

theorem njsArrayCompare_error {a b : Slot V} {e : X} (h : njsArrayCompare c a b = .error e) :
    c.order a.1 b.1 = .error e := by
  cases hfunction : c.function with
  | none =>
    rw [njsArrayCompare_strings hfunction] at h
    rcases horder : c.order a.1 b.1 with e' | r'
    · rw [horder] at h
      exact congrArg _ (Except.error.inj h)
    · rw [horder] at h
      exact nomatch h
  | some function =>
    rw [njsArrayCompare_function hfunction] at h
    rw [order_function hfunction]
    rcases hanswer : function a.1 b.1 with e' | answer
    · rw [hanswer] at h
      exact congrArg _ (Except.error.inj h)
    · rw [hanswer] at h
      exact nomatch h

/-! ### Slots -/

theorem zipIdxLE_iff {a b : Slot V} : zipIdxLE le a b ↔ le a.1 b.1 ∧ (le b.1 a.1 → a.2 ≤ b.2) := by
  rw [zipIdxLE]
  split_ifs with hab hba
  · simp [hab, hba]
  · simp [hab, hba]
  · simp [hab]

theorem compareSame_le (a b : Slot V) : compareSame a b ≤ 0 ↔ a.2 ≤ b.2 := by
  rw [compareSame]
  split_ifs <;> omega

theorem compareSame_ge (a b : Slot V) : 0 ≤ compareSame a b ↔ b.2 ≤ a.2 := by
  rw [compareSame]
  split_ifs <;> omega

theorem Comparison.Induces.compares (h : c.Induces le s) (hnan : c.NeverNan s)
    {slots : List (Slot V)} (hslots : ∀ a ∈ slots, a.1 ∈ s) :
    Compares (njsArrayCompare c) (fun a b => zipIdxLE le a b) (· ∈ slots) := by
  have hanswer : ∀ a ∈ slots, ∀ b ∈ slots, ∀ r, njsArrayCompare c a b = .ok r →
      (r ≤ 0 ↔ zipIdxLE le a b) ∧ (0 ≤ r ↔ zipIdxLE le b a) := by
    intro a ha b hb r hr
    obtain ⟨r', horder, hr | ⟨-, -, function, hfunction, hisnan⟩⟩ := njsArrayCompare_ok hr
    · have hle := h.le_iff _ (hslots a ha) _ (hslots b hb) r' horder
      have hge := h.ge_iff _ (hslots a ha) _ (hslots b hb) r' horder
      have hsame := compareSame_le a b
      have hsame' := compareSame_ge a b
      rw [zipIdxLE_iff, zipIdxLE_iff, ← hle, ← hge, hr]
      split_ifs <;> omega
    · exact absurd hisnan (hnan function hfunction _ (hslots a ha) _ (hslots b hb))
  exact ⟨fun ha hb hr => (hanswer _ ha _ hb _ hr).1.1,
    fun ha hb hr => (hanswer _ ha _ hb _ hr).2.1, fun _ _ _ => zipIdxLE_trans h.trans _ _ _,
    fun _ _ => by simpa using zipIdxLE_total h.total _ _⟩

theorem Comparison.Induces.inserts (h : c.Induces le s) {slots : List (Slot V)}
    (hslots : ∀ a ∈ slots, a.1 ∈ s) :
    Inserts (njsArrayCompare c) (fun a b => zipIdxLE le a b) (· ∈ slots) fun a b => a.2 < b.2 := by
  have hanswer : ∀ a ∈ slots, ∀ b ∈ slots, b.2 < a.2 → ∀ r, njsArrayCompare c a b = .ok r →
      (r < 0 → zipIdxLE le a b) ∧ (0 ≤ r → zipIdxLE le b a) := by
    intro a ha b hb hba r hr
    obtain ⟨r', horder, hr⟩ := njsArrayCompare_ok hr
    have hle := h.le_iff _ (hslots a ha) _ (hslots b hb) r' horder
    have hge := h.ge_iff _ (hslots a ha) _ (hslots b hb) r' horder
    have hsame := compareSame_le a b
    have hsame' := compareSame_ge a b
    rw [zipIdxLE_iff, zipIdxLE_iff, ← hle, ← hge]
    rcases hr with hr | ⟨hr', hr, -⟩
    · rw [hr]
      split_ifs <;> omega
    · omega
  exact ⟨fun ha hb hba hr => (hanswer _ ha _ hb hba _ hr).1,
    fun ha hb hba hr => (hanswer _ ha _ hb hba _ hr).2, fun _ _ _ => zipIdxLE_trans h.trans _ _ _⟩

/-! ### Elements -/

def isUndefined : Option (Value V) → Bool
  | some none => true
  | _ => false

def definedOf (es : List (Option (Value V))) : List V := es.filterMap Option.join

theorem collect_values (skipHoles : Bool) (pos : ℕ) (es : List (Option (Value V))) :
    (collect skipHoles pos es).1.map Prod.fst = definedOf es := by
  induction es generalizing pos with
  | nil => rfl
  | cons entry es ih =>
    rcases entry with _ | _ | value
    · cases skipHoles <;> exact ih (pos + 1)
    · exact ih (pos + 1)
    · exact congrArg (value :: ·) (ih (pos + 1))

theorem collect_positions (skipHoles : Bool) (pos : ℕ) (es : List (Option (Value V))) :
    (∀ a ∈ (collect skipHoles pos es).1, pos ≤ a.2) ∧
      (collect skipHoles pos es).1.Pairwise fun a b => a.2 < b.2 := by
  induction es generalizing pos with
  | nil => exact ⟨nofun, .nil⟩
  | cons entry es ih =>
    obtain ⟨hle, hlt⟩ := ih (pos + 1)
    rcases entry with _ | _ | value
    · cases skipHoles <;> exact ⟨fun a ha => Nat.le_of_succ_le (hle a ha), hlt⟩
    · exact ⟨fun a ha => Nat.le_of_succ_le (hle a ha), hlt⟩
    · refine ⟨fun a ha => ?_, List.pairwise_cons.2 ⟨hle, hlt⟩⟩
      rcases List.mem_cons.1 ha with rfl | ha
      · exact Nat.le_refl _
      · exact Nat.le_of_succ_le (hle a ha)

theorem collect_nunds (skipHoles : Bool) (pos : ℕ) (es : List (Option (Value V))) :
    (collect skipHoles pos es).2 =
      es.countP isUndefined + if skipHoles then 0 else es.countP Option.isNone := by
  induction es generalizing pos with
  | nil => cases skipHoles <;> rfl
  | cons entry es ih =>
    have h := ih (pos + 1)
    rw [List.countP_cons, List.countP_cons]
    rcases entry with _ | _ | value
    · cases skipHoles
      · show (collect false (pos + 1) es).2 + 1 = _
        rw [h]
        simp [isUndefined]
        omega
      · exact h
    · show (collect skipHoles (pos + 1) es).2 + 1 = _
      rw [h]
      simp [isUndefined]
      omega
    · show (collect skipHoles (pos + 1) es).2 = _
      rw [h]
      simp [isUndefined]

theorem njsSortIndexedProperties_post (D : Doubles) (skipHoles : Bool) (a : Storage V)
    {s : List V} (hs : definedOf (entries D skipHoles a) = s) (hc : c.Induces le s)
    (hnan : c.NeverNan s ∨ s.length ≤ 6) :
    match njsSortIndexedProperties D c skipHoles a with
    | .ok (values, nunds) => values = s.mergeSort le ∧
        nunds = (entries D skipHoles a).countP isUndefined +
          if skipHoles then 0 else (entries D skipHoles a).countP Option.isNone
    | .error e => c.Throws s e := by
  have hvalues := (collect_values skipHoles 0 (entries D skipHoles a)).trans hs
  have hpositions := (collect_positions skipHoles 0 (entries D skipHoles a)).2
  have hnunds := collect_nunds skipHoles 0 (entries D skipHoles a)
  rw [njsSortIndexedProperties]
  generalize collect skipHoles 0 (entries D skipHoles a) = r at hvalues hpositions hnunds
  obtain ⟨slots, nunds⟩ := r
  dsimp only at hvalues hpositions hnunds ⊢
  have hmem : ∀ a ∈ slots, a.1 ∈ s := fun a ha => hvalues ▸ List.mem_map_of_mem ha
  have hsort : Sorts (njsArrayCompare c) (fun a b => zipIdxLE le a b) slots := by
    rcases hnan with hnan | hshort
    · exact (hc.compares hnan hmem).sorts
    · refine (hc.inserts hmem).sorts hpositions ?_
      rw [← hvalues, List.length_map] at hshort
      exact hshort
  rw [Sorts] at hsort
  rcases hqsort : njsQsort (njsArrayCompare c) slots with e | l'
  · rw [hqsort] at hsort
    obtain ⟨a, b, ha, hb, he⟩ := hsort
    exact ⟨a.1, hmem a ha, b.1, hmem b hb, njsArrayCompare_error he⟩
  · rw [hqsort] at hsort
    refine ⟨?_, hnunds⟩
    rw [← hvalues]
    exact StableSort.map_fst_eq_mergeSort hc.trans hc.total hpositions hsort.1 hsort.2

end Njs.Sorting
