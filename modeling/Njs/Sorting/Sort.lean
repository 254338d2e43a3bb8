import Njs.Sorting.Stable

/-!
# `sort` and `toSorted` are right
-/

namespace Njs.Sorting

open Indices Simulation

variable {V X : Type} {a : Storage V}

/-! ### Elements that are written -/

/-- The elements of a slow array may be written, added and deleted. -/
def Storage.Plain : Storage V → Prop
  | fast _ _ => True
  | slow length properties extensible =>
    extensible = true ∧ ∀ i < length, ∀ prop, properties.lookup (.index i) = some prop →
      prop.writable = true ∧ prop.configurable = true

theorem own_fast_index (cells : List (Option (Value V))) (others : Properties V) (i : ℕ) :
    (Storage.fast cells others).own (.index i) =
      if i < cells.length then (cells[i]?).join.map .plain else others.lookup (.index i) := by
  simp only [Storage.own, Key.index, Rat.num_natCast, Int.toNat_natCast, true_and]

theorem element_fast (cells : List (Option (Value V))) (others : Properties V) {i : ℕ}
    (hi : i < cells.length) : (Storage.fast cells others).element i = (cells[i]?).join := by
  rw [Storage.element, own_fast_index, if_pos hi]
  rcases (cells[i]?).join <;> rfl

def Other (length : ℕ) (key : Key) : Prop := ∀ i < length, key ≠ .index i

theorem own_fast_other {cells : List (Option (Value V))} (others : Properties V) {key : Key}
    (h : Other cells.length key) : (Storage.fast cells others).own key = others.lookup key := by
  match key with
  | .number (.finite q) =>
    simp only [Storage.own]
    rw [if_neg]
    rintro ⟨hq, hlt⟩
    exact h _ hlt (by rw [Key.index, ← hq])
  | .number .negZero => rfl
  | .number .infinity => rfl
  | .number .negInfinity => rfl
  | .text s => rfl

/-- An array after elements have been written. -/
structure Written (a a' : Storage V) : Prop where
  plain : a'.Plain
  length : a'.length = a.length
  other : ∀ key, Other a.length key → a'.own key = a.own key

theorem Written.refl (h : a.Plain) : Written a a := ⟨h, rfl, fun _ _ => rfl⟩

theorem Written.trans {a₁ a₂ : Storage V} (h₁ : Written a a₁) (h₂ : Written a₁ a₂) : Written a a₂ :=
  ⟨h₂.plain, h₂.length.trans h₁.length,
    fun key hkey => (h₂.other key (h₁.length ▸ hkey)).trans (h₁.other key hkey)⟩

/-- An element or a hole is written. -/
def write (i : ℕ) : Option (Value V) → Prog (Storage V) (Error X) PUnit
  | some value => njsValuePropertyI64Set i value
  | none => njsValuePropertyI64Delete i

theorem written_slow {length i : ℕ} {properties properties' : Properties V} {extensible : Bool}
    {entry : Option (Value V)} (ha : (Storage.slow length properties extensible).Plain)
    (hi : i < length) (hentry : (properties'.lookup (.index i)).map Property.value = entry)
    (hplain : ∀ prop, properties'.lookup (.index i) = some prop →
      prop.writable = true ∧ prop.configurable = true)
    (hother : ∀ key, key ≠ .index i → properties'.lookup key = properties.lookup key) :
    Written (.slow length properties extensible) (.slow length properties' extensible) ∧
      ∀ j, (Storage.slow length properties' extensible).element j =
        if j = i then entry else (Storage.slow length properties extensible).element j := by
  have hindex {j : ℕ} (hj : j ≠ i) : Key.index j ≠ .index i := fun h => hj (index_injective h)
  refine ⟨⟨⟨ha.1, fun j hj prop hprop => ?_⟩, rfl, fun key hkey => hother key (hkey i hi)⟩,
    fun j => ?_⟩
  · by_cases hji : j = i
    · rw [hji] at hprop
      exact hplain prop hprop
    · rw [hother _ (hindex hji)] at hprop
      exact ha.2 j hj prop hprop
  · split_ifs with hji
    · rw [hji]
      exact hentry
    · exact congrArg (Option.map Property.value) (hother _ (hindex hji))

theorem exec_write (ha : a.Plain) {i : ℕ} (hi : i < a.length) (entry : Option (Value V)) :
    ∃ a', exec (write (X := X) i entry) a = (.ok ⟨⟩, a') ∧ Written a a' ∧
      ∀ j, a'.element j = if j = i then entry else a.element j := by
  match a with
  | .fast cells others =>
    have hi : i < cells.length := hi
    have hlength : (cells.set i entry).length = cells.length := List.length_set
    refine ⟨.fast (cells.set i entry) others, ?_, ⟨trivial, hlength, fun key hkey => ?_⟩,
      fun j => ?_⟩
    · cases entry <;> rfl
    · rw [own_fast_other others hkey, own_fast_other others]
      rwa [hlength]
    by_cases hj : j < cells.length
    · rw [element_fast _ _ (hlength.symm ▸ hj), element_fast _ _ hj, List.getElem?_set]
      by_cases hij : j = i
      · rw [if_pos hij, if_pos hij.symm, if_pos hi]
        rfl
      · rw [if_neg hij, if_neg fun h => hij h.symm]
    · rw [if_neg (by omega), Storage.element, Storage.element, own_fast_index, own_fast_index,
        if_neg (by rwa [hlength]), if_neg hj]
  | .slow length properties extensible =>
    have hi : i < length := hi
    have hne {key : Key} {prop : Property V} (hkey : key ≠ .index i) :
        (properties.insert (.index i) prop).lookup key = properties.lookup key :=
      AList.lookup_insert_ne hkey
    cases entry with
    | some value =>
      rcases hlookup : properties.lookup (.index i) with _ | prop
      · refine ⟨.slow length (properties.insert (.index i) (.plain value)) extensible, ?_,
          written_slow ha hi ?_ ?_ fun key hkey => hne hkey⟩
        · rw [write, njsValuePropertyI64Set, exec_bind_ok (exec_get _)]
          dsimp only
          rw [hlookup, ha.1]
          rfl
        · rw [AList.lookup_insert]
          rfl
        · rw [AList.lookup_insert]
          rintro prop ⟨⟩
          exact ⟨rfl, rfl⟩
      have hprop := ha.2 i hi prop hlookup
      refine ⟨.slow length (properties.insert (.index i) { prop with value }) extensible, ?_,
        written_slow ha hi ?_ ?_ fun key hkey => hne hkey⟩
      · rw [write, njsValuePropertyI64Set, exec_bind_ok (exec_get _)]
        dsimp only
        rw [hlookup]
        dsimp only
        rw [if_pos hprop.1]
        rfl
      · rw [AList.lookup_insert]
        rfl
      · rw [AList.lookup_insert]
        rintro prop ⟨⟩
        exact hprop
    | none =>
      rcases hlookup : properties.lookup (.index i) with _ | prop
      · refine ⟨.slow length properties extensible, ?_, written_slow ha hi ?_ ?_ fun _ _ => rfl⟩
        · rw [write, njsValuePropertyI64Delete, exec_bind_ok (exec_get _)]
          dsimp only
          rw [hlookup]
          rfl
        · rw [hlookup]
          rfl
        · exact fun prop hprop => ha.2 i hi prop hprop
      have hprop := ha.2 i hi prop hlookup
      refine ⟨.slow length (properties.erase (.index i)) extensible, ?_,
        written_slow ha hi ?_ ?_ fun key hkey => AList.lookup_erase_ne hkey⟩
      · rw [write, njsValuePropertyI64Delete, exec_bind_ok (exec_get _)]
        dsimp only
        rw [hlookup]
        dsimp only
        rw [if_pos hprop.2]
        rfl
      · rw [AList.lookup_erase]
        rfl
      · rw [AList.lookup_erase]
        exact nofun

theorem exec_writeAll (es : List (Option (Value V))) (start : ℕ) (ha : a.Plain)
    (hes : start + es.length ≤ a.length) :
    ∃ a', exec (ε := Error X) (forM (es.zipIdx start) fun p => write p.2 p.1) a = (.ok ⟨⟩, a') ∧
      Written a a' ∧ ∀ j, a'.element j =
        if start ≤ j ∧ j < start + es.length then (es[j - start]?).join else a.element j := by
  induction es generalizing a start with
  | nil =>
    refine ⟨a, rfl, Written.refl ha, fun j => ?_⟩
    rw [if_neg]
    exact fun h => Nat.not_lt.2 h.1 h.2
  | cons entry es ih =>
    rw [List.length_cons] at hes ⊢
    obtain ⟨a₁, hexec₁, hw₁, helement₁⟩ := exec_write (X := X) ha (i := start) (by omega) entry
    obtain ⟨a₂, hexec₂, hw₂, helement₂⟩ := ih (start + 1) hw₁.plain (by rw [hw₁.length]; omega)
    refine ⟨a₂, ?_, hw₁.trans hw₂, fun j => ?_⟩
    · rw [List.zipIdx_cons, List.forM_cons, exec_bind_ok hexec₁, hexec₂]
    rw [helement₂, helement₁]
    by_cases hj : j = start
    · rw [if_neg (by omega), if_pos hj, if_pos (by omega), hj, Nat.sub_self]
      rfl
    · by_cases hlater : start + 1 ≤ j ∧ j < start + 1 + es.length
      · have hsub : j - start = j - (start + 1) + 1 := by omega
        rw [if_pos hlater, if_pos (by omega), hsub, List.getElem?_cons_succ]
      · rw [if_neg hlater, if_neg hj, if_neg (by omega)]

/-! ### Elements that are read -/

def Storage.elements (a : Storage V) : List (Option (Value V)) :=
  (List.range a.length).map a.element

theorem length_elements (a : Storage V) : a.elements.length = a.length := by
  rw [Storage.elements, List.length_map, List.length_range]

theorem elements_fast (cells : List (Option (Value V))) (others : Properties V) :
    (Storage.fast cells others).elements = cells := by
  refine List.ext_getElem (length_elements _) fun i _ hi => ?_
  simp only [Storage.elements, List.getElem_map, List.getElem_range]
  rw [element_fast cells others hi, List.getElem?_eq_getElem hi]
  rfl

/-- The keys of a slow array that are numbers are natural numbers, and those of its elements if it
has holes. -/
def Storage.Regular : Storage V → Prop
  | fast _ _ => True
  | slow length properties _ =>
    Natural properties.keys ∧ ((∃ i < length, .index i ∉ properties.keys) →
      ∀ n, .index n ∈ properties.keys → n < length)

theorem take_eq_filter {ns : List ℕ} (hns : ns.Pairwise (· < ·)) {length : ℕ}
    (h : (∃ i < length, i ∉ ns) → ∀ n ∈ ns, n < length) :
    ns.take length = (List.range length).filter (· ∈ ns) := by
  have hnodup : ns.Nodup := hns.imp fun h => Nat.ne_of_lt h
  have hfilter : ns.filter (· < length) = (List.range length).filter (· ∈ ns) := by
    have hasymm : ∀ a b : ℕ, a ∈ ns.filter (· < length) →
        b ∈ (List.range length).filter (· ∈ ns) → a < b → b < a → a = b :=
      fun a b _ _ hab hba => by omega
    refine List.Perm.eq_of_pairwise hasymm (hns.filter _) (List.pairwise_lt_range.filter _) ?_
    refine (List.perm_ext_iff_of_nodup (hnodup.filter _) (List.nodup_range.filter _)).2 fun n => ?_
    simp only [List.mem_filter, decide_eq_true_eq, List.mem_range]
    exact and_comm
  by_cases hmissing : ∃ i < length, i ∉ ns
  · have hall : ns.filter (· < length) = ns :=
      List.filter_eq_self.2 fun n hn => decide_eq_true (h hmissing n hn)
    rw [← hfilter, hall]
    refine List.take_of_length_le ?_
    rw [← hall, hfilter]
    exact (List.length_filter_le _ _).trans (Nat.le_of_eq List.length_range)
  have hrange : (List.range length).filter (· ∈ ns) = List.range length := by
    refine List.filter_eq_self.2 fun i hi => decide_eq_true ?_
    by_contra hnot
    exact hmissing ⟨i, List.mem_range.1 hi, hnot⟩
  have hwhile : ns.takeWhile (· < length) = List.range length := by
    rw [takeWhile_eq_filter, hfilter, hrange]
    exact hns.imp fun hab hb => decide_eq_true (Nat.lt_trans hab (of_decide_eq_true hb))
  have htake := List.prefix_iff_eq_take.1 (List.takeWhile_prefix (l := ns) (· < length))
  rw [hwhile, List.length_range] at htake
  rw [hrange, ← htake]

theorem entries_sort (D : Doubles) (ha : a.Regular) :
    entries D true a = a.elements ∨ entries D true a = a.elements.filter Option.isSome := by
  match a with
  | .fast cells others => exact .inl (elements_fast cells others).symm
  | .slow length properties extensible =>
    obtain ⟨ns, hindices, hsorted, hmem⟩ :=
      njsArrayIndices_natural D ha.1 properties.nodupKeys
    have hbelow : (∃ i < length, i ∉ ns) → ∀ n ∈ ns, n < length := fun ⟨i, hi, hnot⟩ n hn =>
      ha.2 ⟨i, hi, fun h => hnot ((hmem i).2 h)⟩ n ((hmem n).1 hn)
    have htake := take_eq_filter hsorted hbelow
    refine .inr ?_
    have hpresent : ∀ n ∈ List.range length, decide (n ∈ ns) =
        (Option.isSome ∘ (Storage.slow length properties extensible).element) n := by
      intro n _
      rw [Bool.eq_iff_iff, decide_eq_true_eq, hmem, ← AList.mem_keys, ← AList.lookup_isSome]
      exact Option.isSome_map.symm ▸ Iff.rfl
    rw [entries, if_pos rfl, hindices]
    dsimp only
    rw [← List.map_take, List.map_map, htake, Storage.elements, List.filter_map]
    exact congrArg _ (List.filter_congr hpresent)

theorem definedOf_filter (es : List (Option (Value V))) :
    definedOf (es.filter Option.isSome) = definedOf es := by
  rw [definedOf, definedOf, List.filterMap_filter]
  congr 1
  funext entry
  cases entry <;> rfl

theorem countP_filter (es : List (Option (Value V))) :
    (es.filter Option.isSome).countP isUndefined = es.countP isUndefined := by
  rw [List.countP_filter]
  congr 1
  funext entry
  rcases entry with _ | _ | _ <;> rfl

theorem length_entries (es : List (Option (Value V))) :
    (definedOf es).length + es.countP isUndefined + es.countP Option.isNone = es.length := by
  induction es with
  | nil => rfl
  | cons entry es ih =>
    rw [List.countP_cons, List.countP_cons, List.length_cons, definedOf] at *
    rcases entry with _ | _ | value
    · simp [isUndefined]
      omega
    · simp [isUndefined]
      omega
    · simp [isUndefined]
      omega

/-- The sorted elements, the undefined values and the holes. -/
def sortedEntries (le : V → V → Bool) (es : List (Option (Value V))) : List (Option (Value V)) :=
  ((definedOf es).mergeSort le).map (fun value => some (some value)) ++
    List.replicate (es.countP isUndefined) (some none) ++
      List.replicate (es.countP Option.isNone) none

theorem length_sortedEntries (le : V → V → Bool) (es : List (Option (Value V))) :
    (sortedEntries le es).length = es.length := by
  rw [sortedEntries, List.length_append, List.length_append, List.length_map,
    List.length_mergeSort, List.length_replicate, List.length_replicate, length_entries]

theorem sortedEntries_nil (le : V → V → Bool) : sortedEntries le [] = [] :=
  List.eq_nil_of_length_eq_zero (length_sortedEntries le [])

/-! ### The methods -/

theorem zipIdx_replicate {α : Type} (x : α) (k n : ℕ) :
    (List.replicate k x).zipIdx n = (List.range k).map fun i => (x, n + i) := by
  refine List.ext_getElem (by simp) fun i _ _ => ?_
  simp

theorem writeBack_eq (values : List V) (nunds holes : ℕ) : (do
      forM values.zipIdx fun (p : V × ℕ) => njsValuePropertyI64Set p.2 (some p.1)
      forM (List.range nunds) fun i => njsValuePropertyI64Set (values.length + i) none
      forM (List.range holes) fun i => njsValuePropertyI64Delete (values.length + nunds + i)) =
    (forM ((values.map (fun value => some (some value)) ++ List.replicate nunds (some none) ++
      List.replicate holes none).zipIdx) fun p => write p.2 p.1 :
        Prog (Storage V) (Error X) PUnit) := by
  rw [List.zipIdx_append, List.zipIdx_append, List.forM_append, List.forM_append, bind_assoc,
    List.zipIdx_map, List.forM_map, zipIdx_replicate, List.forM_map, zipIdx_replicate,
    List.forM_map]
  simp only [List.length_append, List.length_map, List.length_replicate, Nat.zero_add]
  rfl

/-- The array after a sort. -/
structure Sorted (le : V → V → Bool) (a a' : Storage V) : Prop where
  elements : a'.elements = sortedEntries le a.elements
  length : a'.length = a.length
  other : ∀ key, Other a.length key → a'.own key = a.own key

theorem sorted_writeBack (le : V → V → Bool) (ha : a.Plain) :
    ∃ a', exec (ε := Error X) (forM (sortedEntries le a.elements).zipIdx fun p => write p.2 p.1) a =
      (.ok ⟨⟩, a') ∧ Sorted le a a' := by
  have hlength : (sortedEntries le a.elements).length = a.length := by
    rw [length_sortedEntries, length_elements]
  obtain ⟨a', hexec, hw, helement⟩ :=
    exec_writeAll (X := X) (sortedEntries le a.elements) 0 ha (by omega)
  refine ⟨a', hexec, ?_, hw.length, hw.other⟩
  refine List.ext_getElem ?_ fun i hi hi' => ?_
  · rw [length_elements, hw.length, hlength]
  · simp only [Storage.elements, List.getElem_map, List.getElem_range]
    rw [helement, if_pos (by omega), Nat.sub_zero, List.getElem?_eq_getElem hi']
    rfl

variable {D : Doubles} {c : Comparison V X} {le : V → V → Bool}

/-- No answer is a NaN, or there are at most six elements. -/
def Stable (c : Comparison V X) (s : List V) : Prop := c.NeverNan s ∨ s.length ≤ 6

/-- What `sort` does: the array is sorted, or a comparison of two elements threw and the array is
what it was. -/
def SortsArray (D : Doubles) (c : Comparison V X) (le : V → V → Bool) (a : Storage V) : Prop :=
  match exec (njsArrayPrototypeSort D c) a with
  | (.ok _, a') => Sorted le a a'
  | (.error e, a') => a' = a ∧ ∃ x, e = .script x ∧ c.Throws (definedOf a.elements) x

/-- What `toSorted` returns: the sorted elements, with holes as undefined values, or a comparison of
two elements threw. -/
def ReturnsSorted (D : Doubles) (c : Comparison V X) (le : V → V → Bool) (a : Storage V) : Prop :=
  match njsArrayPrototypeToSorted D c a with
  | .ok values => values = (sortedEntries le a.elements).map Option.join
  | .error x => c.Throws (definedOf a.elements) x

theorem sortsArray (hplain : a.Plain) (hregular : a.Regular)
    (hc : c.Induces le (definedOf a.elements)) (hstable : Stable c (definedOf a.elements)) :
    SortsArray D c le a := by
  have hvalues : definedOf (entries D true a) = definedOf a.elements := by
    rcases entries_sort D hregular with h | h
    · rw [h]
    · rw [h, definedOf_filter]
  have hnunds : (entries D true a).countP isUndefined = a.elements.countP isUndefined := by
    rcases entries_sort D hregular with h | h
    · rw [h]
    · rw [h, countP_filter]
  have hlength := length_elements a
  have hcount := length_entries a.elements
  have hsort := njsSortIndexedProperties_post D true a hvalues hc hstable
  rw [SortsArray, njsArrayPrototypeSort, exec_bind_ok (exec_get a)]
  dsimp only
  split_ifs with hzero
  · have hempty : a.elements = [] := List.eq_nil_of_length_eq_zero (hlength.trans hzero)
    rw [exec_pure]
    refine ⟨?_, rfl, fun _ _ => rfl⟩
    rw [hempty, sortedEntries_nil]
  rcases hresult : njsSortIndexedProperties D c true a with e | ⟨values, nunds⟩
  · rw [hresult] at hsort
    dsimp only
    rw [exec_throw]
    exact ⟨rfl, e, rfl, hsort⟩
  rw [hresult] at hsort
  obtain ⟨hvs, hns⟩ := hsort
  rw [if_pos rfl, Nat.add_zero, hnunds] at hns
  have hholes : a.length - (values.length + nunds) = a.elements.countP Option.isNone := by
    rw [hvs, List.length_mergeSort]
    omega
  obtain ⟨a', hexec, hsorted⟩ := sorted_writeBack (X := X) le hplain
  dsimp only
  rw [writeBack_eq, hholes, hvs, hns]
  rw [sortedEntries] at hexec
  rw [hexec]
  exact hsorted

theorem entries_toSorted (D : Doubles) (a : Storage V) : entries D false a = a.elements := by
  match a with
  | .fast cells others => exact (elements_fast cells others).symm
  | .slow length properties extensible => rfl

theorem returnsSorted (hc : c.Induces le (definedOf a.elements))
    (hstable : Stable c (definedOf a.elements)) : ReturnsSorted D c le a := by
  have hlength := length_elements a
  have hcount := length_entries a.elements
  have hsort := njsSortIndexedProperties_post D false a
    (congrArg definedOf (entries_toSorted D a)) hc hstable
  rw [ReturnsSorted, njsArrayPrototypeToSorted]
  split_ifs with hzero
  · have hempty : a.elements = [] := List.eq_nil_of_length_eq_zero (hlength.trans hzero)
    rw [hempty, sortedEntries_nil]
    rfl
  rcases hresult : njsSortIndexedProperties D c false a with e | ⟨values, nunds⟩
  · rw [hresult] at hsort
    exact hsort
  rw [hresult] at hsort
  show values.map some ++ List.replicate (a.length - values.length) none = _
  rw [hsort.1, List.length_mergeSort, sortedEntries, List.map_append, List.map_append,
    List.map_map, List.map_replicate, List.map_replicate, List.append_assoc]
  congr 1
  have hrest : a.length - (definedOf a.elements).length =
      a.elements.countP isUndefined + a.elements.countP Option.isNone := by omega
  rw [hrest, ← List.replicate_append_replicate]
  rfl

/-- A program does not throw an exception of the script. -/
def NeverThrows (p : Prog (Storage V) (Error X) PUnit) : Prop :=
  ∀ a x a', exec p a ≠ (.error (.script x), a')

theorem neverThrows_write (i : ℕ) (entry : Option (Value V)) :
    NeverThrows (write (X := X) i entry) := by
  intro a x a'
  match entry, a with
  | some value, .fast cells others => exact nofun
  | none, .fast cells others => exact nofun
  | some value, .slow length properties extensible =>
    rw [write, njsValuePropertyI64Set, exec_bind_ok (exec_get _)]
    dsimp only
    split
    · split_ifs
      · exact nofun
      · exact nofun
    · split_ifs
      · exact nofun
      · exact nofun
  | none, .slow length properties extensible =>
    rw [write, njsValuePropertyI64Delete, exec_bind_ok (exec_get _)]
    dsimp only
    split
    · split_ifs
      · exact nofun
      · exact nofun
    · exact nofun

theorem neverThrows_forM {ι : Type} {f : ι → Prog (Storage V) (Error X) PUnit}
    (h : ∀ i, NeverThrows (f i)) (l : List ι) : NeverThrows (forM l f) := by
  intro a x a'
  induction l generalizing a with
  | nil => exact nofun
  | cons i l ih =>
    rw [List.forM_cons, exec_bind]
    rcases hexec : exec (f i) a with ⟨e | r, a₁⟩
    · intro heq
      have heq : ((.error e, a₁) : Except (Error X) PUnit × Storage V) =
        (.error (.script x), a') := heq
      obtain ⟨he, -⟩ := Prod.mk.inj heq
      rw [Except.error.inj he] at hexec
      exact h i a x a₁ hexec
    · exact ih a₁

theorem unchanged_of_throws {x : X} {a' : Storage V}
    (h : exec (njsArrayPrototypeSort D c) a = (.error (.script x), a')) : a' = a := by
  rw [njsArrayPrototypeSort, exec_bind_ok (exec_get a)] at h
  dsimp only at h
  split_ifs at h with hzero
  · exact nomatch h
  rcases hresult : njsSortIndexedProperties D c true a with e | ⟨values, nunds⟩
  · rw [hresult] at h
    exact (Prod.mk.inj h).2.symm
  · rw [hresult] at h
    dsimp only at h
    rw [writeBack_eq] at h
    exact absurd h (neverThrows_forM
      (fun (p : Option (Value V) × ℕ) => neverThrows_write p.2 p.1) _ a x a')

def compareNumbers : Comparison ℕ Empty where
  function := some fun m n => .ok (if m < n then .negative else if n < m then .positive else .zero)
  toString _ := .ok []

theorem induces_compareNumbers (s : List ℕ) :
    compareNumbers.Induces (fun m n => decide (m ≤ n)) s := by
  have horder (m n : ℕ) : compareNumbers.order m n =
      .ok (if m < n then -1 else if n < m then 1 else 0) := by
    rw [order_function (c := compareNumbers) rfl]
    split_ifs <;> rfl
  refine ⟨fun a b c hab hbc => ?_, fun a b => ?_, fun a _ b _ r hr => ?_, fun a _ b _ r hr => ?_⟩
  · simp only [decide_eq_true_eq] at *
    omega
  · simpa using Nat.le_total a b
  · rw [horder] at hr
    rw [← Except.ok.inj hr, decide_eq_true_eq]
    split_ifs <;> omega
  · rw [horder] at hr
    rw [← Except.ok.inj hr, decide_eq_true_eq]
    split_ifs <;> omega

def twoNumbers : Storage ℕ := .fast [some (some 2), none, some (some 1)] ∅

/-- A comparison function that returns `undefined`. -/
def undefinedComparison : Comparison ℕ Empty := ⟨some fun _ _ => .ok .nan, fun _ => .ok []⟩

def eightNumbers : Storage ℕ := .fast ((List.range 8).map fun n => some (some (n + 1))) ∅

end Njs.Sorting
