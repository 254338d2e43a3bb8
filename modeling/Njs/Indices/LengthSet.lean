import Mathlib.Data.List.TakeWhile
import Mathlib.Data.Rat.Floor
import Njs.Indices.Keys
import Njs.Lib.Text

/-!
# The length of a slow array

`njs_array_length_set` deletes elements from the last sorted key on. Every key that is a number is
compared with the new length, also those that are not array indices.
-/

namespace Njs.Indices

variable {V : Type} (D : Doubles) (configurable : V → Bool)

/-- The own properties with string keys in the order of their enumeration, `length` among them, and
the value of `length`. -/
structure SlowArray (V : Type) where
  props : List (Key × V)
  length : ℕ
  deriving DecidableEq

inductive LengthError
  /-- "Invalid array length". -/
  | rangeError
  /-- "Cannot delete property". -/
  | typeError (key : Key)
  deriving DecidableEq

def njsNumberToLength : Option Number → ℕ
  | none | some .negZero | some .negInfinity => 0
  | some .infinity => 2 ^ 53 - 1
  | some (.finite q) => if 2 ^ 53 - 1 < q then 2 ^ 53 - 1 else ⌊q⌋.toNat

/-- `idx >= length`. -/
def atLeast (length : ℕ) : Number → Bool
  | .finite q => length ≤ q
  | .negZero => length = 0
  | .infinity => true
  | .negInfinity => false

def Key.isFrom (length : ℕ) (key : Key) : Bool :=
  (njsStringToIndex key).any (atLeast length)

/-- `njs_value_property_delete`, which throws. -/
def njsValuePropertyDelete (key : Key) (props : List (Key × V)) :
    Except LengthError (List (Key × V)) :=
  match props.find? (·.1 = key) with
  | none => .ok props
  | some prop =>
    if configurable prop.2 then .ok (props.filter (·.1 ≠ key)) else .error (.typeError key)

def deleteLoop (length : ℕ) : List Key → List (Key × V) → Option LengthError × List (Key × V)
  | [], props => (none, props)
  | key :: keys, props =>
    if key.isFrom length then
      match njsValuePropertyDelete configurable key props with
      | .ok props => deleteLoop length keys props
      | .error e => (some e, props)
    else deleteLoop length keys props

/-- The keys in the order in which the loop comes to them. -/
def visited (props : List (Key × V)) : List Key :=
  (njsArrayIndices D (props.map Prod.fst)).reverse

def njsArrayLengthSet (num : Option Number) (array : SlowArray V) :
    Option LengthError × SlowArray V :=
  let length : ℕ := njsNumberToLength num % 2 ^ 32
  if num.bind Number.value ≠ some (length : ℚ) then (some .rangeError, array)
  else if length < array.length then
    match deleteLoop configurable length (visited D array.props) array.props with
    | (none, props) => (none, ⟨props, length⟩)
    | (some e, props) => (some e, ⟨props, array.length⟩)
  else (none, { array with length })

/-! ### What it is for -/

def Key.arrayIndex? : Key → Option ℕ
  | .number (.finite q) => if q.den = 1 ∧ 0 ≤ q.num ∧ q.num < 2 ^ 32 - 1 then some q.num.toNat else
      none
  | _ => none

def Key.isElementFrom (n : ℕ) (key : Key) : Bool := key.arrayIndex?.any (n ≤ ·)

def SlowArray.truncated (array : SlowArray V) (n : ℕ) : SlowArray V :=
  ⟨array.props.filter (!·.1.isElementFrom n), n⟩

/-- The array is truncated, or the elements behind the last one that cannot be deleted are
deleted. -/
def Truncates (array : SlowArray V) (n : ℕ) : Option LengthError × SlowArray V → Prop
  | (e, array') =>
    (∀ p ∈ array.props, p.1.isElementFrom n → configurable p.2) ∧ e = none ∧
        array' = array.truncated n ∨
      ∃ p ∈ array.props, ∃ i, p.1.arrayIndex? = some i ∧ n ≤ i ∧ ¬configurable p.2 ∧
        (∀ q ∈ array.props, q.1.isElementFrom (i + 1) → configurable q.2) ∧
          array' = array.truncated (i + 1)

/-! ### Keys that are numbers -/

theorem compares_class (keys : List Key) :
    Sorting.Compares (ε := Empty) (fun a b => .ok (njsArrayIndicesHandler D a b))
      (fun a b => (njsStringToIndex b).isSome → (njsStringToIndex a).isSome) (· ∈ keys) where
  le_of_nonpos := by
    rintro (x | s) (y | t) _ - - ⟨⟩ hr hb
    · rfl
    · rfl
    · exact absurd hr (show ¬(1 : ℤ) ≤ 0 by decide)
    · exact hb
  ge_of_nonneg := by
    rintro (x | s) (y | t) _ - - ⟨⟩ hr hb
    · rfl
    · exact absurd hr (show ¬(0 : ℤ) ≤ -1 by decide)
    · rfl
    · exact hb
  trans _ _ _ hab hbc hc := hab (hbc hc)
  total {a b} _ _ := by
    rcases a with x | s
    · exact .inl fun _ => rfl
    · exact .inr fun h => absurd h Bool.false_ne_true

/-- However the numbers are compared, all of them are found. -/
theorem mem_njsArrayIndices {keys : List Key} {key : Key} :
    key ∈ njsArrayIndices D keys ↔ key ∈ keys ∧ (njsStringToIndex key).isSome := by
  obtain ⟨hperm, hsorted⟩ := njsArrayKeys_sorts D (compares_class D keys)
  rw [njsArrayIndices, takeWhile_eq_filter hsorted, List.mem_filter, hperm.mem_iff]

theorem arrayIndex?_eq_some {key : Key} {i : ℕ} (h : key.arrayIndex? = some i) :
    key = .index i := by
  match key with
  | .number (.finite q) =>
    rw [Key.arrayIndex?] at h
    split_ifs at h with hq
    have hi := Option.some.inj h
    have hnum : q.num = i := by omega
    rw [Key.index, ← Rat.num_div_den q, hq.1, hnum]
    simp

theorem isElementFrom_iff {n : ℕ} {key : Key} :
    key.isElementFrom n ↔ ∃ i, key.arrayIndex? = some i ∧ n ≤ i := by
  rw [Key.isElementFrom, Option.any_eq_true]
  simp only [decide_eq_true_eq]

theorem isFrom_of_isElementFrom {n : ℕ} {key : Key} (h : key.isElementFrom n) : key.isFrom n := by
  obtain ⟨i, hi, hle⟩ := isElementFrom_iff.1 h
  rw [arrayIndex?_eq_some hi]
  exact decide_eq_true (Nat.cast_le.2 hle)

/-! ### The loop -/

section

variable {configurable} {n : ℕ} {props : List (Key × V)}

theorem find?_key (hnodup : (props.map Prod.fst).Nodup) {p : Key × V} (hp : p ∈ props) :
    props.find? (·.1 = p.1) = some p := by
  refine List.find?_eq_some_iff_append.2 ?_
  obtain ⟨l, r, rfl⟩ := List.append_of_mem hp
  refine ⟨decide_eq_true rfl, l, r, rfl, fun q hq => ?_⟩
  rw [List.map_append, List.nodup_append] at hnodup
  have hne := hnodup.2.2 q.1 (List.mem_map_of_mem hq) p.1 (List.mem_map_of_mem List.mem_cons_self)
  simpa using hne

theorem njsValuePropertyDelete_eq {key : Key} (hkey : ∀ p ∈ props, p.1 = key → configurable p.2) :
    njsValuePropertyDelete configurable key props = .ok (props.filter (·.1 ≠ key)) := by
  rw [njsValuePropertyDelete]
  cases hfind : props.find? (·.1 = key) with
  | none =>
    rw [List.find?_eq_none] at hfind
    simp only
    rw [List.filter_eq_self.2 fun p hp => by simpa using hfind p hp]
  | some p =>
    have hp : p.1 = key := by simpa using List.find?_some hfind
    simp only [hkey p (List.mem_of_find?_eq_some hfind) hp, if_true]

/-- Properties that can be deleted are deleted. -/
theorem deleteLoop_append {keys rest : List Key}
    (h : ∀ p ∈ props, p.1 ∈ keys → p.1.isFrom n → configurable p.2) :
    deleteLoop configurable n (keys ++ rest) props =
      deleteLoop configurable n rest (props.filter fun p => ¬(p.1 ∈ keys ∧ p.1.isFrom n)) := by
  induction keys generalizing props with
  | nil => simp
  | cons key keys ih =>
    rw [List.cons_append, deleteLoop]
    split_ifs with hkey
    · rw [njsValuePropertyDelete_eq fun p hp heq =>
        h p hp (heq ▸ List.mem_cons_self) (heq ▸ hkey)]
      refine (ih fun p hp hmem =>
        h p (List.mem_of_mem_filter hp) (List.mem_cons_of_mem _ hmem)).trans ?_
      rw [List.filter_filter]
      congr 1
      refine List.filter_congr fun p _ => ?_
      by_cases hp : p.1 = key <;> simp [hp, hkey]
    · refine (ih fun p hp hmem => h p hp (List.mem_cons_of_mem _ hmem)).trans ?_
      congr 1
      refine List.filter_congr fun p _ => ?_
      by_cases hp : p.1 = key <;> simp [hp, hkey]

theorem deleteLoop_stops {before after : List Key} (hnodup : (props.map Prod.fst).Nodup)
    (h : ∀ p ∈ props, p.1 ∈ before → p.1.isFrom n → configurable p.2) {q : Key × V}
    (hq : q ∈ props) (hnot : q.1 ∉ before) (hfrom : q.1.isFrom n) (hkept : ¬configurable q.2) :
    deleteLoop configurable n (before ++ q.1 :: after) props =
      (some (.typeError q.1), props.filter fun p => ¬(p.1 ∈ before ∧ p.1.isFrom n)) := by
  have hsub : (props.filter fun p => ¬(p.1 ∈ before ∧ p.1.isFrom n)).Sublist props :=
    List.filter_sublist
  have hmem : q ∈ props.filter fun p => ¬(p.1 ∈ before ∧ p.1.isFrom n) :=
    List.mem_filter.2 ⟨hq, decide_eq_true fun h => hnot h.1⟩
  rw [deleteLoop_append h, deleteLoop, if_pos hfrom, njsValuePropertyDelete,
    find?_key ((hsub.map _).nodup hnodup) hmem]
  simp only [if_neg hkept]

theorem filter_eq_filter_iff {α : Type} {l : List α} {p q : α → Bool} :
    l.filter p = l.filter q ↔ ∀ a ∈ l, p a = q a := by
  refine ⟨fun h a ha => Bool.eq_iff_iff.2 ?_, List.filter_congr⟩
  have hmem : a ∈ l.filter p ↔ a ∈ l.filter q := by rw [h]
  rwa [List.mem_filter, List.mem_filter, and_iff_right ha, and_iff_right ha] at hmem

end

/-! ### The length -/

variable {configurable} {array : SlowArray V} {n : ℕ}

theorem njsArrayLengthSet_eq (hlength : array.length < 2 ^ 32) (hn : n < array.length) :
    njsArrayLengthSet D configurable (some (.finite n)) array =
      match deleteLoop configurable n (visited D array.props) array.props with
      | (none, props) => (none, ⟨props, n⟩)
      | (some e, props) => (some e, ⟨props, array.length⟩) := by
  have hto : njsNumberToLength (some (.finite n)) % 2 ^ 32 = n := by
    have hle : ¬(2 ^ 53 - 1 : ℚ) < n := by
      have : (n : ℚ) ≤ (2 ^ 53 - 1 : ℕ) := Nat.cast_le.2 (by omega)
      norm_num at this ⊢
      exact this
    rw [njsNumberToLength, if_neg hle, Int.floor_natCast, Int.toNat_natCast,
      Nat.mod_eq_of_lt (by omega)]
  rw [njsArrayLengthSet, hto, if_neg (fun h => h rfl), if_pos hn]

theorem mem_visited {props : List (Key × V)} {p : Key × V} (hp : p ∈ props)
    (h : p.1.isFrom n) : p.1 ∈ visited D props := by
  rw [visited, List.mem_reverse, mem_njsArrayIndices]
  obtain ⟨x, hx, -⟩ := (Option.any_eq_true _ _).1 h
  exact ⟨List.mem_map_of_mem hp, hx ▸ rfl⟩

/-- The loop goes on behind a key. -/
def passes (configurable : V → Bool) (n : ℕ) (props : List (Key × V)) (key : Key) : Bool :=
  props.all fun p => p.1 = key → key.isFrom n → configurable p.2

/-- The keys that the loop comes to before one that it cannot delete. -/
def reached (configurable : V → Bool) (n : ℕ) (props : List (Key × V)) : List Key :=
  (visited D props).takeWhile (passes configurable n props)

theorem passes_iff {props : List (Key × V)} {key : Key} : passes configurable n props key ↔
      ∀ p ∈ props, p.1 = key → key.isFrom n → configurable p.2 := by
  simp only [passes, List.all_eq_true, decide_eq_true_eq]

/-- The array is truncated just if the keys that are numbers from the length on are indices that can
be deleted, or the last element before the old length cannot be deleted and the elements behind it
are those that the loop deletes. -/
theorem truncates_iff (hnodup : (array.props.map Prod.fst).Nodup) (hlength : array.length < 2 ^ 32)
    (hn : n < array.length) :
    Truncates configurable array n (njsArrayLengthSet D configurable (some (.finite n)) array) ↔
      (∀ p ∈ array.props, p.1.isFrom n → p.1.isElementFrom n ∧ configurable p.2) ∨
        (∃ p ∈ array.props, p.1.arrayIndex? = some (array.length - 1) ∧ ¬configurable p.2) ∧
          ∀ p ∈ array.props, p.1 ∈ reached D configurable n array.props ∧ p.1.isFrom n ↔
            p.1.isElementFrom array.length := by
  rw [njsArrayLengthSet_eq D hlength hn]
  have hfrom {p : Key × V} {i : ℕ} (hi : p.1.arrayIndex? = some i) (hle : n ≤ i) : p.1.isFrom n :=
    isFrom_of_isElementFrom (isElementFrom_iff.2 ⟨i, hi, hle⟩)
  by_cases hall : ∀ p ∈ array.props, p.1.isFrom n → configurable p.2
  · have hloop := @deleteLoop_append V configurable n array.props (visited D array.props) []
      fun p hp _ => hall p hp
    have hfilter : (array.props.filter fun p => ¬(p.1 ∈ visited D array.props ∧ p.1.isFrom n)) =
        array.props.filter fun p => !p.1.isFrom n := by
      refine List.filter_congr fun p hp => ?_
      by_cases h : p.1.isFrom n
      · simp [h, mem_visited D hp h]
      · simp [h]
    rw [List.append_nil, deleteLoop, hfilter] at hloop
    simp only [hloop]
    constructor
    · rintro (⟨-, -, heq⟩ | ⟨p, hp, i, hi, hle, hnot, -⟩)
      · have hsame := filter_eq_filter_iff.1 (congrArg SlowArray.props heq)
        refine .inl fun p hp h => ⟨?_, hall p hp h⟩
        simpa [h] using hsame p hp
      · exact absurd (hall p hp (hfrom hi hle)) hnot
    rintro (h | ⟨⟨p, hp, hi, hnot⟩, -⟩)
    · refine .inl ⟨fun p hp hel => hall p hp (isFrom_of_isElementFrom hel), rfl, ?_⟩
      rw [SlowArray.truncated]
      congr 1
      refine List.filter_congr fun p hp => ?_
      rw [Bool.eq_iff_iff.2 ⟨fun hp' => (h p hp hp').1, isFrom_of_isElementFrom⟩]
    · exact absurd (hall p hp (hfrom hi (by omega))) hnot
  · -- The loop stops at the first key of a property that cannot be deleted.
    obtain ⟨q, hq, hqfrom, hkept⟩ : ∃ q ∈ array.props, q.1.isFrom n ∧ ¬configurable q.2 := by
      simpa using hall
    have hbefore : ∀ p ∈ array.props, p.1 ∈ reached D configurable n array.props → p.1.isFrom n →
        configurable p.2 :=
      fun p hp hmem => passes_iff.1 (List.mem_takeWhile_imp hmem) p hp rfl
    obtain ⟨v, hv, hvfrom, hvkept, after, hvisited⟩ : ∃ v ∈ array.props, v.1.isFrom n ∧
        ¬configurable v.2 ∧
          ∃ after, visited D array.props = reached D configurable n array.props ++ v.1 :: after := by
      rcases hdrop : (visited D array.props).dropWhile (passes configurable n array.props)
        with _ | ⟨key, after⟩
      · have hpass := List.dropWhile_eq_nil_iff.1 hdrop q.1 (mem_visited D hq hqfrom)
        exact absurd (passes_iff.1 hpass q hq rfl hqfrom) hkept
      have hstop := List.head_dropWhile_not (passes configurable n array.props)
        (by rw [hdrop]; exact List.cons_ne_nil _ _)
      simp only [hdrop, List.head_cons, ← Bool.not_eq_true, passes_iff] at hstop
      push Not at hstop
      obtain ⟨v, hv, rfl, hvfrom, hvkept⟩ := hstop
      exact ⟨v, hv, hvfrom, hvkept, after,
        by rw [← hdrop]; exact List.takeWhile_append_dropWhile.symm⟩
    have hloop := @deleteLoop_stops V configurable n array.props _ after hnodup hbefore _ hv
      (fun hmem => hvkept (hbefore v hv hmem hvfrom)) hvfrom hvkept
    rw [← hvisited] at hloop
    simp only [hloop]
    constructor
    · rintro (⟨-, hnone, -⟩ | ⟨p, hp, i, hi, -, hpkept, -, heq⟩)
      · exact nomatch hnone
      · obtain ⟨hprops, hlen⟩ := (SlowArray.mk.injEq ..).mp heq
        refine .inr ⟨⟨p, hp, by rw [hi, hlen]; rfl, hpkept⟩, fun p hp => ?_⟩
        have hsame := Bool.not_inj ((decide_not ..).symm.trans (filter_eq_filter_iff.1 hprops p hp))
        rw [hlen, ← hsame, decide_eq_true_eq]
    rintro (h | ⟨⟨p, hp, hi, hpkept⟩, hdeleted⟩)
    · exact absurd (h v hv hvfrom).2 hvkept
    have hlen : array.length - 1 + 1 = array.length := by omega
    refine .inr ⟨p, hp, _, hi, by omega, hpkept, fun p hp hel => ?_, ?_⟩
    · rw [hlen] at hel
      obtain ⟨hmem, hpfrom⟩ := (hdeleted p hp).2 hel
      exact hbefore p hp hmem hpfrom
    · rw [SlowArray.truncated, hlen]
      congr 1
      exact List.filter_congr fun p hp => by simp only [hdeleted p hp, decide_not]; simp

def twoElements : SlowArray ℕ := ⟨[(.text (Text.lit "length"), 0), (.index 1, 1), (.index 0, 2)], 2⟩

theorem truncates_twoElements : Truncates (0 < ·) twoElements 1
    (njsArrayLengthSet exactDoubles (0 < ·) (some (.finite 1)) twoElements) :=
  (truncates_iff (n := 1) exactDoubles (by decide +kernel) (by decide) (by decide)).2
    (.inl (by decide +kernel))

/-- A property that is no element. -/
def fraction : SlowArray ℕ := ⟨[(.text (Text.lit "length"), 0), (.number (.finite (3 / 2)), 1)], 2⟩

theorem not_truncates : ¬∀ (D : Doubles) (configurable : ℕ → Bool) (array : SlowArray ℕ) (n : ℕ),
    (array.props.map Prod.fst).Nodup → array.length < 2 ^ 32 → n < array.length →
      Truncates configurable array n
        (njsArrayLengthSet D configurable (some (.finite n)) array) := by
  intro h
  have hrun : njsArrayLengthSet exactDoubles (0 < ·) (some (.finite (1 : ℕ))) fraction =
      (none, ⟨[(.text (Text.lit "length"), 0)], 1⟩) := by decide +kernel
  have htruncates := h exactDoubles (0 < ·) fraction 1 (by decide +kernel) (by decide) (by decide)
  rw [hrun] at htruncates
  obtain ⟨-, -, heq⟩ | ⟨p, hp, i, hi, -⟩ := htruncates
  · exact absurd heq (by decide +kernel)
  · have hnone : ∀ p ∈ fraction.props, p.1.arrayIndex? = none := by decide +kernel
    exact nomatch (hnone p hp).symm.trans hi

end Njs.Indices
