import Njs.Indices.Characters
import Njs.Indices.Keys

/-!
# Iteration over indices

A handler is called for the elements of an array, of a string or of another object. There is a loop
for each representation, and objects with many indices are iterated over through their sorted keys.
-/

namespace Njs.Indices

variable {m n : Type → Type} {V : Type}

/-! ### Targets -/

/-- The properties of an object: its own keys in the order in which they are enumerated, and how an
own or inherited property is read. -/
structure Properties (m : Type → Type) (V : Type) where
  keys : List Key
  nodup : keys.Nodup
  get : Key → Option (m V)
  own : ∀ key ∈ keys, (get key).isSome

/-- A value with elements. A fast array keeps its own elements in cells, where a hole is `none`. -/
inductive Target (m : Type → Type) (V : Type)
  | fastArray (cells : List (Option V)) (properties : Properties m V)
  | string (text : List Char)
  | object (length : ℕ) (properties : Properties m V)
  | primitive

namespace Target

def length : Target m V → ℕ
  | fastArray cells _ => cells.length
  | string text => text.length
  | object length _ => length
  | primitive => 0

end Target

/-! ### Loops -/

/-- `NJS_ARRAY_FAST_OBJECT_LENGTH`. -/
def njsArrayFastObjectLength : ℤ := 1024

def njsFastObject (size : ℤ) : Prop := size ≤ njsArrayFastObjectLength

instance (size : ℤ) : Decidable (njsFastObject size) :=
  inferInstanceAs (Decidable (size ≤ njsArrayFastObjectLength))

section Loops

variable [Monad n] [MonadLiftT m n] (D : Doubles) (character : Bytes → V)
  (handler : Option V → ℤ → n PUnit)

/-- A property is read. One that does not exist is invalid. -/
def read : Option (m V) → n (Option V)
  | some value => some <$> (liftM value : n V)
  | none => pure none

def njsIteratorObjectHandler (properties : Properties m V) (key : Key) (i : ℤ) : n PUnit := do
  handler (← read (properties.get key)) i

def arrayHandler (cells : List (Option V)) (properties : Properties m V) (i : ℕ) : n PUnit :=
  match (cells[i]?).join with
  | some value => handler (some value) i
  | none => njsIteratorObjectHandler handler properties (.index i) i

/-- A sorted key. An infinity is out of range. -/
def keyHandler (properties : Properties m V) (outside : ℚ → Bool) (key : Key) : n PUnit :=
  match (njsStringToIndex key).bind Number.value with
  | some idx =>
    if outside idx then pure ()
    else njsIteratorObjectHandler handler properties key (idx.num.tdiv idx.den)
  | none => pure ()

/-- The characters of a UTF-8 string from a position on, that are numbered from `i` on. -/
def forwardCharacters (s : Bytes) : ℕ → ℕ → ℕ → n PUnit
  | 0, _, _ => pure ()
  | count + 1, p, i => do
    let pos := njsUtf8Next s p
    handler (some (character (slice s p (pos - p)))) i
    forwardCharacters s count pos (i + 1)

/-- The characters of a UTF-8 string before a position, of which the first is number `stop`. -/
def backwardCharacters (s : Bytes) (stop : ℕ) : ℕ → ℕ → n PUnit
  | 0, _ => pure ()
  | count + 1, p => do
    let pos := njsUtf8Prev s p
    handler (some (character (slice s pos (p - pos)))) (stop + count : ℕ)
    backwardCharacters s stop count pos

def njsObjectIterate (value : Target m V) (start stop : ℕ) : n PUnit :=
  match value with
  | .fastArray cells properties =>
    forM (List.range' start (stop - start)) (arrayHandler handler cells properties)
  | .string text =>
    let s := bytes text
    if text.length = s.length then
      forM (List.range' start (stop - start)) fun i => handler (some (character (slice s i 1))) i
    else forwardCharacters character handler s (stop - start) 0 start
  | .object _ properties =>
    if njsFastObject ((stop : ℤ) - start) then
      forM (List.range' start (stop - start)) fun i =>
        njsIteratorObjectHandler handler properties (.index i) i
    else
      forM (njsArrayIndices D properties.keys)
        (keyHandler handler properties fun idx => idx < start ∨ stop ≤ idx)
  | .primitive => pure ()

/-- `njs_object_iterate_reverse`, from `start` down to `stop`. -/
def njsObjectIterateReverse (value : Target m V) (start : ℤ) (stop : ℕ) : n PUnit :=
  let indices := (List.range' stop (start + 1 - stop).toNat).reverse
  match value with
  | .fastArray cells properties => forM indices (arrayHandler handler cells properties)
  | .string text =>
    let s := bytes text
    if text.length = s.length then
      forM indices fun i => handler (some (character (slice s i 1))) i
    else if stop < start + 1 then
      let p := njsUtf8Next s (njsStringUtf8Offset s start.toNat)
      backwardCharacters character handler s stop (start + 1 - stop).toNat p
    else pure ()
  | .object _ properties =>
    if njsFastObject (start - stop) then
      forM indices fun i => njsIteratorObjectHandler handler properties (.index i) i
    else
      forM (njsArrayIndices D properties.keys).reverse
        (keyHandler handler properties fun idx => idx < stop ∨ start < idx)
  | .primitive => pure ()

end Loops

/-! ### Elements -/

namespace Target

variable [Pure m] (character : Bytes → V)

/-- How an element is read, if it exists. -/
def element : Target m V → ℕ → Option (m V)
  | fastArray cells properties, i =>
    match (cells[i]?).join with
    | some value => some (pure value)
    | none => properties.get (.index i)
  | string text, i => text[i]?.map fun c => pure (character (String.utf8EncodeChar c))
  | object _ properties, i => properties.get (.index i)
  | primitive, _ => none

/-- The elements that do not exist are skipped. -/
def skipsAbsent (size : ℤ) : Target m V → Bool
  | object _ _ => !decide (njsFastObject size)
  | primitive => true
  | _ => false

/-- The indices from `lo` on and below `hi` for which a handler is called. -/
def visits (value : Target m V) (size : ℤ) (lo hi : ℕ) : List ℕ :=
  (List.range' lo (hi - lo)).filter fun i =>
    !value.skipsAbsent size || (value.element character i).isSome

/-- The elements are own properties, and the keys that are numbers are integers. -/
def Listed : Target m V → ℕ → ℕ → Prop
  | object _ properties, lo, hi => Integral properties.keys ∧
      ∀ i, lo ≤ i → i < hi → (properties.get (.index i)).isSome → .index i ∈ properties.keys
  | _, _, _ => True

/-- A string begins at its first character or consists of single bytes. -/
def FromStart : Target m V → ℕ → Prop
  | string text, lo => lo = 0 ∨ (bytes text).length = text.length
  | _, _ => True

def visit [Monad n] [MonadLiftT m n] (value : Target m V) (handler : Option V → ℤ → n PUnit)
    (i : ℕ) : n PUnit := do
  handler (← read (value.element character i)) i

end Target

/-! ### The loops are right -/

section Right

variable [Monad m] [Monad n] [LawfulMonad n] [MonadLiftT m n]
  [LawfulMonadLiftT m n] (D : Doubles) (character : Bytes → V) (handler : Option V → ℤ → n PUnit)

omit [Monad m] [MonadLiftT m n] [LawfulMonadLiftT m n] in
theorem forM_filter {α : Type} (l : List α) (p : α → Bool) (f : α → n PUnit) :
    forM (l.filter p) f = forM l fun a => if p a then f a else pure ⟨⟩ := by
  induction l with
  | nil => rfl
  | cons a l ih =>
    rw [List.forM_cons, ← ih]
    by_cases hp : p a
    · rw [List.filter_cons_of_pos hp, List.forM_cons, if_pos hp]
    · rw [List.filter_cons_of_neg hp, if_neg hp, pure_bind]

omit [Monad m] [LawfulMonad n] [MonadLiftT m n] [LawfulMonadLiftT m n] in
theorem forM_congr {α : Type} {l : List α} {f g : α → n PUnit} (h : ∀ a ∈ l, f a = g a) :
    forM l f = forM l g := by
  induction l with
  | nil => rfl
  | cons a l ih =>
    rw [List.forM_cons, List.forM_cons, h a List.mem_cons_self]
    exact congrArg _ (funext fun _ => ih fun b hb => h b (List.mem_cons_of_mem a hb))

theorem read_pure (value : V) : (read (some (pure value : m V)) : n (Option V)) =
    pure (some value) := by
  rw [read, liftM_pure, map_pure]

theorem arrayHandler_eq (cells : List (Option V)) (properties : Properties m V) (i : ℕ) :
    arrayHandler handler cells properties i =
      (Target.fastArray cells properties).visit character handler i := by
  rw [arrayHandler, Target.visit, Target.element]
  rcases (cells[i]?).join with _ | value
  · rfl
  · dsimp only
    rw [read_pure, pure_bind]

variable {text : List Char}

theorem characterHandler_ascii (h : text.length = (bytes text).length) {i : ℕ}
    (hi : i < text.length) : handler (some (character (slice (bytes text) i 1))) i =
      (Target.string text : Target m V).visit character handler i := by
  have hslice := slice_offset hi
  rw [offset_ascii h.symm (Nat.le_of_lt hi), offset_ascii h.symm hi, Nat.succ_sub (Nat.le_refl i),
    Nat.sub_self]
    at hslice
  rw [hslice, Target.visit, Target.element, List.getElem?_eq_getElem hi, Option.map_some,
    read_pure, pure_bind]

theorem characterHandler_offset {text : List Char} {i : ℕ} (hi : i < text.length) :
    handler (some (character (slice (bytes text) (offset text i)
      (offset text (i + 1) - offset text i)))) i =
      (Target.string text : Target m V).visit character handler i := by
  rw [slice_offset hi, Target.visit, Target.element, List.getElem?_eq_getElem hi, Option.map_some,
    read_pure, pure_bind]

theorem forwardCharacters_eq {count i : ℕ} (h : i + count ≤ text.length) :
    forwardCharacters character handler (bytes text) count (offset text i) i =
      forM (List.range' i count) ((Target.string text : Target m V).visit character handler) := by
  induction count generalizing i with
  | zero => rfl
  | succ count ih =>
    have hi : i < text.length := by omega
    rw [forwardCharacters]
    rw [njsUtf8Next_offset hi, characterHandler_offset (m := m) character handler hi,
      ih (by omega), List.range'_succ, List.forM_cons]

theorem backwardCharacters_eq {stop count : ℕ} (h : stop + count ≤ text.length) :
    backwardCharacters character handler (bytes text) stop count (offset text (stop + count)) =
      forM (List.range' stop count).reverse
        ((Target.string text : Target m V).visit character handler) := by
  induction count with
  | zero => rfl
  | succ count ih =>
    have hi : stop + count < text.length := by omega
    rw [backwardCharacters, ← Nat.add_assoc, njsUtf8Prev_offset hi,
      characterHandler_offset (m := m) character handler hi, ih (by omega), List.range'_concat,
      List.reverse_append, List.reverse_singleton, List.singleton_append, List.forM_cons,
      Nat.one_mul]

omit [Monad m] in
theorem forM_keys {properties : Properties m V} (hint : Integral properties.keys) {lo hi : ℕ}
    (hown : ∀ i, lo ≤ i → i < hi → (properties.get (.index i)).isSome →
      .index i ∈ properties.keys) {outside : ℚ → Bool}
    (houtside : ∀ k : ℤ, outside k = false ↔ lo ≤ k ∧ k < hi) :
    ∃ ks : List ℤ, njsArrayIndices D properties.keys = ks.map .int ∧
      ks.filter (fun (k : ℤ) => !outside k) = ((List.range' lo (hi - lo)).filter fun i =>
        (properties.get (.index i)).isSome).map Nat.cast := by
  obtain ⟨ks, hindices, hsorted, hmem⟩ := njsArrayIndices_integral D hint properties.nodup
  refine ⟨ks, hindices, ?_⟩
  have hasymm : ∀ a b : ℤ, a ∈ ks.filter (fun (k : ℤ) => !outside k) →
      b ∈ ((List.range' lo (hi - lo)).filter fun i =>
        (properties.get (.index i)).isSome).map Nat.cast → a < b → b < a → a = b :=
    fun a b _ _ hab hba => by omega
  have hright : (((List.range' lo (hi - lo)).filter fun i =>
      (properties.get (.index i)).isSome).map (Nat.cast : ℕ → ℤ)).Pairwise (· < ·) := by
    rw [List.pairwise_map]
    exact ((List.pairwise_lt_range').filter _).imp fun h => Int.ofNat_lt.2 h
  have hleft := hsorted.filter fun (k : ℤ) => !outside k
  refine List.Perm.eq_of_pairwise hasymm hleft hright ((List.perm_ext_iff_of_nodup
    (hleft.imp fun h => Int.ne_of_lt h) (hright.imp fun h => Int.ne_of_lt h)).2 fun k => ?_)
  simp only [List.mem_filter, List.mem_map, List.mem_range'_1, hmem, Bool.not_eq_true']
  rw [houtside]
  constructor
  · rintro ⟨hk, hlo, hhi⟩
    lift k to ℕ using by omega
    rw [int_natCast] at hk
    exact ⟨k, ⟨by omega, properties.own _ hk⟩, rfl⟩
  · rintro ⟨i, ⟨hi, hget⟩, rfl⟩
    rw [int_natCast]
    exact ⟨hown i (by omega) (by omega) hget, by omega, by omega⟩

omit [LawfulMonad n] [LawfulMonadLiftT m n] [Monad m] in
theorem keyHandler_int (properties : Properties m V) (outside : ℚ → Bool) (k : ℤ) :
    keyHandler handler properties outside (.int k) =
      if !outside k then njsIteratorObjectHandler handler properties (.int k) k
      else pure ⟨⟩ := by
  rw [keyHandler]
  simp only [Key.int, njsStringToIndex, Option.bind_some, Number.value, Rat.num_intCast,
    Rat.den_intCast]
  rw [Int.natCast_one, Int.tdiv_one]
  cases outside k <;> rfl

omit [LawfulMonadLiftT m n] in
theorem forM_keyHandler {properties : Properties m V} {length lo hi : ℕ} {outside : ℚ → Bool}
    (hlisted : (Target.object length properties).Listed lo hi)
    (houtside : ∀ k : ℤ, outside k = false ↔ lo ≤ k ∧ k < hi) :
    let visits := (List.range' lo (hi - lo)).filter fun i => (properties.get (.index i)).isSome
    forM (njsArrayIndices D properties.keys) (keyHandler handler properties outside) =
      forM visits ((Target.object length properties).visit character handler) ∧
    forM (njsArrayIndices D properties.keys).reverse (keyHandler handler properties outside) =
      forM visits.reverse ((Target.object length properties).visit character handler) := by
  obtain ⟨ks, hindices, hks⟩ := forM_keys D hlisted.1 hlisted.2 houtside
  have hvisit : ∀ i : ℕ, njsIteratorObjectHandler handler properties (.int i) i =
      (Target.object length properties).visit character handler i := by
    intro i
    rw [int_natCast]
    rfl
  have hkey : keyHandler handler properties outside ∘ Key.int = fun (k : ℤ) =>
      if !outside k then njsIteratorObjectHandler handler properties (.int k) k else pure ⟨⟩ :=
    funext fun k => keyHandler_int handler properties outside k
  constructor
  · rw [hindices, List.forM_map, ← Function.comp_def, hkey, ← forM_filter, hks, List.forM_map]
    exact forM_congr fun i _ => hvisit i
  · rw [hindices, ← List.map_reverse, List.forM_map, ← Function.comp_def, hkey, ← forM_filter,
      List.filter_reverse, hks, ← List.map_reverse, List.forM_map]
    exact forM_congr fun i _ => hvisit i

theorem visits_all {value : Target m V} {size : ℤ} (h : value.skipsAbsent size = false)
    (lo hi : ℕ) : value.visits character size lo hi = List.range' lo (hi - lo) := by
  rw [Target.visits, h]
  exact List.filter_eq_self.2 fun _ _ => rfl

theorem visits_present {value : Target m V} {size : ℤ} (h : value.skipsAbsent size = true)
    (lo hi : ℕ) : value.visits character size lo hi =
      (List.range' lo (hi - lo)).filter fun i => (value.element character i).isSome := by
  rw [Target.visits, h]
  rfl

theorem njsObjectIterate_eq (value : Target m V) {start stop : ℕ} (hstop : stop ≤ value.length)
    (hstart : value.FromStart start)
    (hlisted : njsFastObject ((stop : ℤ) - start) ∨ value.Listed start stop) :
    njsObjectIterate D character handler value start stop =
      forM (value.visits character ((stop : ℤ) - start) start stop)
        (value.visit character handler) := by
  match value with
  | .fastArray cells properties =>
    rw [visits_all character rfl]
    exact forM_congr fun i _ => arrayHandler_eq character handler cells properties i
  | .string text =>
    have hstop : stop ≤ text.length := hstop
    rw [visits_all character rfl, njsObjectIterate]
    split_ifs with hascii
    · refine forM_congr fun i hi => characterHandler_ascii character handler hascii ?_
      rw [List.mem_range'_1] at hi
      omega
    · rcases hstart with rfl | h
      · have hcount : 0 + (stop - 0) ≤ text.length := by omega
        exact forwardCharacters_eq character handler hcount
      · exact absurd h.symm hascii
  | .object length properties =>
    rw [njsObjectIterate]
    split_ifs with hfast
    · rw [visits_all character (by rw [Target.skipsAbsent, decide_eq_true hfast]; rfl)]
      rfl
    rw [visits_present character (by rw [Target.skipsAbsent, decide_eq_false hfast]; rfl)]
    refine (forM_keyHandler D character handler (hlisted.resolve_left hfast) fun k => ?_).1
    rw [decide_eq_false_iff_not]
    have hlo : ((k : ℚ) < start) ↔ k < start := by
      rw [← Int.cast_natCast, Int.cast_lt]
    have hhi : ((stop : ℚ) ≤ k) ↔ (stop : ℤ) ≤ k := by
      rw [← Int.cast_natCast, Int.cast_le]
    rw [hlo, hhi]
    omega
  | .primitive =>
    rw [visits_present character rfl]
    have hnone : (List.range' start (stop - start)).filter (fun i =>
        ((Target.primitive : Target m V).element character i).isSome) = [] :=
      List.filter_eq_nil_iff.2 fun _ _ => Bool.false_ne_true
    rw [hnone]
    rfl

theorem njsObjectIterateReverse_eq (value : Target m V) {start : ℤ} {stop : ℕ}
    (hstart : start < value.length)
    (hlisted : njsFastObject (start - stop) ∨ value.Listed stop (start + 1).toNat) :
    njsObjectIterateReverse D character handler value start stop =
      forM (value.visits character (start - stop) stop (start + 1).toNat).reverse
        (value.visit character handler) := by
  have hcount : (start + 1 - stop).toNat = (start + 1).toNat - stop := by omega
  match value with
  | .fastArray cells properties =>
    rw [visits_all character rfl, njsObjectIterateReverse, hcount]
    exact forM_congr fun i _ => arrayHandler_eq character handler cells properties i
  | .string text =>
    have hstart : start < text.length := hstart
    rw [visits_all character rfl, njsObjectIterateReverse, hcount]
    dsimp only
    split_ifs with hascii hsome
    · refine forM_congr fun i hi => characterHandler_ascii character handler hascii ?_
      rw [List.mem_reverse, List.mem_range'_1] at hi
      omega
    · have hlt : start.toNat < text.length := by omega
      have hend : start.toNat + 1 = stop + ((start + 1).toNat - stop) := by omega
      rw [njsStringUtf8Offset_eq hlt, njsUtf8Next_offset hlt, hend]
      exact backwardCharacters_eq character handler (by omega)
    · have hzero : (start + 1).toNat - stop = 0 := by omega
      rw [hzero]
      rfl
  | .object length properties =>
    rw [njsObjectIterateReverse, hcount]
    split_ifs with hfast
    · rw [visits_all character (by rw [Target.skipsAbsent, decide_eq_true hfast]; rfl)]
      rfl
    rw [visits_present character (by rw [Target.skipsAbsent, decide_eq_false hfast]; rfl)]
    refine (forM_keyHandler D character handler (hlisted.resolve_left hfast) fun k => ?_).2
    rw [decide_eq_false_iff_not]
    have hlo : ((k : ℚ) < stop) ↔ k < stop := by
      rw [← Int.cast_natCast, Int.cast_lt]
    have hhi : ((start : ℚ) < k) ↔ start < k := Int.cast_lt
    rw [hlo, hhi]
    omega
  | .primitive =>
    rw [visits_present character rfl]
    have hnone : (List.range' stop ((start + 1).toNat - stop)).filter (fun i =>
        ((Target.primitive : Target m V).element character i).isSome) = [] :=
      List.filter_eq_nil_iff.2 fun _ _ => Bool.false_ne_true
    rw [hnone]
    rfl

end Right

end Njs.Indices
