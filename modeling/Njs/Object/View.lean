import Njs.Object.Query

/-!
# What scripts see of an object

The own properties of an object, wherever they are kept: in the vector of an array, in the
characters of a String object, in the private table, or in the shared table, whose properties are
copied when they are first asked for. Vectors are shorter than 2^31.
-/

namespace Njs.Object

open Atom PropHash

/-- What scripts see of an object. -/
structure View (V F : Type) where
  property : UInt32 → Option (Property V F)
  /-- `array->length`, which a property with the handler `njs_array_length` reads as. -/
  arrayLength : Option ℕ
  extensible : Bool

section View

variable {ν H V F : Type} [PropHash H (Property V F)] {N : Names ν} {host : Host V F}

variable (host) in
def Obj.entry (o : Obj H V) (k : UInt32) : Option (Property V F) :=
  match find o.hash k with
  | some p => if p.isWhiteout then none else some p
  | none =>
    (find o.sharedHash k).map fun p => { p with slot := njsPropPrivateCopy host k p.slot }

/-- An own property in a vector or in a string. -/
def Obj.element (o : Obj H V) (k : UInt32) : Option (Property V F) :=
  match o.kind with
  | .fast start =>
    if njsAtomIsNumber k.toNat then start[njsAtomNumber k.toNat]?.join.map ecw else none
  | .string chars => njsStringPropertyQuery chars k
  | _ => none

variable (host) in
def Obj.property (o : Obj H V) (k : UInt32) : Option (Property V F) :=
  (o.element k).or (o.entry host k)

/-- `array->length`. -/
def Kind.arrayLength : Kind V → Option ℕ
  | .fast start => some start.length
  | .slow length => some length
  | _ => none

variable (host) in
/-- What scripts see of an object. -/
def Obj.view (o : Obj H V) : View V F where
  property := o.property host
  arrayLength := o.kind.arrayLength
  extensible := o.extensible

variable (N host) in
/-- What the property called `length` of a slow array reads as; `length` is `array->length`. -/
def Obj.tableLength (length : ℕ) (o : Obj H V) : ℕ :=
  ((o.entry host N.length).map fun p => p.slot.arrayLength host length).getD 0

variable (N host) in
/-- What `njs_object_length` answers for an array. -/
def Obj.length (o : Obj H V) : ℕ :=
  match o.kind with
  | .fast start => start.length
  | .slow length => o.tableLength N host length
  | _ => 0

/-- The vector of an array is shorter than 2^31, and no shared property is deleted. -/
structure Obj.Sound (o : Obj H V) : Prop where
  sized : ∀ {start}, o.kind = .fast start → start.length < 2 ^ 31
  shared : ∀ {k p}, find o.sharedHash k = some p → p.isWhiteout = false

/-! ### Tables -/

theorem privateCopy_isWhiteout (k : UInt32) (p : Property V F) :
    ({ p with slot := njsPropPrivateCopy host k p.slot } : Property V F).isWhiteout =
      p.isWhiteout := by
  obtain ⟨slot, e, c, w⟩ := p
  cases slot with
  | accessor getter setter =>
    cases getter with
    | none => rfl
    | some getter =>
      rw [Property.isWhiteout, njsPropPrivateCopy]
      split_ifs <;> rfl
  | _ => rfl

def tableLevel (p : Option (Property V F)) (whiteout : Bool) : Level V F :=
  match p with
  | some p => .found (.prop p)
  | none => .declined whiteout

/-- Two objects that differ in their private tables only. -/
structure SameBut (o o' : Obj H V) : Prop where
  kind : o'.kind = o.kind
  sharedHash : o'.sharedHash = o.sharedHash
  extensible : o'.extensible = o.extensible

theorem SameBut.refl (o : Obj H V) : SameBut o o := ⟨rfl, rfl, rfl⟩

variable {o o' : Obj H V} {k : UInt32} {level : Level V F} {start : List (Option V)}

theorem SameBut.trans {o'' : Obj H V} (h : SameBut o o') (h' : SameBut o' o'') : SameBut o o'' :=
  ⟨h'.kind.trans h.kind, h'.sharedHash.trans h.sharedHash, h'.extensible.trans h.extensible⟩

theorem SameBut.sound (h : SameBut o o') (ho : o.Sound) : o'.Sound where
  sized hk := ho.sized (h.kind ▸ hk)
  shared hk := ho.shared (h.sharedHash ▸ hk)

theorem SameBut.view (h : SameBut o o') (hentry : o'.entry host = o.entry host) :
    o'.view host = o.view host := by
  have hproperty : o'.property host = o.property host := by
    funext k
    rw [Obj.property, Obj.property, hentry, Obj.element, Obj.element, h.kind]
  rw [Obj.view, Obj.view, hproperty, h.kind, h.extensible]

theorem hashQuery_spec (ho : o.Sound) (h : hashQuery host k o = .ok (o', level)) :
    SameBut o o' ∧ o'.entry host = o.entry host ∧
      level = tableLevel (o.entry host k) (find o.hash k).isSome ∧
        ∀ j ≠ k, find o'.hash j = find o.hash j := by
  rw [hashQuery] at h
  rw [Obj.entry]
  cases hfind : find o.hash k with
  | some p =>
    rw [hfind] at h
    simp only at h
    split_ifs at h with hwhite <;> cases h
    · exact ⟨.refl o, rfl, by simp [hwhite, tableLevel], fun _ _ => rfl⟩
    · exact ⟨.refl o, rfl, by simp [hwhite, tableLevel], fun _ _ => rfl⟩
  | none =>
    rw [hfind] at h
    cases hshared : find o.sharedHash k with
    | none =>
      rw [hshared] at h
      cases h
      exact ⟨.refl o, rfl, rfl, fun _ _ => rfl⟩
    | some p =>
      rw [hshared] at h
      simp only at h
      split at h
      case h_2 => cases h
      case h_1 hash hins =>
        cases h
        refine ⟨⟨rfl, rfl, rfl⟩, ?_, rfl, fun j hj => by
          rw [find_insert hins, Function.update_of_ne hj]⟩
        funext j
        rw [Obj.entry, Obj.entry, find_insert hins, Function.update_apply]
        split_ifs with hj
        · subst hj
          simp only [privateCopy_isWhiteout, ho.shared hshared, hfind, hshared]
          rfl
        · rfl

/-! ### Vectors -/

theorem indexAtom_eq_iff {i : ℕ} (hi : i < 2 ^ 31) :
    k = indexAtom i ↔ njsAtomIsNumber k.toNat = true ∧ njsAtomNumber k.toNat = i := by
  have hnat : (indexAtom i).toNat = njsNumberAtom i := by
    rw [indexAtom, UInt32.toNat_ofNat', njsNumberAtom_eq hi]
    omega
  constructor
  · rintro rfl
    rw [hnat]
    exact njsNumberAtom_spec hi
  · rintro ⟨hatom, rfl⟩
    have hk := toNat_of_njsAtomIsNumber hatom
    refine UInt32.toNat_inj.mp ?_
    rw [hnat, njsNumberAtom_eq hi]
    omega

theorem slowLoop_spec {h h' : H} {i : ℕ} (hslow : slowLoop h i start = some h')
    (hsize : i + start.length ≤ 2 ^ 31) (k : UInt32) :
    find h' k = (if njsAtomIsNumber k.toNat ∧ i ≤ njsAtomNumber k.toNat then
        start[njsAtomNumber k.toNat - i]?.join.map ecw else none).or (find h k) := by
  induction start generalizing h i with
  | nil =>
    obtain rfl := Option.some.inj hslow
    simp
  | cons v start ih =>
    rw [List.length_cons] at hsize
    -- What the rest of the loop adds is found behind the first element.
    have hrest (h₁ : H) (hslow : slowLoop h₁ (i + 1) start = some h')
        (hne : ¬(njsAtomIsNumber k.toNat = true ∧ njsAtomNumber k.toNat = i)) :
        find h' k = (if njsAtomIsNumber k.toNat ∧ i ≤ njsAtomNumber k.toNat then
            (v :: start)[njsAtomNumber k.toNat - i]?.join.map ecw else none).or (find h₁ k) := by
      rw [ih hslow (by omega)]
      by_cases hatom : njsAtomIsNumber k.toNat = true
      · by_cases hlt : i + 1 ≤ njsAtomNumber k.toNat
        · have hsub : njsAtomNumber k.toNat - i = njsAtomNumber k.toNat - (i + 1) + 1 := by omega
          rw [if_pos ⟨hatom, hlt⟩, if_pos ⟨hatom, by omega⟩, hsub, List.getElem?_cons_succ]
        · rw [if_neg fun h => hlt h.2, if_neg fun h => hne ⟨hatom, by omega⟩]
      · rw [if_neg fun h => hatom h.1, if_neg fun h => hatom h.1]
    cases v with
    | none =>
      rw [slowLoop] at hslow
      by_cases hk : njsAtomIsNumber k.toNat = true ∧ njsAtomNumber k.toNat = i
      · rw [ih hslow (by omega), if_neg fun h => by omega, if_pos ⟨hk.1, hk.2.ge⟩, hk.2,
          Nat.sub_self]
        rfl
      · exact hrest h hslow hk
    | some v =>
      rw [slowLoop] at hslow
      split at hslow
      case h_2 => cases hslow
      case h_1 h₁ hins =>
        by_cases hk : njsAtomIsNumber k.toNat = true ∧ njsAtomNumber k.toNat = i
        · rw [ih hslow (by omega), if_neg fun h => by omega, if_pos ⟨hk.1, hk.2.ge⟩, hk.2,
            Nat.sub_self, find_insert hins, (indexAtom_eq_iff (by omega)).mpr hk,
            Function.update_self]
          rfl
        · rw [hrest h₁ hslow hk, find_insert hins, Function.update_of_ne]
          exact fun h => hk ((indexAtom_eq_iff (by omega)).mp h)

variable (host) in
theorem njsArrayConvertToSlowArray_spec (ho : o.Sound) (hkind : o.kind = .fast start)
    (h : njsArrayConvertToSlowArray o = .ok o') :
    o'.kind = .slow start.length ∧ o'.Sound ∧ o'.view host = o.view host ∧
      ∀ k, find o'.hash k = (o.element k).or (find o.hash k) := by
  rw [njsArrayConvertToSlowArray, hkind] at h
  simp only at h
  split at h
  case h_2 => cases h
  case h_1 hash hslow =>
    cases h
    have hfind (k : UInt32) : find hash k = (o.element k).or (find o.hash k) := by
      have hsize := ho.sized hkind
      rw [slowLoop_spec hslow (by omega), Obj.element, hkind]
      simp
    refine ⟨rfl, ⟨fun hk => (by cases hk), ho.shared⟩, ?_, hfind⟩
    have hproperty (k : UInt32) : Obj.property host { o with kind := .slow start.length, hash } k =
        o.property host k := by
      rw [Obj.property, Obj.property, Obj.entry, Obj.entry, hfind, Obj.element]
      cases hk : o.element k with
      | none => simp
      | some p =>
        have hecw : p.isWhiteout = false := by
          rw [Obj.element, hkind] at hk
          simp only at hk
          split_ifs at hk
          obtain ⟨v, -, rfl⟩ := Option.map_eq_some_iff.mp hk
          rfl
        simp [hecw]
    rw [Obj.view, Obj.view, hkind]
    simp only [Kind.arrayLength, View.mk.injEq, and_true]
    exact funext hproperty

/-! ### The length of an array -/

omit [PropHash H (Property V F)] in
theorem element_length (hN : N.Lawful) (o : Obj H V) :
    (o.element N.length : Option (Property V F)) = none := by
  have hatom : ¬njsAtomIsNumber N.length.toNat = true := fun h => by
    have htext := hN.text_number _ h
    rw [hN.text_length] at htext
    exact ne_decimal (by decide) _ (Option.some.inj htext)
  rw [Obj.element]
  cases o.kind with
  | fast start => exact if_neg hatom
  | string chars => exact if_neg hatom
  | _ => rfl

theorem length_ne (hN : N.Lawful) {n : ℕ} (hk : N.IsIndex k n) : k ≠ N.length := by
  rintro rfl
  have htext := hk.1
  rw [hN.text_length] at htext
  exact ne_decimal (by decide) n (Option.some.inj htext)

theorem njsObjectLength_spec (ho : o.Sound) {n : ℕ} (h : njsObjectLength N host o = .ok (o', n)) :
    SameBut o o' ∧ o'.entry host = o.entry host ∧ n = o.length N host ∧
      ∀ k ≠ N.length, find o'.hash k = find o.hash k := by
  rw [njsObjectLength] at h
  rw [Obj.length]
  cases hkind : o.kind with
  | slow length =>
    rw [hkind] at h
    simp only at h
    split at h
    case h_1 o₁ p hquery =>
      cases h
      obtain ⟨hsame, hentry, hlevel, hne⟩ := hashQuery_spec ho hquery
      refine ⟨hsame, hentry, ?_, hne⟩
      simp only [Obj.tableLength]
      cases hp : o.entry host N.length with
      | none =>
        rw [hp] at hlevel
        cases hlevel
      | some q =>
        rw [hp] at hlevel
        cases hlevel
        rfl
    case h_2 o₁ level hnot hquery =>
      cases h
      obtain ⟨hsame, hentry, hlevel, hne⟩ := hashQuery_spec ho hquery
      refine ⟨hsame, hentry, ?_, hne⟩
      simp only [Obj.tableLength]
      cases hp : o.entry host N.length with
      | none => rfl
      | some q =>
        rw [hp] at hlevel
        exact (hnot q hlevel).elim
    case h_3 => cases h
  | _ =>
    rw [hkind] at h
    cases h
    exact ⟨.refl o, rfl, rfl, fun _ _ => rfl⟩

variable (host) in
/-- The property called `length` of an array that is `length` long. -/
def lengthProperty (length : ℕ) (writable : Bool) : Property V F :=
  ⟨.value (host.ofNat length), false, false, writable⟩

theorem njsArrayLengthRedefine_spec {n : ℕ} {writable : Bool}
    (h : njsArrayLengthRedefine N host n writable o = .ok o') :
    SameBut o o' ∧ find o'.hash =
        Function.update (find o.hash) N.length (some (lengthProperty host n writable)) := by
  rw [njsArrayLengthRedefine] at h
  split at h
  case h_2 => cases h
  case h_1 hash hins =>
    cases h
    exact ⟨⟨rfl, rfl, rfl⟩, find_insert hins⟩

/-- What the query finds in the table of an extensible slow array. -/
def slowLevel (p : Option (Property V F)) : Level V F :=
  match p with
  | some p => if p.isWhiteout then .declined true else .found (.prop p)
  | none => .done

theorem slowArrayQuery_spec (ho : o.Sound) (hk : k ≠ N.length) {index : ℕ}
    (h : slowArrayQuery N host index k o = .ok (o', level)) :
    SameBut o o' ∧ level = slowLevel (find o.hash k) ∧
      (∀ j ≠ N.length, find o'.hash j = find o.hash j) ∧
      (index < o.length N host → o'.entry host = o.entry host) ∧
      (o.length N host ≤ index →
        find o'.hash N.length = some (lengthProperty host (index + 1) true)) := by
  rw [slowArrayQuery] at h
  cases hlen : njsObjectLength N host o with
  | error e =>
    rw [hlen] at h
    cases h
  | ok r =>
    obtain ⟨o₁, n⟩ := r
    obtain ⟨hsame, hentry, hn, hne⟩ := njsObjectLength_spec ho hlen
    have hend {o₂ : Obj H V} (hfind : find o₂.hash k = find o.hash k)
        (h : (match find o₂.hash k with
          | some p =>
            if p.isWhiteout then pure (o₂, .declined true) else pure (o₂, .found (.prop p))
          | none => pure (o₂, .done)) = (Except.ok (o', level) : Except Error _)) :
        o₂ = o' ∧ level = slowLevel (find o.hash k) := by
      rw [hfind] at h
      rw [slowLevel.eq_def]
      split at h
      · split_ifs at h with hwhite <;> cases h
        · exact ⟨rfl, by simp [*]⟩
        · exact ⟨rfl, by simp [*]⟩
      · cases h
        exact ⟨rfl, by simp [*]⟩
    rw [hlen] at h
    change (do
      let o ←
        if index + 1 > n then njsArrayLengthRedefine N host (index + 1) true o₁ else pure o₁
      match find o.hash k with
      | some p => if p.isWhiteout then pure (o, .declined true) else pure (o, .found (.prop p))
      | none => pure (o, .done)) = (Except.ok (o', level) : Except Error _) at h
    rw [← hn]
    split_ifs at h with hgrow
    · cases hredefine : njsArrayLengthRedefine N host (index + 1) true o₁ with
      | error e =>
        rw [hredefine] at h
        cases h
      | ok o₂ =>
        rw [hredefine] at h
        obtain ⟨hsame₂, hfind₂⟩ := njsArrayLengthRedefine_spec hredefine
        have hne₂ (j : UInt32) (hj : j ≠ N.length) : find o₂.hash j = find o.hash j := by
          rw [hfind₂, Function.update_of_ne hj, hne j hj]
        obtain ⟨rfl, hlevel⟩ := hend (hne₂ k hk) h
        refine ⟨hsame.trans hsame₂, hlevel, hne₂, fun hlt => by omega, fun _ => ?_⟩
        rw [hfind₂, Function.update_self]
    · obtain ⟨rfl, hlevel⟩ := hend (hne k hk) h
      exact ⟨hsame, hlevel, hne, fun _ => hentry, fun hle => by omega⟩

/-! ### A level of the query -/

variable (N) in
def Obj.preparedIndex (k : UInt32) (o : Obj H V) : Option ℕ :=
  if o.kind.isArray ∧ o.extensible = true then N.arrayIndex k else none

variable (N host) in
/-- What a level of the query for a write finds. -/
def Obj.setLevel (k : UInt32) (o : Obj H V) : Level V F :=
  match o.preparedIndex N k, o.kind with
  | some n, .fast start =>
    if n < njsArrayLargeObjectLength then .found (.ref n (start.length ≤ n))
    else slowLevel ((o.element k).or (find o.hash k))
  | some _, _ => slowLevel (find o.hash k)
  | none, .string chars =>
    match njsStringPropertyQuery chars k with
    | some p => .found (.scratch p)
    | none => tableLevel (o.entry host k) (find o.hash k).isSome
  | none, _ => tableLevel (o.entry host k) (find o.hash k).isSome

variable (N host) in
/-- The preparation makes an array longer: the index is at its length or above it. -/
def Obj.Grows (k : UInt32) (o : Obj H V) : Prop :=
  ∃ n, o.preparedIndex N k = some n ∧
    match o.kind with
    | .fast start =>
      if n < njsArrayLargeObjectLength then start.length ≤ n
      else o.tableLength N host start.length ≤ n
    | .slow length => o.tableLength N host length ≤ n
    | _ => False

variable (host) in
/-- What a level does for a write: it finds what `setLevel` says, and what scripts see changes just
if an array gets longer. -/
structure Prepared (N : Names ν) (k : UInt32) (o o' : Obj H V) (level : Level V F) : Prop where
  level_eq : level = o.setLevel N host k
  sound : o'.Sound
  view_eq : ¬o.Grows N host k → o'.view host = o.view host
  view_ne : o.Grows N host k → o'.view host ≠ o.view host

theorem hashQuery_whiteout {p : Property V F} (hfind : find o.hash k = some p)
    (hwhite : p.isWhiteout = true) : hashQuery host k o = .ok (o, .declined true) := by
  rw [hashQuery, hfind]
  simp only [hwhite, if_true]

theorem hashQuery_slowLevel {w : Bool} (h : slowLevel (find o.hash k) = (.declined w : Level V F)) :
    hashQuery host k o = .ok (o, .declined w) := by
  rw [slowLevel.eq_def] at h
  split at h
  case h_1 p hfind =>
    split_ifs at h with hwhite
    cases h
    exact hashQuery_whiteout hfind hwhite
  case h_2 => cases h

theorem njsArrayPropertyQuery_fast (hkind : o.kind = .fast start) (n : ℕ) (k : UInt32) :
    njsArrayPropertyQuery N host .set n k o =
      if o.extensible = false then pure (o, .declined false)
      else if n < njsArrayLargeObjectLength then
        if start.length ≤ n then
          pure ({ o with kind := .fast (start ++ List.replicate (n + 1 - start.length) none) },
            .found (.ref n true))
        else pure (o, .found (.ref n false))
      else (do
        let o ← njsArrayConvertToSlowArray o
        slowArrayQuery N host n k o) := by
  rw [njsArrayPropertyQuery.eq_def, hkind]

theorem njsArrayPropertyQuery_slow {length : ℕ} (hkind : o.kind = .slow length) (n : ℕ)
    (k : UInt32) :
    njsArrayPropertyQuery N host .set n k o =
      if o.extensible = false then pure (o, .declined false) else slowArrayQuery N host n k o := by
  rw [njsArrayPropertyQuery.eq_def, hkind]

theorem levelQuery_unprepared (ho : o.Sound) (hindex : o.preparedIndex N k = none)
    (h : levelQuery N host .set k o = .ok (o', level)) : Prepared host N k o o' level := by
  have hgrows : ¬o.Grows N host k := fun ⟨n, hn, _⟩ => by
    rw [hindex] at hn
    cases hn
  have hdeclined (hset : o.setLevel N host k =
      tableLevel (o.entry host k) (find o.hash k).isSome)
      (hkind : kindQuery N host .set k o = .ok (o, .declined false)) :
      Prepared host N k o o' level := by
    rw [levelQuery, hkind] at h
    obtain ⟨hsame, hentry, hlevel, -⟩ := hashQuery_spec ho h
    exact ⟨hlevel.trans hset.symm, hsame.sound ho, fun _ => hsame.view hentry,
      fun h => absurd h hgrows⟩
  have harray (hkind : o.kind.isArray = true) :
      N.arrayIndex k = none ∨ ∃ n, N.arrayIndex k = some n ∧ o.extensible = false := by
    rw [Obj.preparedIndex, hkind] at hindex
    cases hk : N.arrayIndex k with
    | none => exact .inl rfl
    | some n => exact .inr ⟨n, rfl, by simpa [hk] using hindex⟩
  cases hkind : o.kind with
  | string chars =>
    cases hchar : (njsStringPropertyQuery chars k : Option (Property V F)) with
    | none =>
      refine hdeclined ?_ ?_
      · rw [Obj.setLevel.eq_def, hindex, hkind]
        simp only [hchar]
      · rw [kindQuery, hkind]
        simp only [hchar]
        rfl
    | some p =>
      have hquery : kindQuery N host .set k o = .ok (o, .found (.scratch p)) := by
        rw [kindQuery, hkind]
        simp only [hchar]
        rfl
      rw [levelQuery, hquery] at h
      cases h
      refine ⟨?_, ho, fun _ => rfl, fun h => absurd h hgrows⟩
      rw [Obj.setLevel.eq_def, hindex, hkind]
      simp only [hchar]
  | fast start =>
    refine hdeclined ?_ ?_
    · rw [Obj.setLevel.eq_def, hindex, hkind]
    rw [kindQuery, hkind]
    obtain hk | ⟨n, hk, hext⟩ := harray (by rw [hkind]; rfl)
    · rw [hk]
      rfl
    · rw [hk]
      exact (njsArrayPropertyQuery_fast hkind n k).trans (if_pos hext)
  | slow length =>
    refine hdeclined ?_ ?_
    · rw [Obj.setLevel.eq_def, hindex, hkind]
    rw [kindQuery, hkind]
    obtain hk | ⟨n, hk, hext⟩ := harray (by rw [hkind]; rfl)
    · rw [hk]
      rfl
    · rw [hk]
      exact (njsArrayPropertyQuery_slow hkind n k).trans (if_pos hext)
  | object =>
    refine hdeclined ?_ (by rw [kindQuery, hkind]; rfl)
    rw [Obj.setLevel.eq_def, hindex, hkind]
  | function n name =>
    refine hdeclined ?_ (by rw [kindQuery, hkind]; rfl)
    rw [Obj.setLevel.eq_def, hindex, hkind]

theorem slowArrayQuery_prepared (hN : N.Lawful)
    (hlength : ∀ n < 2 ^ 32, host.toLength (host.ofNat n) = n) {n length : ℕ} (hk : N.IsIndex k n)
    (ho : o.Sound) (hkind : o.kind = .slow length)
    (h : (do
      let (o, level) ← slowArrayQuery N host n k o
      match level with
      | .declined _ => hashQuery host k o
      | level => pure (o, level)) = (Except.ok (o', level) : Except Error _)) :
    level = slowLevel (find o.hash k) ∧ o'.Sound ∧
      (¬o.tableLength N host length ≤ n → o'.view host = o.view host) ∧
      (o.tableLength N host length ≤ n → o'.view host ≠ o.view host) := by
  have hne := length_ne hN hk
  have hlen : o.length N host = o.tableLength N host length := by
    rw [Obj.length, hkind]
  cases hquery : slowArrayQuery N host n k o with
  | error e =>
    rw [hquery] at h
    cases h
  | ok r =>
    obtain ⟨o₁, level₁⟩ := r
    obtain ⟨hsame, hlevel, hfind, hentry, hredefined⟩ := slowArrayQuery_spec ho hne hquery
    rw [hlen] at hentry hredefined
    -- The tables have a deleted property if the search is to go on.
    obtain ⟨rfl, rfl⟩ : o₁ = o' ∧ level₁ = level := by
      rw [hquery] at h
      change (match level₁ with
        | .declined _ => hashQuery host k o₁
        | level => pure (o₁, level)) = Except.ok (o', level) at h
      split at h
      case h_1 w =>
        rw [← hfind k hne] at hlevel
        rw [hashQuery_slowLevel hlevel.symm] at h
        cases h
        exact ⟨rfl, rfl⟩
      case h_2 =>
        cases h
        exact ⟨rfl, rfl⟩
    refine ⟨hlevel, hsame.sound ho, fun hlt => hsame.view (hentry (by omega)), fun hle heq => ?_⟩
    have hproperty := congrArg (fun v => v.property N.length) heq
    have hfound := hredefined hle
    simp only [Obj.view, Obj.property, element_length hN, Option.none_or] at hproperty
    have hafter : o₁.entry host N.length = some (lengthProperty host (n + 1) true) := by
      rw [Obj.entry, hfound]
      rfl
    rw [hafter] at hproperty
    have hvalue : o.tableLength N host length = n + 1 := by
      rw [Obj.tableLength, ← hproperty]
      exact hlength _ (by have := hk.2; omega)
    omega

theorem levelQuery_set (hN : N.Lawful) (hlength : ∀ n < 2 ^ 32, host.toLength (host.ofNat n) = n)
    (ho : o.Sound) (h : levelQuery N host .set k o = .ok (o', level)) :
    Prepared host N k o o' level := by
  cases hindex : o.preparedIndex N k with
  | none => exact levelQuery_unprepared ho hindex h
  | some n =>
    obtain ⟨⟨harray, hext⟩, hn⟩ := (Option.ite_none_right_eq_some ..).mp hindex
    have hk := hN.arrayIndex_iff.mp hn
    have hnot : ¬o.extensible = false := by rw [hext]; decide
    have hgrows {p : Prop} (hp : (match o.kind with
        | .fast start =>
          if n < njsArrayLargeObjectLength then start.length ≤ n
          else o.tableLength N host start.length ≤ n
        | .slow length => o.tableLength N host length ≤ n
        | _ => False) = p) : o.Grows N host k ↔ p := by
      subst hp
      refine ⟨fun ⟨m, hm, h⟩ => ?_, fun h => ⟨n, hindex, h⟩⟩
      obtain rfl := Option.some.inj (hm.symm.trans hindex)
      exact h
    rw [levelQuery] at h
    cases hkind : o.kind with
    | fast start =>
      rw [kindQuery, hkind] at h
      simp only [hn] at h
      rw [njsArrayPropertyQuery_fast hkind, if_neg hnot] at h
      by_cases hlarge : n < njsArrayLargeObjectLength
      · have hset : o.setLevel N host k = .found (.ref n (start.length ≤ n)) := by
          rw [Obj.setLevel, hindex, hkind]
          exact if_pos hlarge
        have hgrows := hgrows (p := start.length ≤ n) (by rw [hkind]; exact if_pos hlarge)
        rw [if_pos hlarge] at h
        by_cases hle : start.length ≤ n
        · rw [if_pos hle] at h
          cases h
          have hsize : (start ++ List.replicate (n + 1 - start.length) none).length = n + 1 := by
            rw [List.length_append, List.length_replicate]
            omega
          refine ⟨by rw [hset]; simp [hle], ⟨fun hk => ?_, ho.shared⟩,
            fun h => absurd (hgrows.mpr hle) h, fun _ heq => ?_⟩
          · cases hk
            rw [hsize]
            have : njsArrayLargeObjectLength = 32768 := rfl
            omega
          · have hlen := congrArg View.arrayLength heq
            simp only [Obj.view, Kind.arrayLength, hkind, hsize, Option.some.injEq] at hlen
            omega
        · rw [if_neg hle] at h
          cases h
          exact ⟨by rw [hset]; simp [hle], ho, fun _ => rfl, fun h => absurd (hgrows.mp h) hle⟩
      · have hset : o.setLevel N host k = slowLevel ((o.element k).or (find o.hash k)) := by
          rw [Obj.setLevel, hindex, hkind]
          exact if_neg hlarge
        have hgrows := hgrows (p := o.tableLength N host start.length ≤ n)
          (by rw [hkind]; exact if_neg hlarge)
        rw [if_neg hlarge] at h
        cases hconvert : njsArrayConvertToSlowArray o with
        | error e =>
          rw [hconvert] at h
          cases h
        | ok o₁ =>
          rw [hconvert] at h
          obtain ⟨hslow, ho₁, hview, hfind⟩ := njsArrayConvertToSlowArray_spec host ho hkind
            hconvert
          have hlen : o₁.tableLength N host start.length = o.tableLength N host start.length := by
            have hproperty := congrArg (fun v => v.property N.length) hview
            simp only [Obj.view, Obj.property, element_length hN, Option.none_or] at hproperty
            rw [Obj.tableLength, Obj.tableLength, hproperty]
          obtain ⟨hlevel, hsound, heq, hne⟩ :=
            slowArrayQuery_prepared hN hlength hk ho₁ hslow h
          rw [hlen, hview] at heq hne
          exact ⟨by rw [hset, hlevel, hfind], hsound, fun h => heq fun hle => h (hgrows.mpr hle),
            fun h => hne (hgrows.mp h)⟩
    | slow length =>
      rw [kindQuery, hkind] at h
      simp only [hn] at h
      rw [njsArrayPropertyQuery_slow hkind, if_neg hnot] at h
      have hgrows := hgrows (p := o.tableLength N host length ≤ n) (by rw [hkind])
      obtain ⟨hlevel, hsound, heq, hne⟩ := slowArrayQuery_prepared hN hlength hk ho hkind h
      refine ⟨?_, hsound, fun h => heq fun hle => h (hgrows.mpr hle), fun h => hne (hgrows.mp h)⟩
      rw [Obj.setLevel, hindex, hkind]
      exact hlevel
    | object | function | string =>
      rw [hkind] at harray
      cases harray

end View

end Njs.Object
