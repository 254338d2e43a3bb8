import Njs.Indices.Iterate

/-!
# Methods that iterate over an array
-/

namespace Njs.Indices

/-- What the methods use of values. -/
structure Values (V : Type) where
  undefined : V
  boolean : Bool → V
  number : ℤ → V
  string : Bytes → V
  array : ℕ → (ℕ → Option V) → V
  isTrue : V → Bool
  sameZero : V → V → Bool
  strictEqual : V → V → Bool

inductive MethodError
  | notCallable
  | invalidLength
  | emptyReduce
  deriving DecidableEq

/-- An array that a method makes. -/
structure NewArray (V : Type) where
  length : ℕ
  elements : ℕ → Option V

/-- What the handlers write: `retval`, `args->argument` and `args->data`. -/
structure Frame (V : Type) where
  retval : V
  argument : Option V
  data : NewArray V

/-- A loop, which is left with an exception for `NJS_DONE`. -/
abbrev Loop (m : Type → Type) (V : Type) : Type → Type := ExceptT PUnit (StateT (Frame V) m)

/-- A function that is called with `this` and arguments. -/
abbrev Function (m : Type → Type) (V : Type) : Type := V → List V → m V

section Handlers

variable {m : Type → Type} [Monad m] {V : Type} (vs : Values V)

/-- `njs_array_iterator_call`. The index is a `uint32_t`. -/
def njsArrayIteratorCall (function : Function m V) (object : V) (entry : V) (n : ℤ) :
    Loop m V V := do
  let frame ← get
  let argument := frame.argument.getD vs.undefined
  let retval ← (liftM (function argument [entry, vs.number (n % 2 ^ 32), object]) : Loop m V V)
  modify fun frame => { frame with retval }
  return retval

def done (retval : V) : Loop m V PUnit := do
  modify fun frame => { frame with retval }
  throw ⟨⟩

variable (function : Function m V) (object : V)

def njsArrayHandlerEvery (entry : Option V) (n : ℤ) : Loop m V PUnit :=
  match entry with
  | some entry => do
    let retval ← njsArrayIteratorCall vs function object entry n
    if vs.isTrue retval then pure () else done (vs.boolean false)
  | none => pure ()

def njsArrayHandlerSome (entry : Option V) (n : ℤ) : Loop m V PUnit :=
  match entry with
  | some entry => do
    let retval ← njsArrayIteratorCall vs function object entry n
    if vs.isTrue retval then done (vs.boolean true) else pure ()
  | none => pure ()

def njsArrayHandlerIncludes (entry : Option V) (_ : ℤ) : Loop m V PUnit := do
  let frame ← get
  if vs.sameZero (frame.argument.getD vs.undefined) (entry.getD vs.undefined) then
    done (vs.boolean true)
  else pure ()

/-- An invalid entry is equal to no value. -/
def njsArrayHandlerIndexOf (entry : Option V) (n : ℤ) : Loop m V PUnit :=
  match entry with
  | some entry => do
    let frame ← get
    if vs.strictEqual (frame.argument.getD vs.undefined) entry then done (vs.number n) else pure ()
  | none => pure ()

def njsArrayHandlerForEach (entry : Option V) (n : ℤ) : Loop m V PUnit :=
  match entry with
  | some entry => do
    let _ ← njsArrayIteratorCall vs function object entry n
    pure ()
  | none => pure ()

def njsArrayHandlerFind (entry : Option V) (n : ℤ) : Loop m V PUnit := do
  let copy := entry.getD vs.undefined
  let retval ← njsArrayIteratorCall vs function object copy n
  if vs.isTrue retval then done copy else pure ()

def njsArrayHandlerFindIndex (entry : Option V) (n : ℤ) : Loop m V PUnit := do
  let copy := entry.getD vs.undefined
  let retval ← njsArrayIteratorCall vs function object copy n
  if vs.isTrue retval then done (vs.number n) else pure ()

def njsArrayHandlerReduce (entry : Option V) (n : ℤ) : Loop m V PUnit :=
  match entry with
  | some entry => do
    let frame ← get
    match frame.argument with
    | none => set { frame with argument := some entry }
    | some argument =>
      let arguments := [argument, entry, vs.number n, object]
      let argument ← (liftM (function vs.undefined arguments) : Loop m V V)
      modify fun frame => { frame with argument := some argument }
  | none => pure ()

/-- `njs_array_add`. -/
def NewArray.add (array : NewArray V) (value : V) : NewArray V where
  length := array.length + 1
  elements := Function.update array.elements array.length (some value)

def njsArrayHandlerFilter (entry : Option V) (n : ℤ) : Loop m V PUnit :=
  match entry with
  | some copy => do
    let retval ← njsArrayIteratorCall vs function object copy n
    if vs.isTrue retval then modify fun frame => { frame with data := frame.data.add copy }
    else pure ()
  | none => pure ()

def NewArray.put (array : NewArray V) (i : ℕ) (value : Option V) : NewArray V :=
  { array with elements := Function.update array.elements i value }

/-- `NJS_ARRAY_SPARE`. -/
def njsArraySpare : ℕ := 8

/-- `NJS_ARRAY_LARGE_OBJECT_LENGTH`. -/
def njsArrayLargeObjectLength : ℕ := 32768

def NewArray.fast (array : NewArray V) : Bool :=
  array.length + njsArraySpare ≤ njsArrayLargeObjectLength

def njsArrayHandlerMap (entry : Option V) (n : ℤ) : Loop m V PUnit := do
  modify fun frame =>
    if frame.data.fast then { frame with data := frame.data.put n.toNat none } else frame
  match entry with
  | some entry =>
    let retval ← njsArrayIteratorCall vs function object entry n
    modify fun frame => { frame with data := frame.data.put n.toNat (some retval) }
  | none => pure ()

end Handlers

/-! ### The methods -/

/-- `njs_array_type`, and the types of `njs_array_prototype_reverse_iterator`. -/
inductive ArrayType
  | every
  | some
  | includes
  | indexOf
  | forEach
  | find
  | findIndex
  | reduce
  | filter
  | map
  deriving DecidableEq

/-- `NJS_ARRAY_FUNC`. -/
def ArrayType.isFunc : ArrayType → Bool
  | includes | indexOf => false
  | _ => true

/-- The arguments of a method: the callback function, if the first argument is one, the value of the
first argument, the second argument, if it is there, and its value as an integer. -/
structure Arguments (m : Type → Type) (V : Type) where
  function : Option (Function m V)
  first : V
  second : Option V
  integer : ℤ
  /-- The value that is passed to the callback function as the array. -/
  object : V

section Methods

variable {m : Type → Type} [Monad m] [MonadExceptOf MethodError m] {V : Type} (D : Doubles)
  (vs : Values V) (args : Arguments m V)

def ArrayType.handler (type : ArrayType) (function : Function m V) :
    Option V → ℤ → Loop m V PUnit :=
  match type with
  | .every => njsArrayHandlerEvery vs function args.object
  | .some => njsArrayHandlerSome vs function args.object
  | .includes => njsArrayHandlerIncludes vs
  | .indexOf => njsArrayHandlerIndexOf vs
  | .forEach => njsArrayHandlerForEach vs function args.object
  | .find => njsArrayHandlerFind vs function args.object
  | .findIndex => njsArrayHandlerFindIndex vs function args.object
  | .reduce => njsArrayHandlerReduce vs function args.object
  | .filter => njsArrayHandlerFilter vs function args.object
  | .map => njsArrayHandlerMap vs function args.object

/-- `iargs.argument`. Only `reduce` has none if the second argument is missing. -/
def ArrayType.argument (type : ArrayType) : Option V :=
  if type.isFunc then
    if type = .reduce then args.second else Option.some (args.second.getD vs.undefined)
  else Option.some args.first

/-- `iargs.from`. -/
def ArrayType.start (type : ArrayType) (length : ℕ) : ℕ :=
  if type.isFunc then 0
  else if args.integer < 0 then (args.integer + length).toNat
  else args.integer.toNat

def ArrayType.default (type : ArrayType) (frame : Frame V) : m V :=
  match type with
  | .every => return vs.boolean true
  | .some | .includes => return vs.boolean false
  | .indexOf | .findIndex => return vs.number (-1)
  | .forEach | .find => return vs.undefined
  | .reduce =>
    match frame.argument with
    | none => throw MethodError.emptyReduce
    | Option.some argument => return argument
  | .filter | .map => return vs.array frame.data.length frame.data.elements

def result (type : ArrayType) : Except PUnit PUnit × Frame V → m V
  | (.error _, frame) => return frame.retval
  | (.ok _, frame) => type.default vs frame

/-- The function that is called. It is not used by `includes` and `indexOf`. -/
def callback (type : ArrayType) : m (Function m V) :=
  match args.function with
  | Option.some function => return function
  | none =>
    if type.isFunc then throw MethodError.notCallable
    else return fun _ _ => return vs.undefined

def njsArrayPrototypeIterator (type : ArrayType) (this : Target m V) : m V := do
  let function ← callback vs args type
  let length := if type = .map then this.length else 0
  if 2 ^ 32 ≤ length then throw MethodError.invalidLength
  else
    let frame : Frame V := ⟨vs.undefined, type.argument vs args, ⟨length, fun _ => none⟩⟩
    if type = .includes ∧ this.length = 0 then type.default vs frame
    else
      let loop : Loop m V PUnit := njsObjectIterate D vs.string (type.handler vs args function)
        this (type.start args this.length) this.length
      result vs type (← loop.run.run frame)

/-- `from`, of `lastIndexOf` or `reduceRight`. -/
def reverseStart (lastIndexOf : Bool) (length : ℤ) : ℤ :=
  if lastIndexOf ∧ args.second.isSome then
    if 0 ≤ args.integer then min args.integer (length - 1) else args.integer + length
  else length - 1

/-- `njs_array_prototype_reverse_iterator`: `lastIndexOf` and `reduceRight`. -/
def njsArrayPrototypeReverseIterator (lastIndexOf : Bool) (this : Target m V) : m V := do
  let type : ArrayType := if lastIndexOf then .indexOf else .reduce
  let function ← callback vs args type
  let frame : Frame V := ⟨vs.undefined, type.argument vs args, ⟨0, fun _ => none⟩⟩
  if this.length = 0 then type.default vs frame
  else
    let loop : Loop m V PUnit := njsObjectIterateReverse D vs.string
      (type.handler vs args function) this (reverseStart args lastIndexOf this.length) 0
    result vs type (← loop.run.run frame)

end Methods

/-! ### Equal contents -/

section Contents

variable {m : Type → Type} [Monad m] [LawfulMonad m] {V : Type} {vs : Values V}
  {function : Function m V} {object : V}

/-- Two targets have the same elements. -/
structure SameContents (vs : Values V) (value value' : Target m V) : Prop where
  length : value.length = value'.length
  element : ∀ i < value.length, value.element vs.string i = value'.element vs.string i

/-- A handler does nothing for an element that does not exist. -/
def IgnoresAbsent (handler : Option V → ℤ → Loop m V PUnit) : Prop := ∀ i, handler none i = pure ⟨⟩

/-- All elements exist, or those that do not are not skipped. -/
def Target.Complete (vs : Values V) (value : Target m V) (lo hi : ℕ) : Prop :=
  value.skipsAbsent ((hi : ℤ) - lo) = false ∨
    ∀ i, lo ≤ i → i < hi → (value.element vs.string i).isSome

variable {value this this' : Target m V} {frame : Frame V}

theorem visit_absent {handler : Option V → ℤ → Loop m V PUnit} {i : ℕ}
    (h : (value.element vs.string i).isSome = false) :
    value.visit vs.string handler i = handler none i := by
  rw [Target.visit, Option.not_isSome_iff_eq_none.1 (Bool.eq_false_iff.1 h)]
  exact pure_bind _ _

theorem forM_visits_ignore (value : Target m V) {handler : Option V → ℤ → Loop m V PUnit}
    (h : IgnoresAbsent handler) (size : ℤ) (lo hi : ℕ) :
    forM (value.visits vs.string size lo hi) (value.visit vs.string handler) =
      forM (List.range' lo (hi - lo)) (value.visit vs.string handler) ∧
    forM (value.visits vs.string size lo hi).reverse (value.visit vs.string handler) =
      forM (List.range' lo (hi - lo)).reverse (value.visit vs.string handler) := by
  have hskip : ∀ i, (if (!value.skipsAbsent size || (value.element vs.string i).isSome) then
      value.visit vs.string handler i else pure ⟨⟩) = value.visit vs.string handler i := by
    intro i
    split_ifs with hi
    · rfl
    · rw [Bool.or_eq_true, not_or] at hi
      rw [visit_absent (Bool.eq_false_iff.2 hi.2), h]
  rw [Target.visits, ← List.filter_reverse, forM_filter, forM_filter]
  exact ⟨forM_congr fun i _ => hskip i, forM_congr fun i _ => hskip i⟩

omit [LawfulMonad m] in
theorem visits_complete {lo hi : ℕ} (h : value.Complete vs lo hi) :
    value.visits vs.string ((hi : ℤ) - lo) lo hi = List.range' lo (hi - lo) := by
  rcases h with h | h
  · exact visits_all vs.string h lo hi
  · refine List.filter_eq_self.2 fun i hi => ?_
    rw [List.mem_range'_1] at hi
    rw [h i hi.1 (by omega), Bool.or_true]

omit [LawfulMonad m] in
theorem visit_congr {value' : Target m V} (h : SameContents vs value value') {i : ℕ}
    (hi : i < value.length) (handler : Option V → ℤ → Loop m V PUnit) :
    value.visit vs.string handler i = value'.visit vs.string handler i := by
  rw [Target.visit, Target.visit, h.element i hi]

/-! ### Runs of a loop -/

theorem run_liftM {α : Type} (x : m α) (k : α → Loop m V PUnit) (frame : Frame V) :
    ((liftM x : Loop m V α) >>= k).run.run frame = x >>= fun a => (k a).run.run frame := by
  have hlift : (liftM x : Loop m V α) = ExceptT.lift (StateT.lift x) := rfl
  rw [hlift]
  simp [ExceptT.run_bind]

theorem run_modify (f : Frame V → Frame V) (k : Loop m V PUnit) (frame : Frame V) :
    ((modify f : Loop m V PUnit) >>= fun _ => k).run.run frame = k.run.run (f frame) := by
  have hlift : (modify f : Loop m V PUnit) = ExceptT.lift (modify f) := rfl
  rw [hlift]
  simp [ExceptT.run_bind]

theorem run_get (k : Frame V → Loop m V PUnit) (frame : Frame V) :
    ((get : Loop m V (Frame V)) >>= k).run.run frame = (k frame).run.run frame := by
  have hlift : (get : Loop m V (Frame V)) = ExceptT.lift get := rfl
  rw [hlift]
  simp [ExceptT.run_bind]

theorem run_done (retval : V) (k : Loop m V PUnit) (frame : Frame V) :
    ((done retval : Loop m V PUnit) >>= fun _ => k).run.run frame =
      pure (.error ⟨⟩, { frame with retval }) := by
  rw [done, bind_assoc, run_modify]
  simp

theorem run_visit {handler : Option V → ℤ → Loop m V PUnit} {i : ℕ} {action : m V}
    (h : value.element vs.string i = some action) (k : Loop m V PUnit) (frame : Frame V) :
    (value.visit vs.string handler i >>= fun _ => k).run.run frame =
      action >>= fun entry => (handler (some entry) i >>= fun _ => k).run.run frame := by
  rw [Target.visit, h, bind_assoc, read, map_eq_pure_bind, bind_assoc, run_liftM]
  simp only [pure_bind]

theorem run_filter {value : Target m V} {handler : Option V → ℤ → Loop m V PUnit}
    {I : List ℕ → Frame V → Prop} (hnext : ∀ i l frame, I (i :: l) frame → I l frame)
    (habsent : ∀ i l frame (k : Loop m V PUnit), I (i :: l) frame →
      (handler none i >>= fun _ => k).run.run frame = k.run.run frame)
    (hstep : ∀ i l frame (k k' : Loop m V PUnit), I (i :: l) frame →
      (∀ frame', I l frame' → k.run.run frame' = k'.run.run frame') → ∀ entry,
        (handler (some entry) i >>= fun _ => k).run.run frame =
          (handler (some entry) i >>= fun _ => k').run.run frame)
    {p : ℕ → Bool} (hp : ∀ i, (value.element vs.string i).isSome → p i) (l : List ℕ)
    {frame : Frame V} (hI : I l frame) :
    (forM (l.filter p) (value.visit vs.string handler)).run.run frame =
      (forM l (value.visit vs.string handler)).run.run frame := by
  induction l generalizing frame with
  | nil => rfl
  | cons i l ih =>
    have hrest := ih (hnext i l frame hI)
    rw [List.forM_cons]
    rcases helement : value.element vs.string i with _ | action
    · have hvisit : value.visit vs.string handler i = handler none i :=
        visit_absent (by rw [helement]; rfl)
      rw [hvisit, habsent i l frame _ hI, ← hrest]
      by_cases hpi : p i
      · rw [List.filter_cons_of_pos hpi, List.forM_cons, hvisit, habsent i l frame _ hI]
      · rw [List.filter_cons_of_neg hpi]
    · have hpi := hp i (by rw [helement]; rfl)
      rw [List.filter_cons_of_pos hpi, List.forM_cons, run_visit helement, run_visit helement]
      refine bind_congr fun entry => ?_
      exact hstep i l frame _ _ hI (fun frame' hI' => ih hI') entry

/-- `includes` may skip the elements that do not exist if it does not search `undefined`. -/
theorem run_includes (value : Target m V) {argument : V}
    (h : vs.sameZero argument vs.undefined = false) {p : ℕ → Bool}
    (hp : ∀ i, (value.element vs.string i).isSome → p i) (l : List ℕ)
    (hframe : frame.argument = some argument) :
    (forM (l.filter p) (value.visit vs.string (njsArrayHandlerIncludes vs)) :
        Loop m V PUnit).run.run frame =
      (forM l (value.visit vs.string (njsArrayHandlerIncludes vs)) :
        Loop m V PUnit).run.run frame := by
  have hrun : ∀ (frame : Frame V) (entry : Option V) (i : ℤ) (k : Loop m V PUnit),
      frame.argument = some argument →
      (njsArrayHandlerIncludes vs entry i >>= fun _ => k).run.run frame =
        if vs.sameZero argument (entry.getD vs.undefined) then
          (pure (.error ⟨⟩, { frame with retval := vs.boolean true }) :
            m (Except PUnit PUnit × Frame V))
        else k.run.run frame := by
    intro frame entry i k hframe
    rw [njsArrayHandlerIncludes, bind_assoc, run_get, hframe]
    dsimp only [Option.getD_some]
    split_ifs with hsame
    · rw [run_done, hframe]
    · rw [pure_bind]
  refine run_filter (I := fun _ frame => frame.argument = some argument)
    (fun i l frame hI => hI) (fun i l frame k hI => ?_) (fun i l frame k k' hI hk entry => ?_)
    hp l hframe
  · rw [hrun frame none i k hI, Option.getD_none, if_neg (Bool.eq_false_iff.1 h)]
  · rw [hrun frame _ i k hI, hrun frame _ i k' hI, hk frame hI]

theorem put_none {data : NewArray V} {i : ℕ} (h : data.elements i = none) :
    data.put i none = data := by
  rw [NewArray.put, Function.update_eq_self_iff.2 h.symm]

/-- `map` may skip the elements that do not exist, as they are holes of the new array. -/
theorem run_map (value : Target m V) {p : ℕ → Bool}
    (hp : ∀ i, (value.element vs.string i).isSome → p i) {l : List ℕ} (hl : l.Nodup)
    (hframe : ∀ i ∈ l, frame.data.elements i = none) :
    (forM (l.filter p) (value.visit vs.string (njsArrayHandlerMap vs function object))).run.run
        frame =
      (forM l (value.visit vs.string (njsArrayHandlerMap vs function object))).run.run frame := by
  have hhole : ∀ (frame : Frame V) (i : ℕ), frame.data.elements i = none →
      (if frame.data.fast then { frame with data := frame.data.put i none } else frame) =
        frame := by
    intro frame i hi
    rw [put_none hi]
    exact ite_self frame
  refine run_filter (I := fun l frame => l.Nodup ∧ ∀ i ∈ l, frame.data.elements i = none)
    (fun i l frame hI => ⟨(List.nodup_cons.1 hI.1).2,
      fun j hj => hI.2 j (List.mem_cons_of_mem i hj)⟩)
    (fun i l frame k hI => ?_) (fun i l frame k k' hI hk entry => ?_) hp l ⟨hl, hframe⟩
  · have hi := hI.2 i List.mem_cons_self
    rw [njsArrayHandlerMap, bind_assoc, run_modify, Int.toNat_natCast, hhole frame i hi, pure_bind]
  have hi := hI.2 i List.mem_cons_self
  obtain ⟨hnot, hnodup⟩ := List.nodup_cons.1 hI.1
  simp only [njsArrayHandlerMap, njsArrayIteratorCall, bind_assoc, run_modify, run_get,
    run_liftM, pure_bind, hhole frame i hi, Int.toNat_natCast]
  refine bind_congr fun retval => hk _ ⟨hnodup, fun j hj => ?_⟩
  have hji : j ≠ i := fun h => hnot (h ▸ hj)
  show Function.update frame.data.elements i (some retval) j = none
  rw [Function.update_of_ne hji]
  exact hI.2 j (List.mem_cons_of_mem i hj)

/-! ### The methods agree -/

/-- Where a method gives the result that the contents determine. -/
structure Regular (vs : Values V) (args : Arguments m V) (type : ArrayType) (this : Target m V) :
    Prop where
  fromStart : this.FromStart (type.start args this.length)
  listed : njsFastObject ((this.length : ℤ) - type.start args this.length) ∨
    this.Listed (type.start args this.length) this.length
  find : type = .find ∨ type = .findIndex →
    this.Complete vs (type.start args this.length) this.length
  includes : type = .includes → vs.sameZero args.first vs.undefined = false ∨
    this.Complete vs (type.start args this.length) this.length

omit [LawfulMonad m] in
theorem ignoresAbsent (args : Arguments m V) (function : Function m V) {type : ArrayType}
    (hfind : ¬(type = .find ∨ type = .findIndex)) (hincludes : type ≠ .includes)
    (hmap : type ≠ .map) : IgnoresAbsent (type.handler vs args function) := by
  intro i
  match type with
  | .every => rfl
  | .some => rfl
  | .includes => exact absurd rfl hincludes
  | .indexOf => rfl
  | .forEach => rfl
  | .find => exact absurd (.inl rfl) hfind
  | .findIndex => exact absurd (.inr rfl) hfind
  | .reduce => rfl
  | .filter => rfl
  | .map => exact absurd rfl hmap

theorem run_iterate (D : Doubles) (args : Arguments m V) (function : Function m V)
    {type : ArrayType} (h : Regular vs args type this)
    (hargument : frame.argument = type.argument vs args)
    (hdata : ∀ i, frame.data.elements i = none) :
    (njsObjectIterate D vs.string (type.handler vs args function) this
        (type.start args this.length) this.length : Loop m V PUnit).run.run frame =
      (forM (List.range' (type.start args this.length) (this.length - type.start args this.length))
        (this.visit vs.string (type.handler vs args function)) : Loop m V PUnit).run.run frame := by
  rw [njsObjectIterate_eq D vs.string _ this (Nat.le_refl _) h.fromStart h.listed]
  by_cases hfind : type = .find ∨ type = .findIndex
  · rw [visits_complete (h.find hfind)]
  by_cases hincludes : type = .includes
  · rcases h.includes hincludes with hsame | hcomplete
    · subst hincludes
      exact run_includes this hsame (fun i hi => by rw [hi, Bool.or_true]) _ hargument
    · rw [visits_complete hcomplete]
  · by_cases hmap : type = .map
    · subst hmap
      exact run_map this (fun i hi => by rw [hi, Bool.or_true]) List.nodup_range'
        fun i _ => hdata i
    · rw [(forM_visits_ignore this (ignoresAbsent args function hfind hincludes hmap) _ _ _).1]

omit [LawfulMonad m] in
theorem forM_visit_congr (hsame : SameContents vs this this')
    (handler : Option V → ℤ → Loop m V PUnit) {l : List ℕ} (hl : ∀ i ∈ l, i < this.length) :
    (forM l (this.visit vs.string handler) : Loop m V PUnit) =
      forM l (this'.visit vs.string handler) :=
  forM_congr fun i hi => visit_congr hsame (hl i hi) handler

variable [MonadExceptOf MethodError m]

theorem njsArrayPrototypeIterator_congr (D : Doubles) (args : Arguments m V) (type : ArrayType)
    (hsame : SameContents vs this this') (h : Regular vs args type this)
    (h' : Regular vs args type this') :
    njsArrayPrototypeIterator D vs args type this =
      njsArrayPrototypeIterator D vs args type this' := by
  have hloop : ∀ (function : Function m V) (frame : Frame V),
      frame.argument = type.argument vs args → (∀ i, frame.data.elements i = none) →
      (njsObjectIterate D vs.string (type.handler vs args function) this
        (type.start args this.length) this.length : Loop m V PUnit).run.run frame =
      (njsObjectIterate D vs.string (type.handler vs args function) this'
        (type.start args this.length) this.length : Loop m V PUnit).run.run frame := by
    intro function frame hargument hdata
    have hrun := run_iterate D args function h' hargument hdata
    rw [← hsame.length] at hrun
    rw [run_iterate D args function h hargument hdata, hrun, forM_visit_congr hsame]
    intro i hi
    rw [List.mem_range'_1] at hi
    omega
  rw [njsArrayPrototypeIterator, njsArrayPrototypeIterator, ← hsame.length]
  refine bind_congr fun function => ?_
  dsimp only
  rw [hloop function ⟨vs.undefined, type.argument vs args, _⟩ rfl fun _ => rfl]

/-- `lastIndexOf` and `reduceRight` give the same result on targets with the same elements. -/
theorem njsArrayPrototypeReverseIterator_congr (D : Doubles) (args : Arguments m V)
    (lastIndexOf : Bool) (hsame : SameContents vs this this')
    (h : njsFastObject (reverseStart args lastIndexOf this.length) ∨
      this.Listed 0 (reverseStart args lastIndexOf this.length + 1).toNat)
    (h' : njsFastObject (reverseStart args lastIndexOf this.length) ∨
      this'.Listed 0 (reverseStart args lastIndexOf this.length + 1).toNat) :
    njsArrayPrototypeReverseIterator D vs args lastIndexOf this =
      njsArrayPrototypeReverseIterator D vs args lastIndexOf this' := by
  rw [njsArrayPrototypeReverseIterator, njsArrayPrototypeReverseIterator, ← hsame.length]
  refine bind_congr fun function => ?_
  dsimp only
  by_cases hzero : this.length = 0
  · rw [if_pos hzero, if_pos hzero]
  rw [if_neg hzero, if_neg hzero]
  have hstart : reverseStart args lastIndexOf this.length < this.length := by
    rw [reverseStart]
    split_ifs <;> omega
  generalize reverseStart args lastIndexOf this.length = start at *
  have hignore : IgnoresAbsent ((if lastIndexOf then ArrayType.indexOf else .reduce).handler vs
      args function) := by
    cases lastIndexOf
    · exact fun i => rfl
    · exact fun i => rfl
  have hfast : njsFastObject (start - (0 : ℕ)) ↔ njsFastObject start := by
    rw [Nat.cast_zero, sub_zero]
  rw [njsObjectIterateReverse_eq D vs.string _ this hstart (h.imp_left hfast.2),
    njsObjectIterateReverse_eq D vs.string _ this' (hsame.length ▸ hstart) (h'.imp_left hfast.2),
    (forM_visits_ignore this hignore _ _ _).2, (forM_visits_ignore this' hignore _ _ _).2,
    forM_visit_congr hsame]
  intro i hi
  rw [List.mem_reverse, List.mem_range'_1] at hi
  omega

omit [LawfulMonad m] [MonadExceptOf MethodError m] in
theorem mem_visits (value : Target m V) (size : ℤ) (lo hi i : ℕ) :
    i ∈ value.visits vs.string size lo hi ↔ (lo ≤ i ∧ i < hi) ∧
      (value.skipsAbsent size = false ∨ (value.element vs.string i).isSome) := by
  rw [Target.visits, List.mem_filter, List.mem_range'_1, Bool.or_eq_true, Bool.not_eq_true']
  have hrange : (lo ≤ i ∧ i < lo + (hi - lo)) ↔ lo ≤ i ∧ i < hi := by omega
  rw [hrange]

end Contents

/-- Values of scripts. -/
inductive Value
  | undefined
  | boolean (b : Bool)
  | number (n : ℤ)
  | string (s : Bytes)
  | array (elements : List (Option Value))

namespace Value

def isTrue : Value → Bool
  | undefined => false
  | boolean b => b
  | number n => n ≠ 0
  | string s => s ≠ []
  | array _ => true

/-- Two arrays are different. -/
def strictEqual : Value → Value → Bool
  | undefined, undefined => true
  | boolean b, boolean c => b = c
  | number m, number n => m = n
  | string s, string t => s = t
  | _, _ => false

def values : Values Value where
  undefined := undefined
  boolean := boolean
  number := number
  string := string
  array length elements := array ((List.range length).map elements)
  isTrue := isTrue
  sameZero := strictEqual
  strictEqual := strictEqual

def character (c : Char) : Value := string (String.utf8EncodeChar c)

end Value

def noProperties (m : Type → Type) (V : Type) : Properties m V := ⟨[], .nil, fun _ => none, nofun⟩

/-- Three letters, as a string and as an array. -/
def letters : List Char := ['\u03b1', '\u03b2', '\u03b1']

def lettersArray : Target (Except MethodError) Value :=
  .fastArray (letters.map fun c => some (Value.character c)) (noProperties _ _)

theorem sameContents_letters : SameContents Value.values (.string letters) lettersArray := by
  refine ⟨rfl, fun i hi => ?_⟩
  have hi : i < 3 := hi
  match i with
  | 0 => rfl
  | 1 => rfl
  | 2 => rfl

def searchFrom (index : ℤ) : Arguments (Except MethodError) Value where
  function := none
  first := Value.character '\u03b1'
  second := some (.number index)
  integer := index
  object := .undefined

end Njs.Indices
