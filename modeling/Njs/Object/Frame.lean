import Njs.Lib.Chains
import Njs.Object.Operations
import Njs.Object.View

/-!
# What a write does to other objects

Objects that inherit from others, and what assigning a property of one of them, or defining one,
does to the others.
-/

namespace Njs.Object

open Atom PropHash Chains

section Frame

variable {ν H V F : Type} [PropHash H (Property V F)] {N : Names ν} {host : Host V F}

/-! ### Room in the tables -/

/-- A result that is an error just where a table has no room. -/
def OnlyFull {α : Type} (x : Except Error α) : Prop := ∀ e, x = .error e → e = .insertFailed

theorem OnlyFull.ok {α : Type} (a : α) : OnlyFull (.ok a) := fun _ h => by cases h

theorem OnlyFull.full {α : Type} : OnlyFull (.error .insertFailed : Except Error α) :=
  fun _ h => by
    cases h
    rfl

theorem OnlyFull.bind {α β : Type} {x : Except Error α} {f : α → Except Error β}
    (hx : OnlyFull x) (hf : ∀ a, OnlyFull (f a)) : OnlyFull (x >>= f) := by
  intro e h
  cases hxa : x with
  | error e' =>
    rw [hxa] at h
    cases h
    exact hx _ hxa
  | ok a =>
    rw [hxa] at h
    exact hf a e h

theorem hashQuery_onlyFull (k : UInt32) (o : Obj H V) : OnlyFull (hashQuery host k o) := by
  rw [hashQuery]
  split
  · split_ifs
    · exact .ok _
    · exact .ok _
  split
  · dsimp only
    split
    · exact .ok _
    · exact .full
  · exact .ok _

theorem njsArrayConvertToSlowArray_onlyFull (o : Obj H V) :
    OnlyFull (njsArrayConvertToSlowArray o) := by
  rw [njsArrayConvertToSlowArray.eq_def]
  split
  · split
    · exact .ok _
    · exact .full
  · exact .ok _

theorem slowArrayQuery_onlyFull (index : ℕ) (k : UInt32) (o : Obj H V) :
    OnlyFull (slowArrayQuery N host index k o) := by
  have hlength : OnlyFull (njsObjectLength N host o) := by
    rw [njsObjectLength.eq_def]
    split
    · exact .ok _
    · split
      · exact .ok _
      · exact .ok _
      · rename_i h
        exact fun e he => hashQuery_onlyFull _ _ e (h.trans (by rw [Except.error.inj he]))
    · exact .ok _
  refine hlength.bind fun r => ?_
  obtain ⟨o, length⟩ := r
  have hend (o : Obj H V) {x : Except Error (Obj H V × Level V F)}
      (hsome : ∀ p, find o.hash k = some p →
        x = if p.isWhiteout then pure (o, .declined true) else pure (o, .found (.prop p)))
      (hnone : find o.hash k = none → x = pure (o, .done)) : OnlyFull x := by
    cases hfind : find o.hash k with
    | some p =>
      rw [hsome p hfind]
      split_ifs
      · exact .ok _
      · exact .ok _
    | none =>
      rw [hnone hfind]
      exact .ok _
  dsimp only
  split_ifs
  · refine OnlyFull.bind ?_ fun o => hend o (fun p hp => by rw [hp]) fun hp => by rw [hp]
    rw [njsArrayLengthRedefine]
    split
    · exact .ok _
    · exact .full
  · refine OnlyFull.bind (.ok o) fun o => ?_
    exact hend o (fun p hp => by rw [hp]) fun hp => by rw [hp]

theorem levelQuery_onlyFull (mode : Mode) (k : UInt32) (o : Obj H V) :
    OnlyFull (levelQuery N host mode k o) := by
  have harray (index : ℕ) : OnlyFull (njsArrayPropertyQuery N host mode index k o) := by
    rw [njsArrayPropertyQuery.eq_def]
    split
    · split_ifs
      · exact .ok _
      · exact .ok _
      · exact .ok _
      · exact (njsArrayConvertToSlowArray_onlyFull o).bind fun _ => slowArrayQuery_onlyFull _ _ _
    · split_ifs
      · exact .ok _
      · exact slowArrayQuery_onlyFull _ _ _
    · split
      · exact .ok _
      · exact .ok _
    · split_ifs
      · exact .ok _
      · exact .ok _
    · exact .ok _
  have hkind : OnlyFull (kindQuery N host mode k o) := by
    rw [kindQuery.eq_def]
    split
    · split
      · exact harray _
      · exact .ok _
    · split
      · exact harray _
      · exact .ok _
    · split
      · exact .ok _
      · exact .ok _
    · exact .ok _
  refine hkind.bind fun r => ?_
  obtain ⟨o, level⟩ := r
  cases level with
  | declined w => exact hashQuery_onlyFull k o
  | _ => exact .ok _

theorem protoQuery_onlyFull (mode : Mode) (k : UInt32) (protos : List (Obj H V)) :
    OnlyFull (protoQuery N host mode k protos) := by
  induction protos with
  | nil => exact .ok _
  | cons o protos ih =>
    refine (levelQuery_onlyFull mode k o).bind fun (o, level) => ?_
    cases level with
    | declined w => exact ih.bind fun _ => .ok _
    | _ => exact .ok _

theorem query_onlyFull (mode : Mode) (own : Bool) (k : UInt32) (o : Obj H V)
    (protos : List (Obj H V)) :
    OnlyFull (njsObjectPropertyQuery N host mode own k o protos) := by
  refine (levelQuery_onlyFull mode k o).bind fun (o, level) => ?_
  cases level with
  | declined w =>
    dsimp only
    split_ifs
    · exact .ok _
    · exact (protoQuery_onlyFull mode k protos).bind fun _ => .ok _
  | _ => exact .ok _

/-! ### The search -/

/-- The search goes on. -/
def Level.passes : Level V F → Bool
  | .declined _ => true
  | _ => false

variable (N host) in
/-- A search for a property to be written makes an array longer. -/
def Stretches (k : UInt32) : List (Obj H V) → Prop
  | [] => False
  | o :: protos => o.Grows N host k ∨ (o.setLevel N host k).passes = true ∧ Stretches k protos

theorem protoQuery_set (hN : N.Lawful) (hlength : ∀ n < 2 ^ 32, host.toLength (host.ofNat n) = n)
    {k : UInt32} {protos protos' : List (Obj H V)} {f : Option (Found V F)}
    (hsound : ∀ o ∈ protos, o.Sound) (h : protoQuery N host .set k protos = .ok (protos', f)) :
    protos'.length = protos.length ∧ (protos'.map (Obj.view host) = protos.map (Obj.view host) ↔
        ¬Stretches N host k protos) := by
  induction protos generalizing protos' f with
  | nil =>
    cases h
    exact ⟨rfl, fun _ h => h, fun _ => rfl⟩
  | cons o protos ih =>
    rw [protoQuery] at h
    cases hlevel : levelQuery N host .set k o with
    | error e =>
      rw [hlevel] at h
      cases h
    | ok r =>
      obtain ⟨o', level⟩ := r
      obtain ⟨rfl, -, hsame, hdiffers⟩ :=
        levelQuery_set hN hlength (hsound o List.mem_cons_self) hlevel
      have hview : o'.view host = o.view host ↔ ¬o.Grows N host k :=
        ⟨fun heq hgrows => hdiffers hgrows heq, hsame⟩
      rw [hlevel] at h
      -- Nothing is done to the rest if the search ends here.
      have hend (hpasses : (o.setLevel N host k).passes = false) (heq : protos' = o' :: protos) :
          protos'.length = (o :: protos).length ∧
            (protos'.map (Obj.view host) = (o :: protos).map (Obj.view host) ↔
              ¬Stretches N host k (o :: protos)) := by
        subst heq
        refine ⟨rfl, ?_⟩
        rw [List.map_cons, List.map_cons, List.cons.injEq, hview, Stretches, hpasses]
        simp
      cases hset : o.setLevel N host k with
      | found f' =>
        rw [hset] at h
        cases h
        exact hend (by rw [hset]; rfl) rfl
      | done =>
        rw [hset] at h
        cases h
        exact hend (by rw [hset]; rfl) rfl
      | declined w =>
        rw [hset] at h
        cases hrest : protoQuery N host .set k protos with
        | error e =>
          rw [hrest] at h
          cases h
        | ok r =>
          rw [hrest] at h
          cases h
          obtain ⟨hlen, hviews⟩ := ih (fun p hp => hsound p (List.mem_cons_of_mem o hp)) hrest
          refine ⟨congrArg (· + 1) hlen, ?_⟩
          rw [List.map_cons, List.map_cons, List.cons.injEq, hview, hviews, Stretches, hset]
          simp [Level.passes]

variable (N host) in
/-- An assignment that is not done with the object itself. -/
def Obj.Walks (k : UInt32) (o : Obj H V) : Prop :=
  (∀ start, o.kind = .fast start →
    ¬(njsAtomIsNumber k.toNat ∧ njsAtomNumber k.toNat < start.length)) ∧
    (o.setLevel N host k).passes = true

theorem query_set (hN : N.Lawful) (hlength : ∀ n < 2 ^ 32, host.toLength (host.ofNat n) = n)
    {k : UInt32} {o o' : Obj H V} {protos protos' : List (Obj H V)} {answer : Answer V F}
    (ho : o.Sound) (hsound : ∀ o ∈ protos, o.Sound)
    (h : njsObjectPropertyQuery N host .set false k o protos = .ok (o', protos', answer)) :
    protos'.length = protos.length ∧ (protos'.map (Obj.view host) = protos.map (Obj.view host) ↔
        ¬((o.setLevel N host k).passes = true ∧ Stretches N host k protos)) := by
  rw [njsObjectPropertyQuery] at h
  cases hlevel : levelQuery N host .set k o with
  | error e =>
    rw [hlevel] at h
    cases h
  | ok r =>
    obtain ⟨o₁, level⟩ := r
    obtain ⟨rfl, -, -, -⟩ := levelQuery_set hN hlength ho hlevel
    rw [hlevel] at h
    cases hset : o.setLevel N host k with
    | found f =>
      rw [hset] at h
      cases h
      simp [Level.passes]
    | done =>
      rw [hset] at h
      cases h
      simp [Level.passes]
    | declined w =>
      rw [hset] at h
      cases hrest : protoQuery N host .set k protos with
      | error e =>
        rw [hrest] at h
        cases h
      | ok r =>
        rw [hrest] at h
        cases h
        obtain ⟨hlen, hviews⟩ := protoQuery_set hN hlength hsound hrest
        exact ⟨hlen, by simp [Level.passes, hviews]⟩

theorem njsValuePropertySet_protos (hN : N.Lawful)
    (hlength : ∀ n < 2 ^ 32, host.toLength (host.ofNat n) = n) (k : UInt32) (v : V)
    {o : Obj H V} {protos : List (Obj H V)} (ho : o.Sound) (hsound : ∀ o ∈ protos, o.Sound) :
    let r := njsValuePropertySet N host k v o protos
    r.2.length = protos.length ∧ (¬(o.Walks N host k ∧ Stretches N host k protos) →
        r.2.map (Obj.view host) = protos.map (Obj.view host)) ∧
      (r.1.2 ≠ .error .insertFailed → o.Walks N host k ∧ Stretches N host k protos →
        r.2.map (Obj.view host) ≠ protos.map (Obj.view host)) := by
  have hslow (hmiss : ∀ start, o.kind = .fast start →
      ¬(njsAtomIsNumber k.toNat ∧ njsAtomNumber k.toNat < start.length)) :
      let r := setSlow N host k v o protos
      r.2.length = protos.length ∧ (¬(o.Walks N host k ∧ Stretches N host k protos) →
          r.2.map (Obj.view host) = protos.map (Obj.view host)) ∧
        (r.1.2 ≠ .error .insertFailed → o.Walks N host k ∧ Stretches N host k protos →
          r.2.map (Obj.view host) ≠ protos.map (Obj.view host)) := by
    rw [setSlow]
    cases hquery : njsObjectPropertyQuery N host .set false k o protos with
    | error e =>
      obtain rfl := query_onlyFull _ _ _ _ _ e hquery
      exact ⟨rfl, fun _ => rfl, fun h => absurd rfl h⟩
    | ok r =>
      obtain ⟨o', protos', answer⟩ := r
      obtain ⟨hlen, hviews⟩ := query_set hN hlength ho hsound hquery
      have hrest (q : (Obj H V × Outcome F) × List (Obj H V)) (hq : q.2 = protos') :
          q.2.length = protos.length ∧ (¬(o.Walks N host k ∧ Stretches N host k protos) →
              q.2.map (Obj.view host) = protos.map (Obj.view host)) ∧
            (q.1.2 ≠ .error .insertFailed → o.Walks N host k ∧ Stretches N host k protos →
              q.2.map (Obj.view host) ≠ protos.map (Obj.view host)) := by
        subst hq
        refine ⟨hlen, fun h => hviews.mpr fun h' => h ⟨⟨hmiss, h'.1⟩, h'.2⟩,
          fun _ h heq => hviews.mp heq ⟨h.1.2, h.2⟩⟩
      refine hrest _ ?_
      dsimp only
      split
      · rfl
      · rfl
      · split_ifs <;> rfl
      · rfl
  rw [njsValuePropertySet.eq_def]
  split
  case h_1 start hkind =>
    split_ifs with hfast
    · exact ⟨rfl, fun _ => rfl, fun _ h => absurd hfast (h.1.1 start hkind)⟩
    · refine hslow fun start' hkind' => ?_
      rw [hkind, Kind.fast.injEq] at hkind'
      rwa [← hkind']
  case h_2 hnot => exact hslow fun start hkind => absurd hkind (hnot start)

/-! ### Graphs of objects -/

/-- Objects, each of which may inherit from another. -/
structure Graph (ι H V : Type) where
  obj : ι → Obj H V
  /-- `__proto__`. -/
  protos : Chains ι

/-- A write to an object. -/
inductive Write (V F : Type)
  | assign (k : UInt32) (v : V)
  | define (k : UInt32) (type : DefineType V F)

variable {ι : Type} [DecidableEq ι] [DecidableEq F]

variable (N host) in
def Graph.run (g : Graph ι H V) (i : ι) (w : Write V F) : Graph ι H V × Outcome F :=
  match w with
  | .assign k v =>
    let r := njsValuePropertySet N host k v (g.obj i) ((g.protos.behind i).map g.obj)
    ({ g with obj := Function.update (writeBack g.obj (g.protos.behind i) r.2) i r.1.1 }, r.1.2)
  | .define k type =>
    let r := njsObjectPropDefine N host k type (g.obj i)
    ({ g with obj := Function.update g.obj i r.1 }, r.2)

variable (N host) in
/-- The write makes an array longer that the object inherits from: it assigns what the object
itself has no place for, and the search for an inherited property gets to an extensible array with
no element that the key is the index of. -/
def Graph.Stretches (g : Graph ι H V) (i : ι) : Write V F → Prop
  | .assign k _ =>
    (g.obj i).Walks N host k ∧ Object.Stretches N host k ((g.protos.behind i).map g.obj)
  | .define _ _ => False

/-- A write to an object, unless a table has no room, leaves every other object as it was just if
no array gets longer that the object inherits from. -/
theorem Graph.run_local_iff (hN : N.Lawful)
    (hlength : ∀ n < 2 ^ 32, host.toLength (host.ofNat n) = n) (g : Graph ι H V)
    (hsound : ∀ j, (g.obj j).Sound) (i : ι) (w : Write V F) :
    (¬g.Stretches N host i w →
      ∀ j ≠ i, ((g.run N host i w).1.obj j).view host = (g.obj j).view host) ∧
    ((g.run N host i w).2 ≠ .error .insertFailed → g.Stretches N host i w →
      ∃ j ≠ i, ((g.run N host i w).1.obj j).view host ≠ (g.obj j).view host) := by
  cases w with
  | define k type =>
    refine ⟨fun _ j hj => ?_, fun _ h => h.elim⟩
    rw [Graph.run]
    dsimp only
    rw [Function.update_of_ne hj]
  | assign k v =>
    have hprotos : ∀ o ∈ (g.protos.behind i).map g.obj, o.Sound := fun o ho => by
      obtain ⟨j, -, rfl⟩ := List.mem_map.mp ho
      exact hsound j
    have hset := njsValuePropertySet_protos hN hlength k v (hsound i) hprotos
    rw [Graph.Stretches, Graph.run]
    dsimp only at hset ⊢
    obtain ⟨hlen, hsame, hdiffers⟩ := hset
    rw [List.length_map] at hlen
    have hall := forall_writeBack_iff g.obj (g.protos.nodup i rfl) hlen (Obj.view host)
    have hself := writeBack_of_notMem g.obj
      (njsValuePropertySet N host k v (g.obj i) ((g.protos.behind i).map g.obj)).2
      (g.protos.notMem_behind i)
    refine ⟨fun h j hj => ?_, fun hroom h => ?_⟩
    · rw [Function.update_of_ne hj]
      exact hall.mpr (hsame h) j
    by_contra hlocal
    push Not at hlocal
    refine hdiffers hroom h (hall.mp fun j => ?_)
    by_cases hj : j = i
    · subst hj
      rw [hself]
    · have := hlocal j hj
      rwa [Function.update_of_ne hj] at this

end Frame

/-! ### An object that inherits from an array -/

/-- An array with one element, and an ordinary object that inherits from it. -/
def arrayHeir : Graph Bool (FlatTable plainJunk) ℕ where
  obj heir := ⟨if heir then .object else .fast [some 10], empty, empty, true⟩
  protos :=
    { next := fun heir => if heir then some false else none
      behind := fun heir => if heir then [false] else []
      behind_eq := by decide }

theorem sound_arrayHeir (j : Bool) : (arrayHeir.obj j).Sound where
  sized h := by
    cases j with
    | false =>
      cases h
      decide
    | true => cases h
  shared h := by
    change find empty _ = _ at h
    rw [find_empty] at h
    cases h

/-- Assigning a property whose name is no index leaves the array as it was. -/
theorem run_local_name : ¬arrayHeir.Stretches plainNames plainHost true (.assign 1 20) ∧
    ∀ j ≠ true, ((arrayHeir.run plainNames plainHost true (.assign 1 20)).1.obj j).view plainHost =
      (arrayHeir.obj j).view plainHost := by
  have hname : ¬arrayHeir.Stretches plainNames plainHost true (.assign 1 20) := by
    rintro ⟨-, ⟨n, hn, -⟩ | ⟨-, h⟩⟩
    · exact absurd hn (by decide +revert)
    · exact h
  exact ⟨hname, (Graph.run_local_iff lawful_plainNames (fun _ _ => rfl) arrayHeir sound_arrayHeir
    true (.assign 1 20)).1 hname⟩

/-- Assigning an element of the object makes the array longer. -/
theorem assign_element_stretches :
    let write : Write ℕ ℕ := .assign (indexAtom 5) 20
    ¬∀ j ≠ true, ((arrayHeir.run plainNames plainHost true write).1.obj j).view plainHost =
      (arrayHeir.obj j).view plainHost := by
  intro write h
  have hlength := congrArg View.arrayLength (h false (by decide))
  exact absurd hlength (by decide)

end Njs.Object
