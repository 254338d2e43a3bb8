import Njs.Object.Operations

/-!
# Ordinary objects

What an assignment, a definition and a deletion do to the table of an ordinary object.
-/

namespace Njs.Object

open Atom PropHash

section Order

variable {ν H V F : Type} [PropHash H (Property V F)] {N : Names ν} {host : Host V F}

/-! ### Ordinary objects -/

def Obj.own (o : Obj H V) (k : UInt32) : Option (Property V F) :=
  (find o.hash k).filter fun p => !p.isWhiteout

/-- An ordinary object: it has no shared properties, and none of its own has a handler. -/
structure Obj.Ordinary (o : Obj H V) : Prop where
  kind : o.kind = .object
  shared : keys o.sharedHash = []
  noHandler : ∀ {k p}, find o.hash k = some p → ∀ h, p.slot ≠ .handler h

/-- What the search in an ordinary object finds. -/
def ordinaryLevel (p : Option (Property V F)) : Level V F :=
  match p with
  | some p => if p.isWhiteout then .declined true else .found (.prop p)
  | none => .declined false

theorem levelQuery_ordinary {o : Obj H V} (ho : o.Ordinary) (mode : Mode) (k : UInt32) :
    levelQuery N host mode k o = .ok (o, ordinaryLevel (find o.hash k)) := by
  have hshared : find o.sharedHash k = none := find_eq_none (by simp [ho.shared])
  have hkind : kindQuery N host mode k o = .ok (o, .declined false) := by
    rw [kindQuery, ho.kind]
    rfl
  rw [levelQuery, hkind]
  change hashQuery host k o = _
  rw [hashQuery, hshared]
  cases find o.hash k with
  | none => rfl
  | some p => exact (apply_ite (fun l => Except.ok (o, l)) _ _ _).symm

theorem own_eq_some {o : Obj H V} {k : UInt32} {p : Property V F} :
    o.own k = some p ↔ find o.hash k = some p ∧ p.isWhiteout = false := by
  simp [Obj.own, Option.filter_eq_some_iff]

theorem query_own {o : Obj H V} (ho : o.Ordinary) {k : UInt32} {p : Property V F}
    (hk : o.own k = some p) (mode : Mode) (own : Bool) (protos : List (Obj H V)) :
    njsObjectPropertyQuery N host mode own k o protos =
      .ok (o, protos, ⟨some (.prop p), true, false⟩) := by
  obtain ⟨hfind, hwhite⟩ := own_eq_some.mp hk
  rw [njsObjectPropertyQuery, levelQuery_ordinary ho, hfind, ordinaryLevel, hwhite]
  rfl

theorem ordinaryLevel_none {o : Obj H V} {k : UInt32} (hk : o.own k = none) :
    ordinaryLevel (find o.hash k) = .declined (find o.hash k).isSome := by
  cases hfind : find o.hash k with
  | none => rfl
  | some p =>
    have hwhite : p.isWhiteout = true := by simpa [Obj.own, hfind] using hk
    rw [ordinaryLevel, hwhite]
    rfl

theorem query_own_none {o : Obj H V} (ho : o.Ordinary) {k : UInt32} (hk : o.own k = none)
    (mode : Mode) (protos : List (Obj H V)) :
    njsObjectPropertyQuery N host mode true k o protos =
      .ok (o, protos, ⟨none, true, (find o.hash k).isSome⟩) := by
  rw [njsObjectPropertyQuery, levelQuery_ordinary ho, ordinaryLevel_none hk]
  rfl

theorem query_inherited {o : Obj H V} (ho : o.Ordinary) {k : UInt32} (hk : o.own k = none)
    (mode : Mode) (protos : List (Obj H V)) :
    njsObjectPropertyQuery N host mode false k o protos =
      (protoQuery N host mode k protos).map fun r =>
        (o, r.1, ⟨r.2, false, (find o.hash k).isSome⟩) := by
  rw [njsObjectPropertyQuery, levelQuery_ordinary ho, ordinaryLevel_none hk]
  rfl

/-! ### What one operation does -/

/-- What an operation on a key may do to an ordinary object. The key stays at its place, and is
not a new one there unless it is an index; or it is the latest. -/
structure Effect (N : Names ν) (k : UInt32) (o o' : Obj H V) : Prop where
  ordinary : o'.Ordinary
  find_ne : ∀ j ≠ k, find o'.hash j = find o.hash j
  order : (keys o'.hash = keys o.hash ∧
      ((o'.own k).isSome = true → (o.own k).isSome = true ∨ ∃ n, N.IsIndex k n)) ∨
    o.own k = none ∧ (o'.own k).isSome = true ∧
      keys o'.hash = (keys o.hash).filter (· ≠ k) ++ [k]

section Effects

variable {o : Obj H V} (ho : o.Ordinary) {k : UInt32}

include ho

theorem Effect.refl (k : UInt32) : Effect N k o o where
  ordinary := ho
  find_ne _ _ := rfl
  order := .inl ⟨rfl, .inl⟩

theorem Obj.Ordinary.update {hash : H} {p : Property V F}
    (hfind : find hash = Function.update (find o.hash) k (some p)) (hp : ∀ h, p.slot ≠ .handler h) :
    ({ o with hash } : Obj H V).Ordinary where
  kind := ho.kind
  shared := ho.shared
  noHandler {j q} hj := by
    rw [hfind, Function.update_apply] at hj
    split_ifs at hj with hjk
    · obtain rfl := Option.some.inj hj
      exact hp
    · exact ho.noHandler hj

theorem Effect.write {p : Property V F} (hk : k ∈ keys o.hash) (hp : ∀ h, p.slot ≠ .handler h)
    (hnew : p.isWhiteout = false → (o.own k).isSome = true ∨ ∃ n, N.IsIndex k n) :
    Effect N k o (o.write k p) where
  ordinary := ho.update (find_write p hk) hp
  find_ne j hj := by
    change find (PropHash.write o.hash k p) j = _
    rw [find_write p hk, Function.update_of_ne hj]
  order := by
    refine .inl ⟨keys_write _ _ _, fun hown => hnew ?_⟩
    obtain ⟨q, hq⟩ := Option.isSome_iff_exists.mp hown
    obtain ⟨hfind, hwhite⟩ := own_eq_some.mp hq
    change find (PropHash.write o.hash k p) k = some q at hfind
    rw [find_write p hk, Function.update_self] at hfind
    rwa [Option.some.inj hfind]

theorem Effect.insert {r : Bool} {hash : H} {p : Property V F} (hk : k ∉ keys o.hash)
    (hp : ∀ h, p.slot ≠ .handler h) (hwhite : p.isWhiteout = false)
    (hins : PropHash.insert r o.hash k p = some hash) : Effect N k o { o with hash } where
  ordinary := ho.update (find_insert hins) hp
  find_ne j hj := by
    rw [find_insert hins, Function.update_of_ne hj]
  order := by
    refine .inr ⟨?_, ?_, ?_⟩
    · rw [Obj.own, find_eq_none hk]
      rfl
    · rw [own_eq_some.mpr ⟨by rw [find_insert hins, Function.update_self], hwhite⟩]
      rfl
    · rw [keys_insert hins, if_neg hk, List.filter_eq_self.mpr]
      intro j hj
      refine decide_eq_true ?_
      rintro rfl
      exact hk hj

omit ho in
theorem ecw_noHandler (v : V) (h : Handler) : (ecw v : Property V F).slot ≠ .handler h := nofun

theorem Effect.revive {hash : H} {v : V} (hk : o.own k = none)
    (hadd : addElt (delete o.hash k) k (ecw v) = some hash) : Effect N k o { o with hash } := by
  have hnot : k ∉ keys (delete o.hash k) := by simp [keys_delete]
  have hfind : find hash = Function.update (find o.hash) k (some (ecw v)) := by
    rw [find_addElt hnot hadd, find_delete, Function.update_idem]
  exact
    { ordinary := ho.update hfind (ecw_noHandler v)
      find_ne := fun j hj => by rw [hfind, Function.update_of_ne hj]
      order := .inr ⟨hk, by
        rw [own_eq_some.mpr ⟨by rw [hfind, Function.update_self], rfl⟩]
        rfl, by rw [keys_addElt hnot hadd, keys_delete]⟩ }

theorem Effect.store {p : Property V F} (hp : ∀ h, p.slot ≠ .handler h)
    (hwhite : p.isWhiteout = false)
    (hindex : o.own k = none → k ∈ keys o.hash → ∃ n, N.IsIndex k n) :
    Effect N k o (o.store k p).1 := by
  rw [Obj.store]
  cases hins : PropHash.insert true o.hash k p with
  | none => exact .refl ho k
  | some hash =>
    by_cases hmem : k ∈ keys o.hash
    · exact
        { ordinary := ho.update (find_insert hins) hp
          find_ne := fun j hj => by
            change find hash j = _
            rw [find_insert hins, Function.update_of_ne hj]
          order := .inl ⟨by
            change keys hash = _
            rw [keys_insert hins, if_pos hmem], fun _ => by
            cases hk : o.own k with
            | none => exact .inr (hindex hk hmem)
            | some p => exact .inl rfl⟩ }
    · exact .insert ho hmem hp hwhite hins

theorem Effect.addProperty (hk : o.own k = none) (v : V) :
    Effect N k o (addProperty k (find o.hash k).isSome v o : Obj H V × Outcome F).1 := by
  rw [Object.addProperty]
  split_ifs with hext hmem
  · exact .refl ho k
  · cases hadd : addElt (delete o.hash k) k (ecw v) with
    | none => exact .refl ho k
    | some hash => exact .revive ho hk hadd
  · cases hins : PropHash.insert false o.hash k (ecw v) with
    | none => exact .refl ho k
    | some hash => exact .insert ho (notMem_of_insert hins) (ecw_noHandler v) rfl hins

end Effects

/-! ### Assignment -/

/-- The handlers that insert a property into the table of the object that is written to. -/
def Property.stores (p : Property V F) : Bool :=
  match p.slot with
  | .handler .functionPrototype | .handler .objectConstructor => p.writable
  | _ => false

def Obj.tableProperty (o : Obj H V) (k : UInt32) : Option (Property V F) :=
  match find o.hash k with
  | some p => if p.isWhiteout then none else some p
  | none => find o.sharedHash k

def inherited (k : UInt32) (protos : List (Obj H V)) : Option (Property V F) :=
  protos.findSome? fun o => o.tableProperty k

theorem stores_privateCopy (k : UInt32) (p : Property V F) :
    ({ p with slot := njsPropPrivateCopy host k p.slot } : Property V F).stores = p.stores := by
  obtain ⟨slot, e, c, w⟩ := p
  cases slot with
  | accessor getter setter =>
    cases getter with
    | none => rfl
    | some getter =>
      rw [Property.stores, njsPropPrivateCopy]
      simp only
      split_ifs <;> rfl
  | _ => rfl

theorem kindQuery_of_not_index (hN : N.Lawful) {k : UInt32} (hk : ¬∃ n, N.IsIndex k n)
    (mode : Mode) (o : Obj H V) : kindQuery N host mode k o = .ok (o, .declined false) := by
  have harray : N.arrayIndex k = none := by
    refine Option.eq_none_iff_forall_ne_some.mpr fun n hn => hk ⟨n, ?_⟩
    exact hN.arrayIndex_iff.mp hn
  have hatom : ¬njsAtomIsNumber k.toNat = true := by
    intro hatom
    have hlt := njsAtomNumber_lt k.toNat
    exact hk ⟨_, hN.text_number k hatom, by omega⟩
  rw [kindQuery]
  cases o.kind with
  | fast start => rw [harray]; rfl
  | slow length => rw [harray]; rfl
  | string chars =>
    simp only [njsStringPropertyQuery, if_neg hatom]
    rfl
  | object => rfl
  | function n name => rfl

theorem protoQuery_stores (hN : N.Lawful) {k : UInt32} (hk : ¬∃ n, N.IsIndex k n) (mode : Mode) :
    ∀ {protos protos' : List (Obj H V)} {f : Found V F},
      protoQuery N host mode k protos = .ok (protos', some f) →
      ∃ p q, f = .prop p ∧ inherited k protos = some q ∧ p.stores = q.stores := by
  intro protos
  induction protos with
  | nil =>
    intro protos' f h
    cases h
  | cons o protos ih =>
    intro protos' f h
    have hlevel : levelQuery N host mode k o = hashQuery host k o := by
      rw [levelQuery, kindQuery_of_not_index hN hk]
      rfl
    -- The rest of the chain is asked if the tables do not have the key.
    have hrest (hnone : o.tableProperty k = none) {protos₁ : List (Obj H V)}
        (hproto : protoQuery N host mode k protos = .ok (protos₁, some f)) :
        ∃ p q, f = .prop p ∧ inherited k (o :: protos) = some q ∧ p.stores = q.stores := by
      rw [inherited, List.findSome?_cons, hnone]
      exact ih hproto
    rw [protoQuery, hlevel, hashQuery] at h
    cases hfind : find o.hash k with
    | some p =>
      rw [hfind] at h
      cases hwhite : p.isWhiteout with
      | true =>
        simp only [hwhite, if_true] at h
        cases hproto : protoQuery N host mode k protos with
        | error e =>
          rw [hproto] at h
          cases h
        | ok r =>
          obtain ⟨protos₁, f₁⟩ := r
          rw [hproto] at h
          cases h
          exact hrest (by rw [Obj.tableProperty, hfind]; simp [hwhite]) hproto
      | false =>
        simp only [hwhite] at h
        cases h
        refine ⟨p, p, rfl, ?_, rfl⟩
        rw [inherited, List.findSome?_cons, Obj.tableProperty, hfind]
        simp [hwhite]
    | none =>
      rw [hfind] at h
      cases hshared : find o.sharedHash k with
      | some q =>
        rw [hshared] at h
        simp only at h
        cases hins : PropHash.insert false o.hash k
            { q with slot := njsPropPrivateCopy host k q.slot } with
        | none =>
          rw [hins] at h
          cases h
        | some hash =>
          rw [hins] at h
          cases h
          refine ⟨_, q, rfl, ?_, stores_privateCopy k q⟩
          rw [inherited, List.findSome?_cons, Obj.tableProperty, hfind]
          simp [hshared]
      | none =>
        rw [hshared] at h
        cases hproto : protoQuery N host mode k protos with
        | error e =>
          rw [hproto] at h
          cases h
        | ok r =>
          obtain ⟨protos₁, f₁⟩ := r
          rw [hproto] at h
          cases h
          exact hrest (by rw [Obj.tableProperty, hfind]; exact hshared) hproto

/-- The condition under which an assignment does not put a deleted key back at its old place. -/
def AssignsLast (N : Names ν) (k : UInt32) (o : Obj H V) (protos : List (Obj H V)) : Prop :=
  o.own k = none → k ∈ keys o.hash → (∃ p, inherited k protos = some p ∧ p.stores = true) →
    ∃ n, N.IsIndex k n

section Steps

variable {o : Obj H V} (ho : o.Ordinary) {k : UInt32} (hN : N.Lawful)

include ho

theorem setFound_own {p : Property V F} (hk : o.own k = some p) (w : Bool) (v : V) :
    Effect N k o (setFound N host k p true w v o).1 := by
  obtain ⟨hfind, hwhite⟩ := own_eq_some.mp hk
  have hmem : k ∈ keys o.hash := mem_keys.mpr (by rw [hfind]; rfl)
  rw [setFound.eq_def]
  cases hslot : p.slot with
  | value v₀ =>
    simp only [ho.kind, Kind.isArray, Bool.false_eq_true, false_and, if_false, if_true]
    split_ifs
    · exact .refl ho k
    · exact .write ho hmem (fun h => nofun) fun _ => .inl (by rw [hk]; rfl)
  | handler h => exact absurd hslot (ho.noHandler hfind h)
  | accessor getter setter =>
    cases setter with
    | none => exact .refl ho k
    | some setter => exact .refl ho k
  | whiteout => exact .refl ho k

theorem setFound_inherited {p : Property V F} (hk : o.own k = none)
    (hlast : p.stores = true → k ∈ keys o.hash → ∃ n, N.IsIndex k n) (v : V) :
    Effect N k o (setFound N host k p false (find o.hash k).isSome v o).1 := by
  rw [setFound.eq_def]
  cases hslot : p.slot with
  | value v₀ =>
    simp only [Bool.false_eq_true, if_false]
    split_ifs
    · exact .refl ho k
    · exact .addProperty ho hk v
  | handler h =>
    simp only [Bool.false_eq_true, if_false]
    split_ifs with hwritable
    · exact .refl ho k
    have hstores : ∀ h', h = h' → h' = .functionPrototype ∨ h' = .objectConstructor →
        p.stores = true := by
      rintro h' rfl (rfl | rfl) <;> simpa [Property.stores, hslot] using hwritable
    cases h with
    | arrayLength =>
      simp only [Handler.assign, ho.kind, Kind.isArray, Bool.false_eq_true, if_false]
      exact .addProperty ho hk v
    | functionPrototype =>
      exact .store ho (fun h => nofun) rfl fun _ => hlast (hstores _ rfl (.inl rfl))
    | objectConstructor =>
      exact .store ho (fun h => nofun) rfl fun _ => hlast (hstores _ rfl (.inr rfl))
    | _ => exact .refl ho k
  | accessor getter setter =>
    cases setter with
    | none => exact .refl ho k
    | some setter => exact .refl ho k
  | whiteout => exact .refl ho k

include hN

theorem Effect.assign {protos : List (Obj H V)} (hlast : AssignsLast N k o protos) (v : V) :
    Effect N k o (njsValuePropertySet N host k v o protos).1.1 := by
  have hslow : njsValuePropertySet N host k v o protos = setSlow N host k v o protos := by
    rw [njsValuePropertySet, ho.kind]
  rw [hslow, setSlow]
  cases hk : o.own k with
  | some p =>
    rw [query_own ho hk]
    exact setFound_own ho hk false v
  | none =>
    rw [query_inherited ho hk]
    cases hproto : protoQuery N host .set k protos with
    | error e => exact .refl ho k
    | ok r =>
      obtain ⟨protos', f⟩ := r
      cases f with
      | none => exact .addProperty ho hk v
      | some f =>
        have hstores : ∀ p, f = .prop p ∨ f = .scratch p → p.stores = true → k ∈ keys o.hash →
            ∃ n, N.IsIndex k n := by
          intro p hf hp hmem
          by_contra hindex
          obtain ⟨p', q, hf', hq, heq⟩ := protoQuery_stores hN hindex .set hproto
          rw [hf'] at hf
          rcases hf with hf | hf
          · cases hf
            exact hindex (hlast hk hmem ⟨q, hq, heq ▸ hp⟩)
          · cases hf
        cases f with
        | prop p => exact setFound_inherited ho hk (hstores p (.inl rfl)) v
        | scratch p => exact setFound_inherited ho hk (hstores p (.inr rfl)) v
        | ref index placed => exact .addProperty ho hk v

omit hN

theorem Effect.delete (thrw : Bool) :
    Effect N k o (njsValuePropertyDelete N host thrw k o).1 := by
  rw [njsValuePropertyDelete.eq_def]
  cases hk : o.own k with
  | some p =>
    obtain ⟨hfind, -⟩ := own_eq_some.mp hk
    have hmem : k ∈ keys o.hash := mem_keys.mpr (by rw [hfind]; rfl)
    rw [query_own ho hk]
    simp only
    split_ifs
    · exact .write ho hmem (fun h => nofun) nofun
    · exact .refl ho k
    · exact .refl ho k
  | none =>
    rw [query_own_none ho hk]
    exact .refl ho k

theorem Effect.defineNew (hrevive : k ∈ keys o.hash → ∃ n, N.IsIndex k n)
    (d : Definition V F) :
    Effect N k o (defineNew host k (find o.hash k).isSome d o).1 := by
  have hp : ∀ h, (d.complete host).slot ≠ .handler h := by
    rintro h
    rw [Definition.complete]
    cases d.given <;> nofun
  have hwhite : (d.complete host).isWhiteout = false := by
    rw [Property.isWhiteout, Definition.complete]
    cases d.given <;> rfl
  rw [Object.defineNew]
  split_ifs with hext hmem
  · exact .refl ho k
  · have hmem : k ∈ keys o.hash := mem_keys.mpr hmem
    exact .write ho hmem hp fun _ => .inr (hrevive hmem)
  · cases hins : PropHash.insert false o.hash k (d.complete host) with
    | none => exact .refl ho k
    | some hash => exact .insert ho (notMem_of_insert hins) hp hwhite hins

omit ho in
theorem validate_slot [DecidableEq F] {d d' : Definition V F} {p prev : Property V F}
    (h : validate host d p = some (prev, d')) (hp : ∀ h, p.slot ≠ .handler h) :
    ∀ h, prev.slot ≠ .handler h := by
  have hsame : p = prev → ∀ h, prev.slot ≠ .handler h := by
    rintro rfl
    exact hp
  rw [validate.eq_def] at h
  split_ifs at h
  · cases h
    exact hsame rfl
  · cases h
    exact fun h => nofun
  · cases h
    exact fun h => nofun
  · cases h
    exact hsame rfl
  · split at h
    · split_ifs at h
      cases h
      exact hsame rfl
    · cases h
      exact hsame rfl

theorem Effect.applyDefinition {p prev : Property V F} (hk : o.own k = some p)
    (hp : ∀ h, prev.slot ≠ .handler h) (d : Definition V F) :
    Effect N k o (applyDefinition N host k prev d o).1 := by
  obtain ⟨hfind, -⟩ := own_eq_some.mp hk
  have hmem : k ∈ keys o.hash := mem_keys.mpr (by rw [hfind]; rfl)
  have hwrite (q : Property V F) (hq : ∀ h, q.slot ≠ .handler h) : Effect N k o (o.write k q) :=
    .write ho hmem hq fun _ => .inl (by rw [hk]; rfl)
  rw [Object.applyDefinition.eq_def]
  split
  · exact hwrite _ fun h => nofun
  · exact hwrite _ fun h => nofun
  · exact hwrite _ hp
  · exact absurd ‹_› (hp _)
  · rw [ho.kind, if_neg fun h => nomatch h.1]
    exact hwrite _ fun h => nofun
  · exact hwrite _ fun h => nofun

theorem Effect.define [DecidableEq F]
    (hrevive : o.own k = none → k ∈ keys o.hash → ∃ n, N.IsIndex k n) (type : DefineType V F) :
    Effect N k o (njsObjectPropDefine N host k type o).1 := by
  obtain ⟨r, hr, heff⟩ : ∃ r, defineOnce N host k type o = .done r ∧ Effect N k o r.1 := by
    rw [defineOnce]
    cases hk : o.own k with
    | none =>
      rw [query_own_none ho hk]
      cases type.definition host with
      | error e => exact ⟨_, rfl, .refl ho k⟩
      | ok d => exact ⟨_, rfl, .defineNew ho (hrevive hk) d⟩
    | some p =>
      obtain ⟨hfind, -⟩ := own_eq_some.mp hk
      rw [query_own ho hk]
      cases type.definition host with
      | error e => exact ⟨_, rfl, .refl ho k⟩
      | ok d =>
        cases hvalid : validate host d p with
        | none =>
          simp only [hvalid]
          exact ⟨_, rfl, .refl ho k⟩
        | some r =>
          obtain ⟨prev, d'⟩ := r
          have hp := validate_slot hvalid (ho.noHandler hfind)
          simp only [hvalid, ho.kind]
          exact ⟨_, rfl, .applyDefinition ho hk hp d'⟩
  rw [njsObjectPropDefine, hr]
  exact heff

end Steps

end Order

end Njs.Object
