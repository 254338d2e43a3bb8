import Njs.FlatHash.Refinement

/-!
# Tables of properties

What the objects use of their hashes: a table lists its keys in the order of their creation and
finds at most one property for each. The flat hash is such a table. Its queries have no key but
the atom, so that `njs_flathsh_unique_delete` and `njs_flathsh_delete` do the same.
-/

namespace Njs.Object

open FlatHash FirstMatch

/-- A table of properties. The keys are in the order of their creation. An insertion may be
declined: the key is there already, or there is no room. -/
class PropHash (H : Type) (P : outParam Type) where
  keys : H → List UInt32
  /-- `njs_flathsh_unique_find`. -/
  find : H → UInt32 → Option P
  /-- `NULL`. -/
  empty : H
  /-- What the caller of `njs_flathsh_unique_find` writes into the element that it gets. -/
  write : H → UInt32 → P → H
  /-- `njs_flathsh_unique_insert`, and what its caller writes into the element that it gets. -/
  insert : (replace : Bool) → H → UInt32 → P → Option H
  /-- `njs_flathsh_unique_delete`. -/
  delete : H → UInt32 → H
  /-- `njs_flathsh_add_elt`, and what its caller writes into the element that it gets. -/
  addElt : H → UInt32 → P → Option H
  nodup_keys (h : H) : (keys h).Nodup
  mem_keys {h : H} {k : UInt32} : k ∈ keys h ↔ (find h k).isSome = true
  keys_empty : keys empty = []
  keys_write (h : H) (k : UInt32) (p : P) : keys (write h k p) = keys h
  find_write {h : H} {k : UInt32} (p : P) (hk : k ∈ keys h) :
    find (write h k p) = Function.update (find h) k (some p)
  keys_insert {r : Bool} {h h' : H} {k : UInt32} {p : P} (hins : insert r h k p = some h') :
    keys h' = if k ∈ keys h then keys h else keys h ++ [k]
  find_insert {r : Bool} {h h' : H} {k : UInt32} {p : P} (hins : insert r h k p = some h') :
    find h' = Function.update (find h) k (some p)
  notMem_of_insert {h h' : H} {k : UInt32} {p : P} (hins : insert false h k p = some h') :
    k ∉ keys h
  keys_delete (h : H) (k : UInt32) : keys (delete h k) = (keys h).filter (· ≠ k)
  find_delete (h : H) (k : UInt32) : find (delete h k) = Function.update (find h) k none
  keys_addElt {h h' : H} {k : UInt32} {p : P} (hk : k ∉ keys h) (hadd : addElt h k p = some h') :
    keys h' = keys h ++ [k]
  find_addElt {h h' : H} {k : UInt32} {p : P} (hk : k ∉ keys h) (hadd : addElt h k p = some h') :
    find h' = Function.update (find h) k (some p)

theorem PropHash.find_eq_none {H P : Type} [PropHash H P] {h : H} {k : UInt32}
    (hk : k ∉ keys h) : find h k = none := by
  rwa [mem_keys, Option.not_isSome_iff_eq_none] at hk

theorem PropHash.find_empty {H P : Type} [PropHash H P] (k : UInt32) : find (empty : H) k = none :=
  find_eq_none (by simp [keys_empty])

/-! ### The flat hash -/

section FlatTable

variable {P : Type}

def atomQuery (replace : Bool) (k : UInt32) : Query Unit where
  keyHash := k
  key := ()
  replace := replace

/-- The property that `njs_flathsh_unique_find` finds. -/
def flatFind (fh : Flathsh Unit P) (k : UInt32) : Option P :=
  (njsFlathshUniqueFind (atomQuery false k) fh).map Elt.value

def flatKeys (fh : Flathsh Unit P) : List UInt32 := (mapOf fh).reverse.map Entry.keyHash

/-- Writing into the element that `njs_flathsh_unique_find` finds. -/
def flatWrite (fh : Flathsh Unit P) (k : UInt32) (p : P) : Flathsh Unit P :=
  match fh with
  | none => none
  | some h =>
    match search h (atomQuery false k) (atomQuery false k).testHash with
    | some (_, elt) => some (h.store elt () p)
    | none => some h

/-- `njs_flathsh_unique_insert` into a hash that has room for 26 bits of an element's number. -/
def flatInsert (junk : ℕ → Elt Unit P) (replace : Bool) (fh : Flathsh Unit P) (k : UInt32)
    (p : P) : Option (Flathsh Unit P) :=
  if countOf fh + 1 < 2 ^ 26 then
    match njsFlathshUniqueInsert junk true (atomQuery replace k) fh with
    | (some h, .ok, some elt) => some (some (h.store elt () p))
    | _ => none
  else none

/-- `njs_flathsh_unique_delete`. -/
def flatDelete (fh : Flathsh Unit P) (k : UInt32) : Flathsh Unit P :=
  (njsFlathshDelete true (atomQuery false k) fh).1

/-- `njs_flathsh_new`, for a hash that has no chunk, and `njs_flathsh_add_elt`. -/
def flatAddElt (junk : ℕ → Elt Unit P) (fh : Flathsh Unit P) (k : UInt32) (p : P) :
    Option (Flathsh Unit P) :=
  if countOf fh + 1 < 2 ^ 26 then
    let h :=
      match fh with
      | none => njsFlathshNew junk
      | some h => h
    (njsFlathshAddElt true (atomQuery false k) h).map fun (h, elt) => some (h.store elt () p)
  else none

/-- A flat hash of properties: fewer than 2^26 elements were put into it, no two for one atom. -/
structure Valid (fh : Flathsh Unit P) : Prop where
  holds : Holds fh
  count_lt : countOf fh < 2 ^ 26
  nodup : ((mapOf fh).map Entry.keyHash).Nodup

variable {junk : ℕ → Elt Unit P} {fh fh' : Flathsh Unit P} {k : UInt32} {p : P}

theorem testHash_hash (r : Bool) (k : UInt32) (e : Elt Unit P)
    (he : (atomQuery r k).testHash e = true) : e.keyHash = (atomQuery r k).keyHash :=
  of_decide_eq_true he

theorem flatFind_eq (hfh : Holds fh) (k : UInt32) :
    flatFind fh k = ((mapOf fh).find? fun e => e.keyHash = k).map Entry.value := by
  have heq := findElt_eq (q := fun e => e.keyHash = k) hfh (testHash_hash false k) fun _ => rfl
  rw [← heq, Option.map_map]
  rfl

theorem mem_flatKeys (fh : Flathsh Unit P) (k : UInt32) :
    k ∈ flatKeys fh ↔ ((mapOf fh).find? fun e => e.keyHash = k).isSome = true := by
  simp [flatKeys]

theorem search_cases (hv : Valid fh) (r : Bool) (k : UInt32) :
    ((mapOf fh).find? (fun e => e.keyHash = k) = none ∧
      ∀ h, fh = some h → search h (atomQuery r k) (atomQuery r k).testHash = none) ∨
    ∃ h prev elt, fh = some h ∧
      search h (atomQuery r k) (atomQuery r k).testHash = some (prev, elt) ∧
      Found h (atomQuery r k) (atomQuery r k).testHash prev elt := by
  match fh, hv.holds with
  | none, _ => exact .inl ⟨rfl, fun h hh => nomatch hh⟩
  | some h, hi =>
    obtain ⟨hs, hnone⟩ | ⟨prev, elt, hs, hf⟩ := Inv.search_cases hi (testHash_hash r k)
    · refine .inl ⟨?_, fun h' hh => Option.some.inj hh ▸ hs⟩
      rw [mapOf, find?_entries]
      exact congrArg (Option.map _) hnone
    · exact .inr ⟨h, prev, elt, rfl, hs, hf⟩

theorem keyHash_replaceP (k : UInt32) (p : P) (l : List (Entry Unit P)) :
    (replaceP (fun e => e.keyHash = k) ⟨k, (), p⟩ l).map Entry.keyHash = l.map Entry.keyHash :=
  map_replaceP (fun e he => by simpa using he) l

theorem store_spec {h : Descr Unit P} (hv : Valid (some h)) {r : Bool} {prev : Option ℕ} {elt : ℕ}
    (hf : Found h (atomQuery r k) (atomQuery r k).testHash prev elt) (p : P) :
    Valid (some (h.store elt () p)) ∧ mapOf (some (h.store elt () p)) =
        replaceP (fun e => e.keyHash = k) ⟨k, (), p⟩ (mapOf (some h)) := by
  have hmap : mapOf (some (h.store elt () p)) =
      replaceP (fun e => e.keyHash = k) ⟨k, (), p⟩ (mapOf (some h)) :=
    hf.entries_store (q := fun e => e.keyHash = k) (fun _ => rfl) (testHash_hash r k) () p
  refine ⟨⟨Inv.store hv.holds elt () p, hv.count_lt, ?_⟩, hmap⟩
  rw [hmap, keyHash_replaceP]
  exact hv.nodup

theorem flatWrite_spec (hv : Valid fh) (k : UInt32) (p : P) : Valid (flatWrite fh k p) ∧
      mapOf (flatWrite fh k p) = replaceP (fun e => e.keyHash = k) ⟨k, (), p⟩ (mapOf fh) := by
  obtain ⟨hnone, hs⟩ | ⟨h, prev, elt, rfl, hs, hf⟩ := search_cases hv false k
  · rw [replaceP_of_none hnone]
    cases fh with
    | none => exact ⟨hv, rfl⟩
    | some h =>
      rw [flatWrite, hs h rfl]
      exact ⟨hv, rfl⟩
  · rw [flatWrite, hs]
    exact store_spec hv hf p

theorem flatInsert_spec (hv : Valid fh) {r : Bool} (hins : flatInsert junk r fh k p = some fh') :
    Valid fh' ∧ (((mapOf fh).find? fun e => e.keyHash = k) = none ∧
        mapOf fh' = ⟨k, (), p⟩ :: mapOf fh ∨
      ((mapOf fh).find? fun e => e.keyHash = k).isSome = true ∧ r = true ∧
        mapOf fh' = replaceP (fun e => e.keyHash = k) ⟨k, (), p⟩ (mapOf fh)) := by
  rw [flatInsert, njsFlathshUniqueInsert] at hins
  split_ifs at hins with hroom
  obtain ⟨hnone, -⟩ | ⟨h, prev, elt, rfl, hs, hf⟩ := search_cases hv r k
  · obtain ⟨h, elt, heq, hstore⟩ := insertElt_new hv.holds hv.count_lt (testHash_hash r k)
      (q := fun e => e.keyHash = k) (fun _ => rfl) hnone junk
    rw [heq] at hins
    obtain rfl := Option.some.inj hins
    obtain ⟨hi, hmap, hcount⟩ := hstore () p
    refine ⟨⟨hi, hcount ▸ hroom, ?_⟩, .inl ⟨hnone, hmap⟩⟩
    rw [hmap, List.map_cons, List.nodup_cons]
    refine ⟨fun hk => ?_, hv.nodup⟩
    obtain ⟨e, he, hek⟩ := List.mem_map.mp hk
    exact List.find?_eq_none.mp hnone e he (decide_eq_true hek)
  rw [insertElt] at hins
  simp only [hs] at hins
  split_ifs at hins with hr
  · obtain rfl := Option.some.inj hins
    obtain ⟨hv', hmap⟩ := store_spec hv hf p
    refine ⟨hv', .inr ⟨?_, hr, hmap⟩⟩
    rw [mapOf, find?_entries]
    exact congrArg Option.isSome (congrArg (Option.map _) hf.find)

theorem flatDelete_spec (hv : Valid fh) (k : UInt32) : Valid (flatDelete fh k) ∧
      mapOf (flatDelete fh k) = (mapOf fh).eraseP fun e => e.keyHash = k := by
  have hsame : (atomQuery false k).same (ν := P) = fun e => decide (e.keyHash = k) := by
    funext e
    rw [Query.same, decide_eq_true (Subsingleton.elim e.key _), Bool.and_true]
    rfl
  obtain ⟨hi, heq⟩ := njsFlathshDelete_spec hv.holds hv.count_lt (atomQuery false k)
  have hmap : mapOf (flatDelete fh k) = (mapOf fh).eraseP fun e => e.keyHash = k := by
    have hfst := congrArg Prod.fst heq
    rw [deleteEntry, hsame] at hfst
    refine hfst.trans ?_
    split_ifs with hfound
    · rfl
    · rw [List.eraseP_of_forall_not]
      intro e he hek
      rw [Option.not_isSome_iff_eq_none, List.find?_eq_none] at hfound
      exact hfound e he hek
  refine ⟨⟨hi, (njsFlathshDelete_count_le hv.holds hv.count_lt _).trans_lt hv.count_lt, ?_⟩, hmap⟩
  rw [hmap]
  exact nodup_eraseP hv.nodup

theorem flatAddElt_spec (hv : Valid fh) (hk : (mapOf fh).find? (fun e => e.keyHash = k) = none)
    (hadd : flatAddElt junk fh k p = some fh') :
    Valid fh' ∧ mapOf fh' = ⟨k, (), p⟩ :: mapOf fh := by
  rw [flatAddElt.eq_def] at hadd
  split_ifs at hadd with hroom
  obtain ⟨h, hi, hslot, hent, hc⟩ : ∃ h, Inv h ∧
      (match fh with | none => njsFlathshNew junk | some h => h) = h ∧ entries h = mapOf fh ∧
        h.eltsCount = countOf fh := by
    match fh, hv.holds with
    | none, _ => exact ⟨njsFlathshNew junk, inv_new junk, rfl, rfl, rfl⟩
    | some h, hi => exact ⟨h, hi, rfl, rfl, rfl⟩
  obtain ⟨h', heq, hi', hc', hent'⟩ := hi.addElt (hc ▸ hv.count_lt) (atomQuery false k)
  simp only [hslot, heq, Option.map_some, Option.some.injEq] at hadd
  subst hadd
  have hmap := hent' () p
  rw [hent] at hmap
  refine ⟨⟨hi'.store _ _ _, ?_, ?_⟩, hmap⟩
  · change h'.eltsCount < 2 ^ 26
    omega
  · rw [mapOf, hmap, List.map_cons, List.nodup_cons]
    refine ⟨fun hmem => ?_, hv.nodup⟩
    obtain ⟨e, he, hek⟩ := List.mem_map.mp hmem
    exact List.find?_eq_none.mp hk e he (decide_eq_true hek)

def FlatTable (_junk : ℕ → Elt Unit P) : Type := { fh : Flathsh Unit P // Valid fh }

theorem flatKeys_of_cons {e : Entry Unit P} (h : mapOf fh' = e :: mapOf fh) :
    flatKeys fh' = flatKeys fh ++ [e.keyHash] := by
  rw [flatKeys, h, List.reverse_cons, List.map_append]
  rfl

theorem flatKeys_of_replaceP
    (h : mapOf fh' = replaceP (fun e => e.keyHash = k) ⟨k, (), p⟩ (mapOf fh)) :
    flatKeys fh' = flatKeys fh := by
  rw [flatKeys, h, List.map_reverse, keyHash_replaceP, ← List.map_reverse]
  rfl

theorem flatFind_of_cons (hv : Valid fh) (hv' : Valid fh')
    (h : mapOf fh' = ⟨k, (), p⟩ :: mapOf fh) :
    flatFind fh' = Function.update (flatFind fh) k (some p) := by
  funext k'
  rw [flatFind_eq hv'.holds, h, List.find?_cons, Function.update_apply, flatFind_eq hv.holds]
  by_cases hk : k' = k
  · rw [if_pos hk, decide_eq_true hk.symm]
    rfl
  · rw [if_neg hk, decide_eq_false (Ne.symm hk)]

theorem flatFind_of_replaceP (hv : Valid fh) (hv' : Valid fh')
    (hk : ((mapOf fh).find? fun e => e.keyHash = k).isSome = true)
    (h : mapOf fh' = replaceP (fun e => e.keyHash = k) ⟨k, (), p⟩ (mapOf fh)) :
    flatFind fh' = Function.update (flatFind fh) k (some p) := by
  obtain ⟨e, he⟩ := Option.isSome_iff_exists.mp hk
  have hek : e.keyHash = k := by simpa using List.find?_some he
  funext k'
  rw [flatFind_eq hv'.holds, h, find?_replaceP hv.nodup he (b := ⟨k, (), p⟩) hek.symm,
    Function.update_apply, flatFind_eq hv.holds]
  by_cases hk' : k' = k
  · rw [if_pos hk', if_pos hk'.symm]
    rfl
  · rw [if_neg hk', if_neg (Ne.symm hk')]

/-- The table that a call leaves, if it is served. -/
def FlatTable.of? (o : Option (Flathsh Unit P)) (h : ∀ fh, o = some fh → Valid fh) :
    Option (FlatTable junk) :=
  match o, h with
  | some fh, h => some ⟨fh, h fh rfl⟩
  | none, _ => none

theorem FlatTable.of?_eq_some {o : Option (Flathsh Unit P)} {h : ∀ fh, o = some fh → Valid fh}
    {t : FlatTable junk} (ht : FlatTable.of? o h = some t) : o = some t.1 := by
  cases o with
  | none => cases ht
  | some fh =>
    obtain rfl := Option.some.inj ht
    rfl

theorem find?_eq_none_of_flatKeys (hk : k ∉ flatKeys fh) :
    (mapOf fh).find? (fun e => e.keyHash = k) = none := by
  rwa [mem_flatKeys, Option.not_isSome_iff_eq_none] at hk

instance : PropHash (FlatTable junk) P where
  keys fh := flatKeys fh.1
  find fh := flatFind fh.1
  empty := ⟨none, trivial, Nat.two_pow_pos 26, List.nodup_nil⟩
  write fh k p := ⟨flatWrite fh.1 k p, (flatWrite_spec fh.2 k p).1⟩
  insert r fh k p :=
    FlatTable.of? (flatInsert junk r fh.1 k p) fun _ h => (flatInsert_spec fh.2 h).1
  delete fh k := ⟨flatDelete fh.1 k, (flatDelete_spec fh.2 k).1⟩
  addElt fh k p :=
    -- The atom has been deleted before.
    if hk : k ∉ flatKeys fh.1 then
      FlatTable.of? (flatAddElt junk fh.1 k p) fun _ h =>
        (flatAddElt_spec fh.2 (find?_eq_none_of_flatKeys hk) h).1
    else none
  nodup_keys fh := by
    have := fh.2.nodup
    rwa [flatKeys, List.map_reverse, List.nodup_reverse]
  mem_keys {fh k} := by
    rw [mem_flatKeys, flatFind_eq fh.2.holds, Option.isSome_map]
  keys_empty := rfl
  keys_write fh k p := flatKeys_of_replaceP (flatWrite_spec fh.2 k p).2
  find_write {fh k} p hk :=
    flatFind_of_replaceP fh.2 (flatWrite_spec fh.2 k p).1 ((mem_flatKeys _ _).mp hk)
      (flatWrite_spec fh.2 k p).2
  keys_insert {r fh fh' k p} hins := by
    rcases (flatInsert_spec fh.2 (FlatTable.of?_eq_some hins)).2 with ⟨hnone, h⟩ | ⟨hsome, -, h⟩
    · rw [if_neg (by simp [mem_flatKeys, hnone])]
      exact flatKeys_of_cons h
    · rw [if_pos ((mem_flatKeys _ _).mpr hsome)]
      exact flatKeys_of_replaceP h
  find_insert {r fh fh' k p} hins := by
    rcases (flatInsert_spec fh.2 (FlatTable.of?_eq_some hins)).2 with ⟨-, h⟩ | ⟨hsome, -, h⟩
    · exact flatFind_of_cons fh.2 fh'.2 h
    · exact flatFind_of_replaceP fh.2 fh'.2 hsome h
  notMem_of_insert {fh fh' k p} hins := by
    rcases (flatInsert_spec fh.2 (FlatTable.of?_eq_some hins)).2 with ⟨hnone, -⟩ | ⟨-, hr, -⟩
    · simp [mem_flatKeys, hnone]
    · cases hr
  keys_delete fh k := by
    rw [flatKeys, (flatDelete_spec fh.2 k).2, List.map_reverse, map_eraseP fh.2.nodup,
      ← List.filter_reverse, ← List.map_reverse]
    rfl
  find_delete fh k := by
    obtain ⟨hv', hmap⟩ := flatDelete_spec fh.2 k
    funext k'
    rw [flatFind_eq hv'.holds, hmap, find?_eraseP_key fh.2.nodup, Function.update_apply,
      flatFind_eq fh.2.holds]
    split_ifs
    · rfl
    · rfl
  keys_addElt {fh fh' k p} hk hadd := by
    rw [dif_pos hk] at hadd
    exact flatKeys_of_cons (flatAddElt_spec fh.2 (find?_eq_none_of_flatKeys hk)
      (FlatTable.of?_eq_some hadd)).2
  find_addElt {fh fh' k p} hk hadd := by
    rw [dif_pos hk] at hadd
    exact flatFind_of_cons fh.2 fh'.2 (flatAddElt_spec fh.2 (find?_eq_none_of_flatKeys hk)
      (FlatTable.of?_eq_some hadd)).2

end FlatTable

end Njs.Object
