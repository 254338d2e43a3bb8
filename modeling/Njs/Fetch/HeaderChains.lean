import Njs.Fetch.Headers
import Njs.Lib.HttpFields
import Njs.Lib.IndexChain
import Njs.Lib.Multimap

/-!
# Header lists

What Headers objects stand for: an ordered list of pairs of a name and a value, whose names are
compared without case.
-/

namespace Njs.Fetch

open Text Http

/-- A list of pairs, and who made it. -/
structure HeaderList where
  guard : Guard
  pairs : List (Bytes × Bytes) := []

namespace HeaderList

/-- A pair can be stored, its value without white space around it. -/
def check (h : HeaderList) (name value : Bytes) : Except String Unit :=
  if name.all isTchar = false then .error "invalid header name"
  else if (strip value).all isFieldChar = false then .error "invalid header value"
  else if h.guard = .immutable then .error "cannot append to immutable object"
  else .ok ()

def append (h : HeaderList) (name value : Bytes) : Except String HeaderList :=
  (h.check name value).map fun _ => { h with pairs := h.pairs ++ [(name, strip value)] }

def set (h : HeaderList) (name value : Bytes) : Except String HeaderList :=
  (h.check name value).map fun _ =>
    { h with pairs := Multimap.set fold name (strip value) h.pairs }

def delete (h : HeaderList) (name : Bytes) : HeaderList :=
  if h.guard = .immutable then h else { h with pairs := Multimap.erase fold name h.pairs }

def getAll (h : HeaderList) (name : Bytes) : List Bytes := Multimap.values fold name h.pairs

def get (h : HeaderList) (name : Bytes) : Option Bytes :=
  if h.getAll name = [] then none else some ((lit ", ").intercalate (h.getAll name))

def names (h : HeaderList) : List Bytes := (Multimap.keys fold h.pairs).mergeSort (· ≤ ·)

def appendAll (h : HeaderList) (pairs : List (Bytes × Bytes)) : Except String HeaderList :=
  pairs.foldlM (fun h p => h.append p.1 p.2) h

/-- A pair from a list of two items. -/
def appendRow (h : HeaderList) : List Bytes → Except String HeaderList
  | [name, value] => h.append name value
  | _ => .error "header does not contain exactly two items"

/-- The list with all pairs that a constructor is given. -/
def fill (lists : List HeaderList) (h : HeaderList) : Init → Except String HeaderList
  | .headers this =>
    match lists[this]? with
    | none => .ok h
    | some orig => h.appendAll orig.pairs
  | .array rows => rows.foldlM appendRow h
  | .object members => h.appendAll members

def ofRequest (lists : List HeaderList) (orig : Option ℕ) (init : Option Init)
    (stringBody : Bool) : Except String HeaderList :=
  let orig := orig.bind fun this => lists[this]?
  (orig.elim (.ok { guard := .request })
    fun orig => appendAll { guard := .request } orig.pairs).bind fun request =>
  (init.elim (.ok request) (fill lists { guard := .request })).bind fun request =>
    if request.getAll (lit "Content-Type") = [] && stringBody then
      request.append (lit "Content-Type") (lit "text/plain;charset=UTF-8")
    else .ok request

def ofResponse (lines : List (Bytes × Bytes)) : Except String HeaderList :=
  (appendAll { guard := .none } lines).map fun h => { h with guard := .immutable }

end HeaderList

/-! ### Calls -/

/-- All header lists, and the names that are left to calls of `forEach`. -/
structure Heap where
  lists : List HeaderList := []
  loops : List (ℕ × List Bytes) := []

/-- A new list, or the error of its constructor. -/
def Heap.construct (w : Heap) : Except String HeaderList → Heap × Result
  | .ok h => ({ w with lists := w.lists ++ [h] }, .object)
  | .error msg => (w, .typeError msg)

def Heap.update (w : Heap) (this : ℕ) : Except String HeaderList → Heap × Result
  | .ok h => ({ w with lists := w.lists.set this h }, .undefined)
  | .error msg => (w, .typeError msg)

def specCall (inherited : Bytes → Bool) (w : Heap) (this : ℕ) (h : HeaderList) :
    Call → Heap × Result
  | .append name value => w.update this (h.append name value)
  | .set name value => w.update this (h.set name value)
  | .delete name => w.update this (.ok (h.delete name))
  | .get name => (w, ofOption .null (h.get name))
  | .getAll name => (w, .strings (h.getAll name))
  | .has name => (w, .boolean (h.get name).isSome)
  | .prop name =>
    (w, if inherited name then .inherited else ofOption .undefined (h.get name))
  | .keys => (w, .strings h.names)
  | .forEach => ({ w with loops := (this, h.names) :: w.loops }, .undefined)

/-- What a script does with header lists. -/
def specStep (inherited : Bytes → Bool) (w : Heap) : Op → Heap × Result
  | .newHeaders init =>
    w.construct (init.elim (.ok { guard := .none }) (HeaderList.fill w.lists { guard := .none }))
  | .newRequest orig init stringBody =>
    w.construct (HeaderList.ofRequest w.lists orig init stringBody)
  | .fetched lines => w.construct (HeaderList.ofResponse lines)
  | .call this c =>
    match w.lists[this]? with
    | none => (w, .noObject)
    | some h => specCall inherited w this h c
  | .next =>
    match w.loops with
    | [] => (w, .undefined)
    | (_, []) :: loops => ({ w with loops := loops }, .undefined)
    | (this, name :: names) :: loops =>
      match w.lists[this]? with
      | none => (w, .noObject)
      | some h => ({ w with loops := (this, names) :: loops }, .callback name (h.get name))

variable {w : Heap} {inherited : Bytes → Bool} {l : HeaderList}

theorem Heap.construct_typeError {w' : Heap} {r : Except String HeaderList} {msg : String}
    (h : w.construct r = (w', .typeError msg)) : w' = w := by
  cases r with
  | error e => exact (congrArg Prod.fst h).symm
  | ok l => cases congrArg Prod.snd h

theorem Heap.update_typeError {w w' : Heap} {this : ℕ} {r : Except String HeaderList}
    {msg : String} (h : w.update this r = (w', .typeError msg)) : w' = w := by
  cases r with
  | error e => exact (congrArg Prod.fst h).symm
  | ok l => cases congrArg Prod.snd h

theorem specCall_typeError {w' : Heap} {this : ℕ} {c : Call} {msg : String}
    (h : specCall inherited w this l c = (w', .typeError msg)) : w' = w := by
  cases c with
  | append name value => exact Heap.update_typeError (r := l.append name value) h
  | set name value => exact Heap.update_typeError (r := l.set name value) h
  | delete name => exact Heap.update_typeError (r := .ok (l.delete name)) h
  | forEach => cases congrArg Prod.snd h
  | get | getAll | has | prop | keys => exact (congrArg Prod.fst h).symm

theorem specStep_typeError {w' : Heap} {op : Op} {msg : String}
    (h : specStep inherited w op = (w', .typeError msg)) : w' = w := by
  cases op with
  | newHeaders init => exact Heap.construct_typeError h
  | newRequest orig init stringBody => exact Heap.construct_typeError h
  | fetched lines => exact Heap.construct_typeError h
  | call this c =>
    rw [specStep] at h
    cases hget : w.lists[this]? with
    | none => rw [hget] at h; exact (congrArg Prod.fst h).symm
    | some l => rw [hget] at h; exact specCall_typeError h
  | next =>
    rw [specStep] at h
    split at h
    · exact (congrArg Prod.fst h).symm
    · cases congrArg Prod.snd h
    · split at h
      · exact (congrArg Prod.fst h).symm
      · cases congrArg Prod.snd h

theorem HeaderList.check_immutable {h : HeaderList} (himm : h.guard = .immutable)
    (name value : Bytes) : ∃ msg, h.check name value = .error msg := by
  rw [check]
  split_ifs
  · exact ⟨_, rfl⟩
  · exact ⟨_, rfl⟩
  · exact ⟨_, rfl⟩

theorem specCall_immutable {this : ℕ} (hget : w.lists[this]? = some l)
    (himm : l.guard = .immutable) (c : Call) :
    (specCall inherited w this l c).1.lists = w.lists := by
  cases c with
  | append name value =>
    obtain ⟨msg, hmsg⟩ := HeaderList.check_immutable himm name value
    rw [specCall, HeaderList.append, hmsg]
    rfl
  | set name value =>
    obtain ⟨msg, hmsg⟩ := HeaderList.check_immutable himm name value
    rw [specCall, HeaderList.set, hmsg]
    rfl
  | delete name =>
    obtain ⟨hlt, rfl⟩ := List.getElem?_eq_some_iff.mp hget
    rw [specCall, HeaderList.delete, if_pos himm]
    exact List.set_getElem_self hlt
  | get | getAll | has | prop | keys | forEach => rfl

theorem specCall_other {this i : ℕ} (h : this ≠ i) (l : HeaderList) (c : Call) :
    (specCall inherited w this l c).1.lists[i]? = w.lists[i]? := by
  have hupdate : ∀ r, (w.update this r).1.lists[i]? = w.lists[i]? := by
    rintro (e | l')
    · rfl
    · exact List.getElem?_set_ne h
  cases c with
  | append name value => exact hupdate _
  | set name value => exact hupdate _
  | delete name => exact hupdate (.ok _)
  | get | getAll | has | prop | keys | forEach => rfl

theorem Heap.construct_keeps {i : ℕ} (hl : w.lists[i]? = some l) (r : Except String HeaderList) :
    (w.construct r).1.lists[i]? = some l := by
  cases r with
  | error e => exact hl
  | ok l' =>
    obtain ⟨hlt, -⟩ := List.getElem?_eq_some_iff.mp hl
    exact (List.getElem?_append_left hlt).trans hl

theorem specStep_immutable (inherited : Bytes → Bool) (op : Op) {i : ℕ}
    (hl : w.lists[i]? = some l) (himm : l.guard = .immutable) :
    (specStep inherited w op).1.lists[i]? = some l := by
  cases op with
  | newHeaders init => exact Heap.construct_keeps hl _
  | newRequest orig init stringBody => exact Heap.construct_keeps hl _
  | fetched lines => exact Heap.construct_keeps hl _
  | call this c =>
    rw [specStep]
    cases hget : w.lists[this]? with
    | none => exact hl
    | some l' =>
      by_cases h : this = i
      · subst h
        obtain rfl := Option.some.inj (hl.symm.trans hget)
        simp only [specCall_immutable hget himm]
        exact hl
      · exact (specCall_other h l' c).trans hl
  | next =>
    rw [specStep]
    split
    · exact hl
    · exact hl
    · split <;> exact hl

end Njs.Fetch

/-!
## Chains of elements

The chain of a name visits live elements of the name in their order. It visits all of them as long
as no value is set where there are more than one.
-/

namespace Njs.Fetch

open Text Http IndexChain

/-! ### Names and values -/

theorem ngxIsToken_eq (c : UInt8) : ngxIsToken c = isTchar c := by
  revert c
  exact forall_byte (by decide)

theorem checkName_eq (name : Bytes) : ngxJsCheckHeaderName name = name.all isTchar :=
  congrArg name.all (funext ngxIsToken_eq)

theorem checkValue_eq (value : Bytes) : ngxJsCheckHeaderValue value = value.all isFieldChar := by
  have hchar : ∀ c : UInt8, (!(c ≤ 0x08 || 0x0a ≤ c && c ≤ 0x1f || c = 0x7f)) = isFieldChar c :=
    forall_byte (by decide)
  exact congrArg value.all (funext hchar)

theorem lower_eq (c : UInt8) : lower c = Http.lower c := by
  revert c
  exact forall_byte (by decide)

theorem sameName_iff {a b : Bytes} (hb : b.all isTchar = true) :
    sameName a b = true ↔ fold a = fold b := by
  have hzero : ∀ c, isTchar c = true → Http.lower c ≠ 0 := forall_byte (by decide)
  induction a generalizing b with
  | nil => cases b <;> simp [sameName, strncaseeq, fold]
  | cons x a ih =>
    cases b with
    | nil => simp [sameName, fold]
    | cons y b =>
      rw [List.all_cons, Bool.and_eq_true] at hb
      have ih := ih hb.2
      simp only [sameName, fold, Bool.and_eq_true, decide_eq_true_eq] at ih
      simp only [sameName, strncaseeq, lower_eq, fold, List.map_cons, List.length_cons,
        List.cons.injEq, Bool.and_eq_true, Bool.or_eq_true, decide_eq_true_eq, ← ih,
        Nat.add_right_cancel_iff]
      constructor
      · rintro ⟨hlen, hxy, hx | hab⟩
        · exact absurd (hxy ▸ hx) (hzero y hb.1)
        · exact ⟨hxy, hlen, hab⟩
      · rintro ⟨hxy, hlen, hab⟩
        exact ⟨hlen, hxy, .inr hab⟩

/-! ### Positions -/

def Elt.isOf (name : Bytes) (h : Elt) : Bool := h.hash && sameName name h.key

/-- The indices of the live elements of a name. -/
def positions (list : List Elt) (name : Bytes) : List ℕ :=
  (List.range list.length).filter fun i => list[i]?.any (Elt.isOf name)

variable {list : List Elt} {name : Bytes} {i : ℕ} {l : List ℕ}

theorem mem_positions : i ∈ positions list name ↔ ∃ h, list[i]? = some h ∧ h.isOf name = true := by
  rw [positions, List.mem_filter, List.mem_range, Option.any_eq_true]
  constructor
  · rintro ⟨-, h, hh, hof⟩
    exact ⟨h, hh, hof⟩
  · rintro ⟨h, hh, hof⟩
    exact ⟨(List.getElem?_eq_some_iff.mp hh).1, h, hh, hof⟩

theorem lt_of_mem_positions (hi : i ∈ positions list name) : i < list.length :=
  List.mem_range.mp (List.mem_filter.mp hi).1

theorem positions_nodup (list : List Elt) (name : Bytes) : (positions list name).Nodup :=
  List.nodup_range.filter _

theorem positions_concat (list : List Elt) (h : Elt) (name : Bytes) : positions (list ++ [h]) name =
      positions list name ++ if h.isOf name then [list.length] else [] := by
  have hold : ((List.range list.length).filter fun i =>
      (list ++ [h])[i]?.any (Elt.isOf name)) = positions list name := by
    refine List.filter_congr fun i hi => ?_
    rw [List.getElem?_append_left (List.mem_range.mp hi)]
  rw [positions, List.length_append, List.length_singleton, List.range_succ, List.filter_append,
    hold]
  refine congrArg (positions list name ++ ·) ?_
  by_cases hof : h.isOf name = true <;> simp [hof]

theorem findElt_eq (list : List Elt) (name : Bytes) :
    findElt list name = (positions list name).head? := by
  induction list using List.reverseRecOn with
  | nil => rfl
  | append_singleton list h ih =>
    have ih : list.findIdx? (Elt.isOf name) = (positions list name).head? := ih
    rw [positions_concat, List.head?_append, ← ih]
    show (list ++ [h]).findIdx? (Elt.isOf name) = _
    rw [List.findIdx?_append]
    by_cases hof : h.isOf name = true <;> simp [hof]

def pairsOf (list : List Elt) : List (Bytes × Bytes) :=
  (list.filter Elt.hash).map fun h => (h.key, h.value)

theorem pairsOf_concat (list : List Elt) (h : Elt) :
    pairsOf (list ++ [h]) = pairsOf list ++ if h.hash then [(h.key, h.value)] else [] := by
  rw [pairsOf, List.filter_append, List.map_append]
  refine congrArg (pairsOf list ++ ·) ?_
  by_cases hh : h.hash = true <;> simp [hh]

def Tokens (list : List Elt) : Prop := ∀ h ∈ list, h.key.all isTchar = true

theorem isOf_iff (ht : Tokens list) {h : Elt} (hh : h ∈ list) (name : Bytes) :
    h.isOf name = true ↔ h.hash = true ∧ fold h.key = fold name := by
  rw [Elt.isOf, Bool.and_eq_true, sameName_iff (ht h hh), eq_comm (a := fold name)]

theorem values_positions (ht : Tokens list) (name : Bytes) :
    ((positions list name).filterMap fun i => list[i]?.map Elt.value) =
      Multimap.values fold name (pairsOf list) := by
  induction list using List.reverseRecOn with
  | nil => rfl
  | append_singleton list h ih =>
    have ht' : Tokens list := fun x hx => ht x (List.mem_append_left _ hx)
    have hold : ((positions list name).filterMap fun i => (list ++ [h])[i]?.map Elt.value) =
        (positions list name).filterMap fun i => list[i]?.map Elt.value := by
      refine List.filterMap_congr fun i hi => ?_
      rw [List.getElem?_append_left (lt_of_mem_positions hi)]
    rw [positions_concat, List.filterMap_append, hold, ih ht', pairsOf_concat,
      Multimap.values_append]
    refine congrArg (Multimap.values fold name (pairsOf list) ++ ·) ?_
    have hiff := isOf_iff ht (List.mem_append_right list (List.mem_singleton_self h)) name
    by_cases hof : h.isOf name = true
    · obtain ⟨hh, hname⟩ := hiff.mp hof
      simp [hof, hh, hname, Multimap.values]
    · by_cases hh : h.hash = true
      · have hname : fold h.key ≠ fold name := fun heq => hof (hiff.mpr ⟨hh, heq⟩)
        simp [hof, hh, hname, Multimap.values]
      · simp [hof, hh, Multimap.values]

theorem positions_eq_nil (ht : Tokens list) :
    positions list name = [] ↔ Multimap.values fold name (pairsOf list) = [] := by
  rw [← values_positions ht]
  constructor
  · intro h
    rw [h]
    rfl
  intro h
  by_contra hne
  obtain ⟨i, hi⟩ := List.exists_mem_of_ne_nil _ hne
  obtain ⟨x, hx, -⟩ := mem_positions.mp hi
  have hnone := List.filterMap_eq_nil_iff.mp h i hi
  rw [hx] at hnone
  cases hnone

/-! ### Chains -/

/-- The link of an element: 0 ends the chain, and `j + 1` leads to `j`. -/
def nextOf (list : List Elt) (i : ℕ) : ℕ :=
  match list[i]?.bind Elt.next with
  | none => 0
  | some j => j + 1

/-- The link to the first element of a name. -/
def headOf (list : List Elt) (name : Bytes) : ℕ :=
  match findElt list name with
  | none => 0
  | some i => i + 1

/-- The chain of a name visits some of its live elements, in their order. -/
structure Linked (list : List Elt) (name : Bytes) (l : List ℕ) : Prop where
  chain : Chain (nextOf list) (headOf list name) l
  sub : l.Sublist (positions list name)

theorem chain_eq {fuel : ℕ} (h : Chain (nextOf list) (i + 1) l) (hlt : ∀ j ∈ l, j < list.length)
    (hl : l.length ≤ fuel) : chain list fuel i = l := by
  induction fuel generalizing i l with
  | zero =>
    obtain ⟨t, rfl, -⟩ := h.exists_cons
    simp at hl
  | succ fuel ih =>
    obtain ⟨t, rfl, ht⟩ := h.exists_cons
    have hi := hlt i List.mem_cons_self
    have hget : list[i]? = some list[i] := List.getElem?_eq_getElem hi
    rw [chain, hget]
    rw [nextOf, hget, Option.bind_some] at ht
    cases hnext : list[i].next with
    | none =>
      rw [hnext] at ht
      simp only [ht.eq_nil, hnext]
    | some j =>
      rw [hnext] at ht
      simp only [hnext]
      rw [ih ht (fun k hk => hlt k (List.mem_cons_of_mem i hk)) (by simpa using hl)]

theorem chainOf_eq (h : Linked list name l) : chainOf list name = l := by
  have hchain := h.chain
  rw [headOf] at hchain
  rw [chainOf]
  cases hfind : findElt list name with
  | none =>
    rw [hfind] at hchain
    exact hchain.eq_nil.symm
  | some i =>
    rw [hfind] at hchain
    have hlt : ∀ j ∈ l, j < list.length := fun j hj => lt_of_mem_positions (h.sub.subset hj)
    have hlen : l.length ≤ list.length := by
      have hnodup := (positions_nodup list name).sublist h.sub
      have hsub : l ⊆ List.range list.length := fun j hj => List.mem_range.mpr (hlt j hj)
      have hle := (List.subperm_of_subset hnodup hsub).length_le
      rwa [List.length_range] at hle
    exact chain_eq hchain hlt hlen

theorem Linked.unique {l' : List ℕ} (h : Linked list name l) (h' : Linked list name l') :
    l = l' := (chainOf_eq h).symm.trans (chainOf_eq h')

theorem Linked.congr {list' : List Elt} (h : Linked list name l)
    (hpos : positions list' name = positions list name)
    (hnext : ∀ i ∈ l, nextOf list' i = nextOf list i) : Linked list' name l where
  chain := by
    have hhead : headOf list' name = headOf list name := by
      rw [headOf, headOf, findElt_eq, findElt_eq, hpos]
    rw [hhead]
    exact h.chain.congr hnext
  sub := hpos ▸ h.sub

theorem nextOf_setNext (hi : i < list.length) (next : Option ℕ) : nextOf (setNext next list i) =
      Function.update (nextOf list) i (match next with | none => 0 | some j => j + 1) := by
  funext j
  by_cases hj : j = i
  · subst hj
    rw [Function.update_self, nextOf, setNext, List.getElem?_modify, List.getElem?_eq_getElem hi]
    simp
  · rw [Function.update_of_ne hj, nextOf, nextOf, setNext, List.getElem?_modify]
    simp [Ne.symm hj]

theorem positions_modify {f : Elt → Elt} (hf : ∀ h name, (f h).isOf name = h.isOf name)
    (list : List Elt) (i : ℕ) (name : Bytes) :
    positions (list.modify i f) name = positions list name := by
  rw [positions, positions, List.length_modify]
  refine List.filter_congr fun j _ => ?_
  rw [List.getElem?_modify]
  cases list[j]? with
  | none => rfl
  | some h => by_cases hij : i = j <;> simp [hij, hf]

theorem nextOf_concat (list : List Elt) {h : Elt} (hh : h.next = none) :
    nextOf (list ++ [h]) = nextOf list := by
  funext j
  rcases lt_trichotomy j list.length with hj | rfl | hj
  · rw [nextOf, nextOf, List.getElem?_append_left hj]
  · simp [nextOf, hh]
  · rw [nextOf, nextOf, List.getElem?_eq_none (by simp; omega), List.getElem?_eq_none hj.le]

/-! ### Operations -/

theorem positions_congr (ht : Tokens list) {name' : Bytes} (h : fold name = fold name') :
    positions list name = positions list name' := by
  refine List.filter_congr fun i _ => ?_
  cases hget : list[i]? with
  | none => rfl
  | some x =>
    have hx := List.mem_of_getElem? hget
    rw [Option.any_some, Option.any_some, Bool.eq_iff_iff, isOf_iff ht hx, isOf_iff ht hx, h]

theorem fold_eq_of_mem (ht : Tokens list) {name' : Bytes} (h : i ∈ positions list name)
    (h' : i ∈ positions list name') : fold name = fold name' := by
  obtain ⟨x, hx, hof⟩ := mem_positions.mp h
  obtain ⟨y, hy, hof'⟩ := mem_positions.mp h'
  obtain rfl := Option.some.inj (hx.symm.trans hy)
  have hmem := List.mem_of_getElem? hx
  exact ((isOf_iff ht hmem name).mp hof).2.symm.trans ((isOf_iff ht hmem name').mp hof').2

theorem Linked.of_fold_eq (ht : Tokens list) {name' : Bytes} (h : Linked list name l)
    (heq : fold name' = fold name) : Linked list name' l where
  chain := by
    rw [headOf, findElt_eq, positions_congr ht heq, ← findElt_eq]
    exact h.chain
  sub := positions_congr ht heq ▸ h.sub

theorem Linked.eq_nil_iff (h : Linked list name l) : l = [] ↔ positions list name = [] := by
  constructor
  · rintro rfl
    have hchain := h.chain
    rw [headOf, findElt_eq] at hchain
    cases hpos : positions list name with
    | nil => rfl
    | cons i t =>
      rw [hpos] at hchain
      obtain ⟨t, ht, -⟩ := hchain.exists_cons
      cases ht
  · intro hpos
    exact List.sublist_nil.mp (hpos ▸ h.sub)

/-- The list after a new element has been linked. -/
def pushElt (list : List Elt) (name value : Bytes) : List Elt :=
  (match (chainOf list name).getLast? with
    | none => list
    | some i => setNext (some list.length) list i) ++ [⟨true, name, value, none⟩]

theorem isOf_setNext (next : Option ℕ) (h : Elt) (name : Bytes) :
    Elt.isOf name { h with next := next } = h.isOf name := rfl

theorem positions_pushElt (list : List Elt) (name value name' : Bytes) :
    positions (pushElt list name value) name' = positions list name' ++
      if Elt.isOf name' ⟨true, name, value, none⟩ then [list.length] else [] := by
  rw [pushElt, positions_concat]
  cases (chainOf list name).getLast? with
  | none => rfl
  | some i =>
    simp only [setNext, List.length_modify, positions_modify (isOf_setNext _)]

theorem Linked.append {list : List Elt} (ht : Tokens list) {name value : Bytes}
    (hname : name.all isTchar = true) {l : List ℕ} (h : Linked list name l) {name' : Bytes}
    {l' : List ℕ} (h' : Linked list name' l') :
    Linked (pushElt list name value) name'
      (l' ++ if Elt.isOf name' ⟨true, name, value, none⟩ then [list.length] else []) := by
  have hof : Elt.isOf name' ⟨true, name, value, none⟩ = true ↔ fold name' = fold name := by
    rw [Elt.isOf, Bool.true_and, sameName_iff hname]
  have hpos := positions_pushElt list name value name'
  have hlast := chainOf_eq h
  by_cases heq : fold name' = fold name
  · obtain rfl : l' = l := h'.unique (h.of_fold_eq ht heq)
    rw [if_pos (hof.mpr heq)] at hpos ⊢
    have hnew : list.length ∉ l' := fun hmem =>
      absurd (lt_of_mem_positions (h'.sub.subset hmem)) (lt_irrefl _)
    have hend : nextOf list list.length = 0 := by simp [nextOf]
    refine ⟨?_, hpos ▸ h'.sub.append_right _⟩
    cases hget : l'.getLast? with
    | none =>
      obtain rfl := List.getLast?_eq_none_iff.mp hget
      have hempty := h'.eq_nil_iff.mp rfl
      rw [headOf, findElt_eq, hpos, hempty, pushElt, hlast]
      refine .cons ?_
      simp only [List.getLast?_nil, nextOf_concat list (h := ⟨true, name, value, none⟩) rfl, hend]
      exact .nil
    | some i =>
      obtain ⟨l₀, rfl⟩ := List.getLast?_eq_some_iff.mp hget
      have hi := lt_of_mem_positions (h'.sub.subset (List.mem_append_right l₀
        (List.mem_singleton_self i)))
      have hhead : headOf (pushElt list name value) name' = headOf list name' := by
        have hne : positions list name' ≠ [] := fun hnil =>
          List.append_ne_nil_of_right_ne_nil l₀ (List.cons_ne_nil i []) (h'.eq_nil_iff.mpr hnil)
        rw [headOf, headOf, findElt_eq, findElt_eq, hpos, List.head?_append_of_ne_nil _ hne]
      have hnext : nextOf (pushElt list name value) =
          Function.update (nextOf list) i (list.length + 1) := by
        rw [pushElt, hlast, hget]
        simp only [nextOf_concat _ (h := ⟨true, name, value, none⟩) rfl, nextOf_setNext hi]
      rw [hhead, hnext, List.append_assoc]
      exact h'.chain.snoc ((positions_nodup _ _).sublist h'.sub) hnew hend
  · have hfalse : ¬Elt.isOf name' ⟨true, name, value, none⟩ = true := fun hh => heq (hof.mp hh)
    rw [if_neg hfalse, List.append_nil] at hpos ⊢
    refine h'.congr hpos fun j hj => ?_
    rw [pushElt, hlast]
    cases hget : l.getLast? with
    | none => rw [nextOf_concat list (h := ⟨true, name, value, none⟩) rfl]
    | some i =>
      have hmem := h.sub.subset (List.mem_of_getLast? hget)
      have hne : j ≠ i := by
        rintro rfl
        exact heq (fold_eq_of_mem ht (h'.sub.subset hj) hmem)
      simp only [nextOf_concat _ (h := ⟨true, name, value, none⟩) rfl,
        nextOf_setNext (lt_of_mem_positions hmem), Function.update_of_ne hne]

def cutElt (list : List Elt) (i : ℕ) (value : Bytes) : List Elt :=
  let list := list.modify i fun h => { h with value := value }
  (chain list list.length i).foldl (setNext none) list

theorem positions_foldl_setNext (list : List Elt) (l : List ℕ) (name : Bytes) :
    positions (l.foldl (setNext none) list) name = positions list name := by
  induction l generalizing list with
  | nil => rfl
  | cons i l ih => rw [List.foldl_cons, ih, setNext, positions_modify (isOf_setNext _)]

theorem nextOf_foldl_setNext (hl : ∀ i ∈ l, i < list.length) :
    nextOf (l.foldl (setNext none) list) = fun j => if j ∈ l then 0 else nextOf list j := by
  induction l generalizing list with
  | nil => simp
  | cons i l ih =>
    have hlen : (setNext none list i).length = list.length := by rw [setNext, List.length_modify]
    have hnext := @ih (setNext none list i) fun j hj => by
      rw [hlen]
      exact hl j (List.mem_cons_of_mem i hj)
    rw [List.foldl_cons, hnext, nextOf_setNext (hl i List.mem_cons_self)]
    funext j
    by_cases hj : j = i
    · subst hj
      simp
    · simp [hj]

theorem isOf_setValue (value : Bytes) (h : Elt) (name : Bytes) :
    Elt.isOf name { h with value := value } = h.isOf name := rfl

theorem positions_cutElt (list : List Elt) (i : ℕ) (value name : Bytes) :
    positions (cutElt list i value) name = positions list name := by
  rw [cutElt, positions_foldl_setNext, positions_modify (isOf_setValue value)]

theorem nextOf_modify_value (list : List Elt) (i : ℕ) (value : Bytes) :
    nextOf (list.modify i fun h => { h with value := value }) = nextOf list := by
  funext j
  rw [nextOf, nextOf, List.getElem?_modify]
  cases list[j]? with
  | none => rfl
  | some h => by_cases hij : i = j <;> simp [hij]

theorem Linked.set {list : List Elt} (ht : Tokens list) {name value : Bytes} {i : ℕ} {l : List ℕ}
    (h : Linked list name (i :: l)) {name' : Bytes} {l' : List ℕ} (h' : Linked list name' l') :
    Linked (cutElt list i value) name' (if fold name' = fold name then [i] else l') := by
  have hset : Linked (list.modify i fun h => { h with value := value }) name (i :: l) := by
    refine h.congr (positions_modify (isOf_setValue value) list i name) fun j _ => ?_
    rw [nextOf_modify_value]
  have hwalk : Fetch.chain (list.modify i fun h => { h with value := value })
      (list.modify i fun h => { h with value := value }).length i = i :: l := by
    have hof := chainOf_eq hset
    obtain ⟨hhead, -⟩ := hset.chain.of_cons
    rw [headOf] at hhead
    rw [chainOf] at hof
    cases hfind : findElt (list.modify i fun h => { h with value := value }) name with
    | none =>
      rw [hfind] at hhead
      cases hhead
    | some k =>
      rw [hfind] at hhead hof
      obtain rfl : k = i := Nat.succ.inj hhead
      exact hof
  have hlt : ∀ j ∈ i :: l, j < (list.modify i fun h => { h with value := value }).length :=
    fun j hj => lt_of_mem_positions (hset.sub.subset hj)
  have hnext : nextOf (cutElt list i value) = fun j => if j ∈ i :: l then 0 else nextOf list j := by
    rw [cutElt, hwalk, nextOf_foldl_setNext hlt, nextOf_modify_value]
  split_ifs with heq
  · have h' := h.of_fold_eq ht heq
    obtain ⟨hhead, -⟩ := h'.chain.of_cons
    refine ⟨?_, ?_⟩
    · rw [headOf, findElt_eq, positions_cutElt, ← findElt_eq, ← headOf, hhead, hnext]
      refine .cons ?_
      simp only [List.mem_cons_self, if_true]
      exact .nil
    · rw [positions_cutElt]
      exact (List.cons_sublist_cons.mpr (List.nil_sublist l)).trans h'.sub
  · refine h'.congr (positions_cutElt list i value name') fun j hj => ?_
    have hnot : j ∉ i :: l := fun hmem =>
      heq (fold_eq_of_mem ht (h'.sub.subset hj) (h.sub.subset hmem))
    rw [hnext]
    exact if_neg hnot

def killElts (list : List Elt) (name : Bytes) : List Elt :=
  list.map fun h => if h.hash && sameName name h.key then { h with hash := false } else h

theorem positions_killElts (ht : Tokens list) (name name' : Bytes) :
    positions (killElts list name) name' =
      if fold name' = fold name then [] else positions list name' := by
  rw [positions, killElts, List.length_map]
  split_ifs with heq
  · refine List.filter_eq_nil_iff.mpr fun j _ => ?_
    rw [List.getElem?_map]
    cases hget : list[j]? with
    | none => simp
    | some h =>
      have hh := List.mem_of_getElem? hget
      rw [Option.map_some, Option.any_some]
      split_ifs with hof
      · simp [Elt.isOf]
      · intro hof'
        have hfold := ((isOf_iff ht hh name').mp hof').2.trans heq
        exact hof ((isOf_iff ht hh name).mpr ⟨((isOf_iff ht hh name').mp hof').1, hfold⟩)
  refine List.filter_congr fun j _ => ?_
  rw [List.getElem?_map]
  cases hget : list[j]? with
  | none => rfl
  | some h =>
    have hh := List.mem_of_getElem? hget
    rw [Option.map_some, Option.any_some, Option.any_some]
    split_ifs with hof
    · have hname := ((isOf_iff ht hh name).mp hof).2
      have hfalse : h.isOf name' = false := by
        rw [Bool.eq_false_iff]
        intro hof'
        exact heq (((isOf_iff ht hh name').mp hof').2.symm.trans hname)
      rw [hfalse]
      rfl
    · rfl

theorem nextOf_killElts (list : List Elt) (name : Bytes) :
    nextOf (killElts list name) = nextOf list := by
  funext j
  rw [nextOf, nextOf, killElts, List.getElem?_map]
  cases list[j]? with
  | none => rfl
  | some h =>
    rw [Option.map_some, Option.bind_some, Option.bind_some]
    split_ifs <;> rfl

theorem Linked.delete {list : List Elt} (ht : Tokens list) (name : Bytes) {name' : Bytes}
    {l' : List ℕ} (h' : Linked list name' l') :
    Linked (killElts list name) name' (if fold name' = fold name then [] else l') := by
  have hpos := positions_killElts ht name name'
  split_ifs with heq
  · rw [if_pos heq] at hpos
    refine ⟨?_, List.nil_sublist _⟩
    rw [headOf, findElt_eq, hpos]
    exact .nil
  · rw [if_neg heq] at hpos
    exact h'.congr hpos fun j _ => by rw [nextOf_killElts]

end Njs.Fetch
