import Njs.Fetch.HeaderChains

/-!
# Headers objects refine header lists

Every operation of a Headers object does what the operation of its header list does, as long as the
chains of names visit all their live elements. A value that is set where there is one already is
neither checked nor trimmed, and it leaves the other elements of the name alive; a list that is
immutable loses names and gets other values all the same. These calls are left out.
-/

namespace Njs.Fetch

open Text Http

def Headers.toList (h : Headers) : HeaderList := ⟨h.guard, pairsOf h.list⟩

def World.toHeap (w : World) : Heap := ⟨w.objects.map Headers.toList, w.loops⟩

/-- The chain of a name visits all its live elements. -/
structure Headers.Ok (h : Headers) : Prop where
  tokens : Tokens h.list
  whole : ∀ name, Linked h.list name (positions h.list name)
  values : ∀ x ∈ h.list, x.hash = true → strip x.value = x.value ∧ x.value.all isFieldChar = true
  contentType : h.contentType = none ↔ positions h.list (lit "Content-Type") = []

namespace Headers.Ok

variable {h : Headers}

theorem empty (guard : Guard) : Headers.Ok { guard := guard } where
  tokens := fun _ hx => nomatch hx
  whole := fun _ => ⟨.nil, .slnil⟩
  values := fun _ hx => nomatch hx
  contentType := ⟨fun _ => rfl, fun _ => rfl⟩

theorem chainOf_eq (ok : h.Ok) (name : Bytes) : chainOf h.list name = positions h.list name :=
  Fetch.chainOf_eq (ok.whole name)

theorem getAll_eq (ok : h.Ok) (name : Bytes) :
    ngxHeadersJsGetAll h name = h.toList.getAll name := by
  rw [ngxHeadersJsGetAll, ok.chainOf_eq, values_positions ok.tokens]
  rfl

theorem get_eq (ok : h.Ok) (name : Bytes) : ngxHeadersJsGet h name = h.toList.get name := by
  rw [ngxHeadersJsGet, HeaderList.get, ok.getAll_eq]
  cases h.toList.getAll name with
  | nil => rfl
  | cons v l => rfl

theorem findElt_eq_none (ok : h.Ok) (name : Bytes) :
    findElt h.list name = none ↔ h.toList.getAll name = [] := by
  rw [findElt_eq, List.head?_eq_none_iff, positions_eq_nil ok.tokens]
  rfl

end Headers.Ok

/-! ### Elements and pairs -/

/-- An element without its link. -/
def Elt.core (h : Elt) : Bool × Bytes × Bytes := (h.hash, h.key, h.value)

theorem pairsOf_cons (h : Elt) (list : List Elt) :
    pairsOf (h :: list) = (if h.hash then [(h.key, h.value)] else []) ++ pairsOf list := by
  rw [pairsOf, pairsOf]
  by_cases hh : h.hash = true <;> simp [hh]

theorem pairsOf_congr {list list' : List Elt} (h : list.map Elt.core = list'.map Elt.core) :
    pairsOf list = pairsOf list' := by
  have hcore : ∀ l : List Elt, pairsOf l = ((l.map Elt.core).filter Prod.fst).map Prod.snd := by
    intro l
    induction l with
    | nil => rfl
    | cons x l ih =>
      rw [pairsOf_cons, ih, List.map_cons]
      by_cases hx : x.hash = true <;> simp [Elt.core, hx]
  rw [hcore, hcore, h]

theorem forall_congr {list list' : List Elt} (h : list.map Elt.core = list'.map Elt.core)
    {P : Bool × Bytes × Bytes → Prop} (hall : ∀ x ∈ list, P x.core) : ∀ x ∈ list', P x.core := by
  have hmap : ∀ c ∈ list.map Elt.core, P c := List.forall_mem_map.mpr hall
  rw [h] at hmap
  exact List.forall_mem_map.mp hmap

theorem core_setNext (next : Option ℕ) (list : List Elt) (i : ℕ) :
    (setNext next list i).map Elt.core = list.map Elt.core := by
  refine List.ext_getElem? fun j => ?_
  rw [List.getElem?_map, List.getElem?_map, setNext, List.getElem?_modify]
  cases list[j]? with
  | none => rfl
  | some h => by_cases hij : i = j <;> simp [hij, Elt.core]

theorem core_foldl_setNext (list : List Elt) (l : List ℕ) :
    (l.foldl (setNext none) list).map Elt.core = list.map Elt.core := by
  induction l generalizing list with
  | nil => rfl
  | cons i l ih => rw [List.foldl_cons, ih, core_setNext]

theorem core_pushElt (list : List Elt) (name value : Bytes) :
    (pushElt list name value).map Elt.core =
      (list ++ [(⟨true, name, value, none⟩ : Elt)]).map Elt.core := by
  rw [pushElt, List.map_append, List.map_append]
  cases (chainOf list name).getLast? with
  | none => rfl
  | some i => simp only [core_setNext]

theorem core_cutElt (list : List Elt) (i : ℕ) (value : Bytes) : (cutElt list i value).map Elt.core =
      (list.modify i fun h => { h with value := value }).map Elt.core :=
  core_foldl_setNext _ _

theorem pairsOf_pushElt (list : List Elt) (name value : Bytes) :
    pairsOf (pushElt list name value) = pairsOf list ++ [(name, value)] := by
  rw [pairsOf_congr (core_pushElt list name value), pairsOf_concat]
  rfl

theorem pairsOf_killElts {list : List Elt} (ht : Tokens list) (name : Bytes) :
    pairsOf (killElts list name) = Multimap.erase fold name (pairsOf list) := by
  induction list with
  | nil => rfl
  | cons h list ih =>
    have hiff := isOf_iff ht List.mem_cons_self name
    have ih := ih fun x hx => ht x (List.mem_cons_of_mem h hx)
    have hsplit : killElts (h :: list) name =
        (if h.hash && sameName name h.key then { h with hash := false } else h) ::
          killElts list name := rfl
    rw [hsplit, pairsOf_cons, pairsOf_cons, ih, Multimap.erase, Multimap.erase, List.filter_append]
    refine congrArg (· ++ _) ?_
    by_cases hof : (h.hash && sameName name h.key) = true
    · obtain ⟨hh, hname⟩ := hiff.mp hof
      rw [if_pos hof]
      simp [hh, hname]
    · rw [if_neg hof]
      by_cases hh : h.hash = true
      · have hname : fold h.key ≠ fold name := fun heq => hof (hiff.mpr ⟨hh, heq⟩)
        simp [hh, hname]
      · simp [hh]

theorem modify_middle {α : Type} (f : α → α) (l₁ : List α) (x : α) (l₂ : List α) :
    (l₁ ++ x :: l₂).modify l₁.length f = l₁ ++ f x :: l₂ := by
  induction l₁ with
  | nil => rfl
  | cons y l₁ ih => rw [List.cons_append, List.length_cons, List.modify_succ_cons, ih,
      List.cons_append]

theorem pairsOf_append (l₁ l₂ : List Elt) : pairsOf (l₁ ++ l₂) = pairsOf l₁ ++ pairsOf l₂ := by
  rw [pairsOf, List.filter_append, List.map_append]
  rfl

theorem pairsOf_cutElt {list : List Elt} (ht : Tokens list) {name : Bytes} {i : ℕ}
    (hpos : positions list name = [i]) (value : Bytes) :
    pairsOf (cutElt list i value) = Multimap.set fold name value (pairsOf list) := by
  obtain ⟨x, hx, hof⟩ := mem_positions.mp (hpos ▸ List.mem_singleton_self i)
  obtain ⟨hh, hname⟩ := (isOf_iff ht (List.mem_of_getElem? hx) name).mp hof
  obtain ⟨l₁, l₂, rfl, rfl⟩ : ∃ l₁ l₂, list = l₁ ++ x :: l₂ ∧ l₁.length = i := by
    obtain ⟨hlt, rfl⟩ := List.getElem?_eq_some_iff.mp hx
    refine ⟨list.take i, list.drop (i + 1), ?_, by rw [List.length_take]; omega⟩
    rw [List.getElem_cons_drop, List.take_append_drop]
  have hpairs : ∀ v, pairsOf (l₁ ++ { x with value := v } :: l₂) =
      pairsOf l₁ ++ (x.key, v) :: pairsOf l₂ := by
    intro v
    rw [pairsOf_append, pairsOf_cons]
    simp [hh]
  have hvalues := values_positions ht name
  rw [hpos, hpairs x.value, Multimap.values_append,
    Multimap.values_cons_of_eq fold (p := (x.key, x.value)) hname] at hvalues
  have hlen : (Multimap.values fold name (pairsOf l₁)).length = 0 ∧
      (Multimap.values fold name (pairsOf l₂)).length = 0 := by
    have hle := (congrArg List.length hvalues).symm.le.trans (List.length_filterMap_le _ _)
    rw [List.length_append, List.length_cons, List.length_singleton] at hle
    omega
  rw [pairsOf_congr (core_cutElt _ _ value), modify_middle, hpairs value, hpairs x.value,
    Multimap.set_middle fold value (List.eq_nil_of_length_eq_zero hlen.1) hname
      (List.eq_nil_of_length_eq_zero hlen.2)]

/-! ### Constructors -/

/-- A new state of an object does what the new state of its list does. -/
def Simulates : Except String Headers → Except String HeaderList → Prop
  | .ok h, .ok l => h.Ok ∧ h.toList = l
  | .error msg, .error msg' => msg = msg'
  | _, _ => False

theorem Simulates.bind {r : Except String Headers} {r' : Except String HeaderList}
    (h : Simulates r r') {f : Headers → Except String Headers}
    {g : HeaderList → Except String HeaderList}
    (hfg : ∀ x : Headers, x.Ok → Simulates (f x) (g x.toList)) :
    Simulates (r.bind f) (r'.bind g) := by
  match r, r', h with
  | .ok x, .ok l, ⟨ok, hl⟩ =>
    subst hl
    exact hfg x ok
  | .error msg, .error msg', h => exact h

theorem Simulates.map {r : Except String Headers} {r' : Except String HeaderList}
    (h : Simulates r r') {f : Headers → Headers} {g : HeaderList → HeaderList}
    (hfg : ∀ x : Headers, x.Ok → (f x).Ok ∧ (f x).toList = g x.toList) :
    Simulates (r.map f) (r'.map g) := by
  match r, r', h with
  | .ok x, .ok l, ⟨ok, hl⟩ =>
    subst hl
    exact hfg x ok
  | .error msg, .error msg', h => exact h

theorem simulates_foldlM {α : Type} {f : Headers → α → Except String Headers}
    {g : HeaderList → α → Except String HeaderList}
    (hfg : ∀ (h : Headers) (a : α), h.Ok → Simulates (f h a) (g h.toList a)) (l : List α)
    {h : Headers} (ok : h.Ok) : Simulates (l.foldlM f h) (l.foldlM g h.toList) := by
  induction l generalizing h with
  | nil => exact ⟨ok, rfl⟩
  | cons a l ih =>
    rw [List.foldlM_cons, List.foldlM_cons]
    exact (hfg h a ok).bind fun x hx => ih hx

theorem contentType_token : (lit "Content-Type").all isTchar = true := by decide

theorem Headers.Ok.append {h : Headers} (ok : h.Ok) (name value : Bytes) :
    Simulates (ngxJsHeadersAppend h name value) (h.toList.append name value) := by
  have hguard : h.toList.guard = h.guard := rfl
  rw [ngxJsHeadersAppend, HeaderList.append, HeaderList.check, checkName_eq, hguard,
    show ngxJsHttpTrimOws value = strip value from rfl]
  simp only [checkValue_eq]
  by_cases hname : name.all isTchar = false
  · rw [if_pos hname, if_pos hname]
    rfl
  by_cases hvalue : (strip value).all isFieldChar = false
  · rw [if_neg hname, if_neg hname, if_pos hvalue, if_pos hvalue]
    rfl
  by_cases himm : h.guard = .immutable
  · rw [if_neg hname, if_neg hname, if_neg hvalue, if_neg hvalue, if_pos himm, if_pos himm]
    rfl
  rw [if_neg hname, if_neg hname, if_neg hvalue, if_neg hvalue, if_neg himm, if_neg himm]
  rw [Bool.not_eq_false] at hname hvalue
  refine ⟨?_, ?_⟩
  · have hcore := (core_pushElt h.list name (strip value)).symm
    refine ⟨?_, fun name' => ?_, ?_, ?_⟩
    · refine forall_congr hcore (P := fun c => c.2.1.all isTchar = true) fun x hx => ?_
      obtain hx | hx := List.mem_append.mp hx
      · exact ok.tokens x hx
      · obtain rfl := List.mem_singleton.mp hx
        exact hname
    · have hlinked := @Linked.append _ ok.tokens name (strip value) hname _ (ok.whole name) _ _
        (ok.whole name')
      rwa [← positions_pushElt] at hlinked
    · refine forall_congr hcore
        (P := fun c => c.1 = true → strip c.2.2 = c.2.2 ∧ c.2.2.all isFieldChar = true) fun x hx =>
          ?_
      obtain hx | hx := List.mem_append.mp hx
      · exact ok.values x hx
      · obtain rfl := List.mem_singleton.mp hx
        exact fun _ => ⟨strip_strip value, hvalue⟩
    · have hpos := positions_pushElt h.list name (strip value) (lit "Content-Type")
      have hof : Elt.isOf (lit "Content-Type") ⟨true, name, strip value, none⟩ = true ↔
          sameName name (lit "Content-Type") = true := by
        rw [Elt.isOf, Bool.true_and, sameName_iff hname, sameName_iff contentType_token, eq_comm]
      show (if sameName name (lit "Content-Type") then some h.list.length else h.contentType) = none
        ↔
        positions (pushElt h.list name (strip value)) (lit "Content-Type") = []
      rw [hpos]
      by_cases hct : sameName name (lit "Content-Type") = true
      · simp [hct, hof.mpr hct]
      · rw [if_neg hct, if_neg (mt hof.mp hct), List.append_nil]
        exact ok.contentType
  · show (⟨h.guard, pairsOf (pushElt h.list name (strip value))⟩ : HeaderList) = _
    rw [pairsOf_pushElt]
    rfl

theorem Headers.Ok.appendAll {h : Headers} (ok : h.Ok) (pairs : List (Bytes × Bytes)) :
    Simulates (pairs.foldlM (fun h p => ngxJsHeadersAppend h p.1 p.2) h)
      (h.toList.appendAll pairs) :=
  simulates_foldlM (fun _ p ok => ok.append p.1 p.2) pairs ok

theorem Headers.Ok.inherit {h : Headers} (ok : h.Ok) (orig : Headers) :
    Simulates (ngxJsHeadersInherit h orig) (h.toList.appendAll orig.toList.pairs) := by
  have hfold := ok.appendAll orig.toList.pairs
  rw [show orig.toList.pairs = (orig.list.filter Elt.hash).map fun x => (x.key, x.value) from rfl,
    List.foldlM_map] at hfold
  exact hfold

theorem Headers.Ok.fill {h : Headers} (ok : h.Ok) (objects : List Headers) (init : Init) :
    Simulates (ngxJsHeadersFill objects h init)
      (h.toList.fill (objects.map Headers.toList) init) := by
  cases init with
  | headers this =>
    rw [ngxJsHeadersFill, HeaderList.fill, List.getElem?_map]
    cases objects[this]? with
    | none => exact ⟨ok, rfl⟩
    | some orig => exact ok.inherit orig
  | array rows =>
    refine simulates_foldlM (fun h row ok => ?_) rows ok
    rcases row with _ | ⟨name, _ | ⟨value, _ | ⟨_, _⟩⟩⟩
    · rfl
    · rfl
    · exact ok.append name value
    · rfl
  | object members => exact ok.appendAll members

theorem simulates_request (objects : List Headers) (orig : Option ℕ) (init : Option Init)
    (stringBody : Bool) :
    Simulates (requestHeaders objects orig init stringBody)
      (HeaderList.ofRequest (objects.map Headers.toList) orig init stringBody) := by
  have hempty := Headers.Ok.empty .request
  rw [requestHeaders, HeaderList.ofRequest]
  have horig : Simulates (inheritOrig objects orig)
      ((orig.bind fun this => (objects.map Headers.toList)[this]?).elim (.ok { guard := .request })
        fun orig => HeaderList.appendAll { guard := .request } orig.pairs) := by
    rw [inheritOrig]
    cases orig with
    | none => exact ⟨hempty, rfl⟩
    | some this =>
      simp only [Option.bind_some, List.getElem?_map]
      cases objects[this]? with
      | none => exact ⟨hempty, rfl⟩
      | some orig => exact hempty.inherit orig
  refine horig.bind fun x hx => Simulates.bind (?_ : Simulates (fillInit _ _ _) _) fun y hy => ?_
  · cases init with
    | none => exact ⟨hx, rfl⟩
    | some init => exact hempty.fill objects init
  have htype : (y.contentType = none) = (y.toList.getAll (lit "Content-Type") = []) := by
    rw [hy.contentType, positions_eq_nil hy.tokens]
    rfl
  rw [appendContentType]
  simp only [htype]
  split_ifs
  · exact hy.append _ _
  · exact ⟨hy, rfl⟩

theorem simulates_response (lines : List (Bytes × Bytes)) :
    Simulates (fetchedHeaders lines) (HeaderList.ofResponse lines) :=
  ((Headers.Ok.empty .none).appendAll lines).map fun _ ok =>
    ⟨⟨ok.tokens, ok.whole, ok.values, ok.contentType⟩, rfl⟩

end Njs.Fetch
