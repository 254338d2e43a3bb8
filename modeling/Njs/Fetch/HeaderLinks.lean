import Njs.Fetch.HeaderRuns
import Njs.Fetch.Request

/-!
# Links of header lists

Whatever a script does, a link leads from a live element to a later live element of the same name.
So `get` never takes a value twice.
-/

namespace Njs.Fetch

open Text Http

/-! ### Names -/

theorem strncaseeq_symm (a b : Bytes) : strncaseeq a b = strncaseeq b a := by
  induction a generalizing b with
  | nil => cases b <;> rfl
  | cons x a ih =>
    cases b with
    | nil => rfl
    | cons y b =>
      rw [strncaseeq, strncaseeq, ih b]
      by_cases hxy : lower x = lower y
      · rw [hxy]
      · rw [decide_eq_false hxy, decide_eq_false (Ne.symm hxy)]
        rfl

theorem strncaseeq_trans {a b c : Bytes} (hlen : a.length = b.length) (hlen' : b.length = c.length)
    (hab : strncaseeq a b = true) (hbc : strncaseeq b c = true) : strncaseeq a c = true := by
  induction a generalizing b c with
  | nil => exact rfl
  | cons x a ih =>
    match b, c with
    | y :: b, z :: c =>
      rw [strncaseeq, Bool.and_eq_true, decide_eq_true_eq, Bool.or_eq_true, decide_eq_true_eq]
        at hab hbc ⊢
      refine ⟨hab.1.trans hbc.1, ?_⟩
      rcases hab.2 with hzero | hrest
      · exact .inl hzero
      · rcases hbc.2 with hzero | hrest'
        · exact .inl (hab.1.trans hzero)
        · exact .inr (ih (by simpa using hlen) (by simpa using hlen') hrest hrest')

theorem sameName_symm {a b : Bytes} (h : sameName a b = true) : sameName b a = true := by
  rw [sameName, Bool.and_eq_true, decide_eq_true_eq] at h ⊢
  exact ⟨h.1.symm, strncaseeq_symm b a ▸ h.2⟩

theorem sameName_trans {a b c : Bytes} (hab : sameName a b = true) (hbc : sameName b c = true) :
    sameName a c = true := by
  rw [sameName, Bool.and_eq_true, decide_eq_true_eq] at hab hbc ⊢
  exact ⟨hab.1.trans hbc.1, strncaseeq_trans hab.1 hbc.1 hab.2 hbc.2⟩

/-! ### Links -/

/-- Links lead to later elements, and from live elements to live elements of the same name. -/
def Forward (list : List Elt) : Prop :=
  ∀ (i : ℕ) (x : Elt) (j : ℕ), list[i]? = some x → x.next = some j →
    i < j ∧ ∃ y, list[j]? = some y ∧ (x.hash = true → y.hash = true ∧ sameName x.key y.key = true)

variable {list : List Elt}

variable {name : Bytes} {h h' : Headers}

theorem forward_chain (h : Forward list) (fuel : ℕ) {i : ℕ} (hi : i ∈ positions list name) :
    (∀ j ∈ chain list fuel i, i ≤ j ∧ j ∈ positions list name) ∧
      (chain list fuel i).Pairwise (· < ·) := by
  induction fuel generalizing i with
  | zero => exact ⟨fun _ hj => (nomatch hj), List.Pairwise.nil⟩
  | succ fuel ih =>
    obtain ⟨x, hx, hof⟩ := mem_positions.mp hi
    rw [chain, hx]
    cases hnext : x.next with
    | none =>
      simp only [hnext]
      refine ⟨fun j hj => ?_, List.pairwise_singleton _ _⟩
      rw [List.mem_singleton.mp hj]
      exact ⟨Nat.le_refl i, hi⟩
    | some j =>
      simp only [hnext]
      obtain ⟨hlt, y, hy, hlive⟩ := h i x j hx hnext
      rw [Elt.isOf, Bool.and_eq_true] at hof
      obtain ⟨hhash, hname⟩ := hlive hof.1
      have hj : j ∈ positions list name :=
        mem_positions.mpr ⟨y, hy, by rw [Elt.isOf, hhash, sameName_trans hof.2 hname]; rfl⟩
      obtain ⟨hmem, hpair⟩ := ih hj
      constructor
      · intro k hk
        obtain rfl | hk := List.mem_cons.mp hk
        · exact ⟨Nat.le_refl k, hi⟩
        · exact ⟨Nat.le_trans (Nat.le_of_lt hlt) (hmem k hk).1, (hmem k hk).2⟩
      · exact List.pairwise_cons.mpr ⟨fun k hk => Nat.lt_of_lt_of_le hlt (hmem k hk).1, hpair⟩

theorem forward_chainOf (h : Forward list) (name : Bytes) :
    (∀ j ∈ chainOf list name, j ∈ positions list name) ∧ (chainOf list name).Nodup := by
  rw [chainOf]
  cases hfind : findElt list name with
  | none => exact ⟨fun _ hj => absurd hj List.not_mem_nil, List.nodup_nil⟩
  | some i =>
    rw [findElt_eq] at hfind
    obtain ⟨hmem, hpair⟩ := forward_chain h list.length (List.mem_of_mem_head? hfind)
    exact ⟨fun j hj => (hmem j hj).2, hpair.imp Nat.ne_of_lt⟩

/-- `get` takes no more values than there are live elements of the name. -/
theorem length_getAll_le (hf : Forward h.list) (name : Bytes) :
    (ngxHeadersJsGetAll h name).length ≤ (positions h.list name).length := by
  obtain ⟨hmem, hnodup⟩ := forward_chainOf hf name
  exact (List.length_filterMap_le _ _).trans
    (List.subperm_of_subset hnodup fun j hj => hmem j hj).length_le

/-! ### Changes of a list -/

theorem Forward.map (h : Forward list) {list' : List Elt}
    (hold : ∀ (i : ℕ) (y : Elt), list'[i]? = some y → ∃ x, list[i]? = some x ∧
      (∀ j, y.next = some j → x.next = some j) ∧ y.key = x.key ∧ (y.hash = true → x.hash = true))
    (hkeep : ∀ (i : ℕ) (x : Elt), list[i]? = some x → ∃ y, list'[i]? = some y ∧ y.key = x.key ∧
      (x.hash = true → (∃ (k : ℕ) (z : Elt), list'[k]? = some z ∧ z.hash = true ∧
        sameName z.key x.key = true) →
        y.hash = true)) : Forward list' := by
  intro i y j hy hnext
  obtain ⟨x, hx, hlink, hkey, hlive⟩ := hold i y hy
  obtain ⟨hlt, x', hx', hsame⟩ := h i x j hx (hlink j hnext)
  obtain ⟨y', hy', hkey', hlive'⟩ := hkeep j x' hx'
  refine ⟨hlt, y', hy', fun hhash => ?_⟩
  obtain ⟨hhash', hname⟩ := hsame (hlive hhash)
  rw [hkey, hkey']
  exact ⟨hlive' hhash' ⟨i, y, hy, hhash, hkey ▸ hname⟩, hname⟩

theorem Forward.modify (h : Forward list) (i : ℕ) {f : Elt → Elt}
    (hf : ∀ x : Elt, (f x).key = x.key ∧ (f x).hash = x.hash ∧
      ∀ j, (f x).next = some j → x.next = some j) : Forward (list.modify i f) := by
  have hget : ∀ (k : ℕ) (x : Elt), list[k]? = some x → ∃ y, (list.modify i f)[k]? = some y ∧
    y.key = x.key ∧ y.hash = x.hash ∧ ∀ j, y.next = some j → x.next = some j := by
    intro k x hx
    rw [List.getElem?_modify, hx]
    by_cases hik : i = k
    · exact ⟨f x, by simp [hik], hf x⟩
    · exact ⟨x, by simp [hik], rfl, rfl, fun _ hj => hj⟩
  refine h.map (fun k y hy => ?_) fun k x hx => ?_
  · obtain ⟨hk, -⟩ := List.getElem?_eq_some_iff.mp hy
    rw [List.length_modify] at hk
    obtain ⟨y', hy', hkey, hhash, hnext⟩ := hget k list[k] (List.getElem?_eq_getElem hk)
    rw [hy, Option.some.injEq] at hy'
    subst hy'
    exact ⟨list[k], List.getElem?_eq_getElem hk, hnext, hkey, fun hy => hhash ▸ hy⟩
  · obtain ⟨y, hy, hkey, hhash, -⟩ := hget k x hx
    exact ⟨y, hy, hkey, fun hx _ => hhash.trans hx⟩

theorem Forward.push (h : Forward list) {z : Elt} (hz : z.next = none)
    (hhash : z.hash = true) {o : Option ℕ}
    (hlast : ∀ i ∈ o, i ∈ positions list z.key) :
    Forward (o.elim list (setNext (some list.length) list) ++ [z]) := by
  have hconcat : ∀ l : List Elt, l.length = list.length →
      (∀ (i : ℕ) (x : Elt) (j : ℕ), l[i]? = some x → x.next = some j →
        (i < j ∧ ∃ y, l[j]? = some y ∧ (x.hash = true → y.hash = true ∧
          sameName x.key y.key = true)) ∨
        (i < list.length ∧ j = list.length ∧ (x.hash = true → sameName x.key z.key = true))) →
      Forward (l ++ [z]) := by
    intro l hlen hl i x j hx hnext
    have hlastAt : (l ++ [z])[list.length]? = some z := by
      rw [← hlen]
      simp
    rcases Nat.lt_or_ge i l.length with hi | hi
    · rw [List.getElem?_append_left hi] at hx
      rcases hl i x j hx hnext with ⟨hlt, y, hy, hlive⟩ | ⟨hlt, rfl, hname⟩
      · have hj := (List.getElem?_eq_some_iff.mp hy).1
        exact ⟨hlt, y, by rw [List.getElem?_append_left hj, hy], hlive⟩
      · exact ⟨hlt, z, hlastAt, fun hx => ⟨hhash, hname hx⟩⟩
    · rw [List.getElem?_append_right hi, List.getElem?_singleton] at hx
      split_ifs at hx
      cases hx
      rw [hz] at hnext
      cases hnext
  cases o with
  | none => exact hconcat list rfl fun i x j hx hnext => .inl (h i x j hx hnext)
  | some i₀ =>
    refine hconcat (setNext (some list.length) list i₀) (by simp [setNext])
      fun i x j hx hnext => ?_
    rw [setNext, List.getElem?_modify] at hx
    obtain ⟨x₀, hx₀, hof⟩ := mem_positions.mp (hlast i₀ rfl)
    rw [Elt.isOf, Bool.and_eq_true] at hof
    by_cases hii : i₀ = i
    · subst hii
      have hx : { x₀ with next := some list.length } = x := by simpa [hx₀] using hx
      subst hx
      refine .inr ⟨(List.getElem?_eq_some_iff.mp hx₀).1, (Option.some.inj hnext).symm, fun _ => ?_⟩
      exact sameName_symm hof.2
    simp only [if_neg hii, id_map'] at hx
    obtain ⟨hlt, y, hy, hlive⟩ := h i x j hx hnext
    refine .inl ⟨hlt, ?_⟩
    rw [setNext, List.getElem?_modify, hy]
    by_cases hij : i₀ = j
    · exact ⟨{ y with next := some list.length }, by simp [hij], hlive⟩
    · exact ⟨y, by simp [hij], hlive⟩

/-! ### Operations -/

theorem append_list {value : Bytes} (happ : ngxJsHeadersAppend h name value = .ok h') :
    h'.list = (chainOf h.list name).getLast?.elim h.list (setNext (some h.list.length) h.list) ++
      [⟨true, name, ngxJsHttpTrimOws value, none⟩] := by
  rw [ngxJsHeadersAppend] at happ
  cases hlast : (chainOf h.list name).getLast? with
  | none =>
    rw [hlast] at happ
    simp only at happ
    split_ifs at happ <;> exact (congrArg Headers.list (Except.ok.inj happ)).symm
  | some i =>
    rw [hlast] at happ
    simp only at happ
    split_ifs at happ <;> exact (congrArg Headers.list (Except.ok.inj happ)).symm

theorem forward_append {value : Bytes} (hf : Forward h.list)
    (happ : ngxJsHeadersAppend h name value = .ok h') : Forward h'.list := by
  rw [append_list happ]
  exact hf.push (z := ⟨true, name, ngxJsHttpTrimOws value, none⟩) rfl rfl fun i hi =>
    (forward_chainOf hf name).1 i (List.mem_of_getLast? hi)

theorem forward_foldlM {α : Type} {f : Headers → α → Except String Headers}
    (hf : ∀ h a h', Forward h.list → f h a = .ok h' → Forward h'.list) {l : List α}
    (hh : Forward h.list) (hl : l.foldlM f h = .ok h') : Forward h'.list := by
  induction l generalizing h with
  | nil =>
    cases hl
    exact hh
  | cons a l ih =>
    rw [List.foldlM_cons] at hl
    cases hfa : f h a with
    | error msg =>
      rw [hfa] at hl
      cases hl
    | ok x =>
      rw [hfa] at hl
      exact ih (hf h a x hh hfa) hl

theorem forward_delete (hf : Forward h.list) (name : Bytes) :
    Forward (ngxHeadersJsExtDelete h name).list := by
  refine hf.map (fun i y hy => ?_) fun i x hx => ?_
  · rw [ngxHeadersJsExtDelete, List.getElem?_map] at hy
    obtain ⟨x, hx, rfl⟩ := Option.map_eq_some_iff.mp hy
    refine ⟨x, hx, ?_⟩
    split_ifs
    · exact ⟨fun _ hj => hj, rfl, fun hfalse => nomatch hfalse⟩
    · exact ⟨fun _ hj => hj, rfl, id⟩
  refine ⟨_, by rw [ngxHeadersJsExtDelete, List.getElem?_map, hx]; rfl, ?_, ?_⟩
  · show (if (x.hash && sameName name x.key) = true then { x with hash := false } else x).key = _
    split_ifs <;> rfl
  -- an element of the same name has been left alive, so this one is
  rintro hhash ⟨k, z, hz, hlive, hname⟩
  rw [ngxHeadersJsExtDelete, List.getElem?_map] at hz
  obtain ⟨w, -, rfl⟩ := Option.map_eq_some_iff.mp hz
  split_ifs at hlive hname with hcond
  by_cases hx' : (x.hash && sameName name x.key) = true
  · rw [Bool.and_eq_true] at hx'
    refine absurd ?_ hcond
    rw [hlive, sameName_trans hx'.2 (sameName_symm hname)]
    rfl
  · show (if (x.hash && sameName name x.key) = true then { x with hash :=
      false } else x).hash = _
    rw [if_neg hx', hhash]

theorem forward_set {e : Engine} {value : Bytes} (hf : Forward h.list)
    (hset : ngxHeadersJsExtSet e h name value = .ok h') : Forward h'.list := by
  rw [ngxHeadersJsExtSet] at hset
  cases hfind : findElt h.list name with
  | some i =>
    rw [hfind] at hset
    cases hset
    have hvalue : Forward (h.list.modify i fun x => { x with value := value }) :=
      hf.modify i fun x => ⟨rfl, rfl, fun _ hj => hj⟩
    refine List.foldlRecOn _ (setNext none) hvalue fun l hl k _ => ?_
    exact Forward.modify hl k fun x => ⟨rfl, rfl, fun j hj => absurd hj (Option.not_mem_none j)⟩
  | none =>
    rw [hfind] at hset
    cases hkind : e.kind with
    | njs =>
      rw [hkind] at hset
      exact forward_append hf hset
    | quickJs =>
      -- no link leads to the new element, so its name does not matter
      rw [hkind] at hset
      have hnil : (chainOf h.list name).getLast? = none := by rw [chainOf, hfind]; rfl
      cases happ : ngxJsHeadersAppend h name value with
      | error msg =>
        rw [happ] at hset
        cases hset
      | ok x =>
        rw [happ] at hset
        have hlist := congrArg Headers.list (Except.ok.inj hset)
        rw [← hlist]
        show Forward (x.list.modifyLast fun y => { y with key := e.freed name })
        rw [append_list happ, hnil, List.modifyLast_concat]
        exact hf.push (z := ⟨true, e.freed name, ngxJsHttpTrimOws value, none⟩) rfl rfl
          (o := none) fun i hi => absurd hi (Option.not_mem_none i)
theorem forward_inherit {orig : Headers} (hf : Forward h.list)
    (hinherit : ngxJsHeadersInherit h orig = .ok h') : Forward h'.list :=
  forward_foldlM (fun _ _ _ hf happ => forward_append hf happ) hf hinherit

theorem forward_fill {objects : List Headers} {init : Init} (hf : Forward h.list)
    (hfill : ngxJsHeadersFill objects h init = .ok h') : Forward h'.list := by
  cases init with
  | headers this =>
    rw [ngxJsHeadersFill] at hfill
    split at hfill
    · cases hfill
      exact hf
    · exact forward_inherit hf hfill
  | array rows =>
    refine forward_foldlM (fun h row h' hf hrow => ?_) hf hfill
    rcases row with _ | ⟨name, _ | ⟨header, _ | ⟨_, _⟩⟩⟩
    · cases hrow
    · cases hrow
    · exact forward_append hf hrow
    · cases hrow
  | object members => exact forward_foldlM (fun _ _ _ hf happ => forward_append hf happ) hf hfill

theorem forward_empty (guard : Guard) : Forward (Headers.list { guard := guard }) :=
  fun _ _ _ hx => nomatch hx

theorem bind_eq_ok {α β : Type} {r : Except String α} {f : α → Except String β} {b : β}
    (h : r.bind f = .ok b) : ∃ a, r = .ok a ∧ f a = .ok b := by
  cases r with
  | error msg => cases h
  | ok a => exact ⟨a, rfl, h⟩

theorem forward_request {objects : List Headers} {orig : Option ℕ} {init : Option Init}
    {stringBody : Bool} (hreq : requestHeaders objects orig init stringBody = .ok h) :
    Forward h.list := by
  obtain ⟨h₁, horig, hreq⟩ := bind_eq_ok hreq
  obtain ⟨h₂, hinit, htype⟩ := bind_eq_ok hreq
  have hf₁ : Forward h₁.list := by
    rw [inheritOrig] at horig
    cases hget : orig.bind fun this => objects[this]? with
    | none =>
      rw [hget] at horig
      cases horig
      exact forward_empty .request
    | some x =>
      rw [hget] at horig
      exact forward_inherit (forward_empty .request) horig
  have hf₂ : Forward h₂.list := by
    cases init with
    | none =>
      cases hinit
      exact hf₁
    | some init => exact forward_fill (forward_empty .request) hinit
  rw [appendContentType] at htype
  split_ifs at htype
  · exact forward_append hf₂ htype
  · cases htype
    exact hf₂

/-! ### Runs -/

def World.Forward (w : World) : Prop := ∀ h ∈ w.objects, Fetch.Forward h.list

variable {w : World}

theorem construct_forward (hw : w.Forward) {r : Except String Headers}
    (hr : ∀ h, r = .ok h → Forward h.list) : (w.construct r).1.Forward := by
  cases r with
  | error msg => exact hw
  | ok h' =>
    intro h hh
    obtain hh | hh := List.mem_append.mp hh
    · exact hw h hh
    · exact List.mem_singleton.mp hh ▸ hr h' rfl

theorem update_forward (hw : w.Forward) (this : ℕ) {r : Except String Headers}
    (hr : ∀ h, r = .ok h → Forward h.list) : (w.update this r).1.Forward := by
  cases r with
  | error msg => exact hw
  | ok h' =>
    intro h hh
    obtain hh | rfl := List.mem_or_eq_of_mem_set hh
    · exact hw h hh
    · exact hr h rfl

theorem step_forward (e : Engine) (hw : w.Forward) (op : Op) : (step e w op).1.Forward := by
  cases op with
  | newHeaders init =>
    refine construct_forward hw fun h hh => ?_
    cases init with
    | none =>
      cases hh
      exact forward_empty .none
    | some init => exact forward_fill (forward_empty .none) hh
  | newRequest orig init stringBody => exact construct_forward hw fun h hh => forward_request hh
  | fetched lines =>
    refine construct_forward hw fun h hh => ?_
    rw [fetchedHeaders] at hh
    cases hl : lines.foldlM (fun headers l => ngxJsHeadersAppend headers l.1 l.2)
        { guard := .none } with
    | error msg =>
      rw [hl] at hh
      cases hh
    | ok x =>
      rw [hl] at hh
      cases hh
      have hf : Forward x.list :=
        forward_foldlM (fun _ _ _ hf happ => forward_append hf happ) (forward_empty .none) hl
      exact hf
  | call this c =>
    rw [step]
    split
    · exact hw
    rename_i h hget
    have hf := hw h (List.mem_of_getElem? hget)
    cases c with
    | append name value => exact update_forward hw this fun h' hh => forward_append hf hh
    | set name value => exact update_forward hw this fun h' hh => forward_set hf hh
    | delete name =>
      refine update_forward hw this fun h' hh => ?_
      cases hh
      exact forward_delete hf name
    | get name => exact hw
    | getAll name => exact hw
    | has name => exact hw
    | prop name => exact hw
    | keys =>
      rw [call]
      split <;> exact hw
    | forEach => exact hw
  | next =>
    rw [step, nextRound]
    split
    · exact hw
    · exact hw
    · split
      · exact hw
      · split <;> exact hw

end Njs.Fetch
