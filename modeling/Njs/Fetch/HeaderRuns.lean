import Mathlib.Data.List.ModifyLast
import Njs.Fetch.HeaderRefinement

/-!
# Runs of calls on Headers objects

In a run of calls none of which is left out, every call returns what it returns on header lists. The
calls that are left out are those that set a value where there is one already, if there is more than
one, if the value is not one that could be appended, or if the headers are immutable; those that
delete a name of immutable headers; and in QuickJS enumerations of names that are spelled in
different ways or are not added in their order, and reads of a property that is inherited as well.
-/

namespace Njs.Fetch

open Text Http

/-! ### Names in their order -/

theorem sortRound_perm (sorted : List Bytes) (p : Bytes) : (sortRound sorted p).Perm (p ::
    sorted) := by
  rw [sortRound]
  refine List.perm_middle.trans (.cons p ?_)
  rw [List.rdropWhile_append_rtakeWhile]

theorem ngxJsSort_perm (keys : List Bytes) : (ngxJsSort keys).Perm keys := by
  have hfold : ∀ sorted, (keys.foldl sortRound sorted).Perm (keys ++ sorted) := by
    induction keys with
    | nil => exact fun sorted => .refl sorted
    | cons p keys ih =>
      intro sorted
      exact (ih _).trans (((sortRound_perm sorted p).append_left keys).trans List.perm_middle)
  have hnil := hfold []
  rwa [List.append_nil] at hnil

theorem sortRound_sorted {sorted : List Bytes} (h : sorted.Pairwise (· ≤ ·)) (p : Bytes) :
    (sortRound sorted p).Pairwise (· ≤ ·) := by
  induction sorted using List.reverseRecOn with
  | nil => exact List.pairwise_singleton _ _
  | append_singleton l x ih =>
    obtain ⟨hl, -, hx⟩ := List.pairwise_append.mp h
    by_cases hp : p < x
    · have hround : sortRound (l ++ [x]) p = sortRound l p ++ [x] := by
        rw [sortRound, sortRound, List.rdropWhile_concat_pos _ _ _ (by simpa using hp),
          List.rtakeWhile_concat_pos _ _ _ (by simpa using hp), List.append_assoc, List.cons_append]
      rw [hround]
      refine List.pairwise_append.mpr ⟨ih hl, List.pairwise_singleton _ _, fun q hq y hy => ?_⟩
      obtain rfl := List.mem_singleton.mp hy
      obtain rfl | hq := List.mem_cons.mp ((sortRound_perm l p).mem_iff.mp hq)
      · exact List.le_of_lt hp
      · exact hx q hq y (List.mem_singleton_self y)
    have hround : sortRound (l ++ [x]) p = l ++ [x] ++ [p] := by
      rw [sortRound, List.rdropWhile_concat_neg _ _ _ (by simpa using hp),
        List.rtakeWhile_concat_neg _ _ _ (by simpa using hp)]
    have hxp : x ≤ p := List.not_lt.mp hp
    rw [hround]
    refine List.pairwise_append.mpr ⟨h, List.pairwise_singleton _ _, fun q hq y hy => ?_⟩
    obtain rfl := List.mem_singleton.mp hy
    obtain hq | hq := List.mem_append.mp hq
    · exact List.le_trans (hx q hq x (List.mem_singleton_self x)) hxp
    · obtain rfl := List.mem_singleton.mp hq
      exact hxp

theorem ngxJsSort_sorted (keys : List Bytes) : (ngxJsSort keys).Pairwise (· ≤ ·) := by
  have hfold : ∀ sorted : List Bytes, sorted.Pairwise (· ≤ ·) →
      (keys.foldl sortRound sorted).Pairwise (· ≤ ·) := by
    induction keys with
    | nil => exact fun sorted h => h
    | cons p keys ih => exact fun sorted h => ih _ (sortRound_sorted h p)
  exact hfold [] List.Pairwise.nil

theorem eq_mergeSort {names keys : List Bytes} (hperm : names.Perm keys)
    (hsorted : names.Pairwise (· ≤ ·)) : names = keys.mergeSort (· ≤ ·) := by
  have hmerge : (keys.mergeSort (· ≤ ·)).Pairwise (· ≤ ·) := by
    have hpairwise := @List.pairwise_mergeSort Bytes (fun a b => decide (a ≤ b))
      (fun a b c hab hbc => decide_eq_true
        (List.le_trans (of_decide_eq_true hab) (of_decide_eq_true hbc)))
      (fun a b => by simpa using List.le_total a b) keys
    exact hpairwise.imp fun h => of_decide_eq_true h
  exact List.Perm.eq_of_pairwise (fun a b _ _ hab hba => List.le_antisymm hab hba) hsorted hmerge
    (hperm.trans (List.mergeSort_perm keys _).symm)

theorem foldl_pushKey {list : List Elt} (ht : Tokens list) {acc : List Bytes}
    (hacc : ∀ k ∈ acc, k.all isTchar = true) :
    list.foldl pushKey acc = (pairsOf list).foldl
      (fun acc p => if ∃ k ∈ acc, fold k = fold p.1 then acc else acc ++ [p.1]) acc := by
  induction list generalizing acc with
  | nil => rfl
  | cons h list ih =>
    have ht' : Tokens list := fun x hx => ht x (List.mem_cons_of_mem h hx)
    rw [List.foldl_cons, pairsOf_cons, List.foldl_append]
    by_cases hh : h.hash = true
    · have hany : (acc.any fun hdr => sameName h.key hdr) = true ↔ ∃ k ∈ acc,
        fold k = fold h.key := by
        rw [List.any_eq_true]
        refine exists_congr fun k => and_congr_right fun hk => ?_
        rw [sameName_iff (hacc k hk), eq_comm]
      rw [hh, if_pos rfl, List.foldl_cons, List.foldl_nil, pushKey]
      by_cases hmem : ∃ k ∈ acc, fold k = fold h.key
      · rw [if_pos hmem, if_pos (by rw [hany.mpr hmem]; simp), ih ht' hacc]
      have hnot : ¬(h.hash = false || acc.any fun hdr => sameName h.key hdr) = true := by
        simpa [hh] using mt hany.mp hmem
      rw [if_neg hmem, if_neg hnot, ih ht']
      intro k hk
      obtain hk | hk := List.mem_append.mp hk
      · exact hacc k hk
      · obtain rfl := List.mem_singleton.mp hk
        exact ht h List.mem_cons_self
    · rw [if_neg hh, List.foldl_nil, pushKey, if_pos (by simp [hh]), ih ht' hacc]

theorem pushKeys_eq {list : List Elt} (ht : Tokens list) :
    list.foldl pushKey [] = Multimap.keys fold (pairsOf list) := by
  have hnil : ∀ k ∈ ([] : List Bytes), k.all isTchar = true := fun _ hk => nomatch hk
  rw [foldl_pushKey ht hnil, Multimap.foldl_push]
  simp

variable {h : Headers} {e : Engine}

theorem extKeys_eq (ht : Tokens h.list) : ngxHeadersJsExtKeys h = h.toList.names := by
  rw [ngxHeadersJsExtKeys, pushKeys_eq ht]
  exact eq_mergeSort (ngxJsSort_perm _) (ngxJsSort_sorted _)

theorem qjsExtKeys_eq (ht : Tokens h.list) : ngxQjsHeadersExtKeys h = h.toList.names := by
  rw [ngxQjsHeadersExtKeys, pushKeys_eq ht]
  rfl

/-- The order in which QuickJS enumerates the names is that of strings, and a name is spelled in one
way. -/
structure SameOrder (names : List Bytes) : Prop where
  spelling : ∀ a ∈ names, ∀ b ∈ names, fold a = fold b → a = b
  indices : ∀ a ∈ names, ∀ b ∈ names, ∀ i j, arrayIndex a = some i → arrayIndex b = some j →
    i ≤ j → a ≤ b
  first : ∀ a ∈ names, ∀ b ∈ names, (arrayIndex a).isSome → arrayIndex b = none → a ≤ b
  others : ∀ a ∈ names, ∀ b ∈ names, arrayIndex a = none → arrayIndex b = none →
    names.idxOf a ≤ names.idxOf b → a ≤ b

theorem pairwise_firsts (names : List Bytes) :
    names.reverse.dedup.reverse.Pairwise fun a b => names.idxOf a ≤ names.idxOf b := by
  induction names using List.reverseRecOn with
  | nil => exact List.Pairwise.nil
  | append_singleton l x ih =>
    have hold : l.reverse.dedup.reverse.Pairwise fun a b =>
        (l ++ [x]).idxOf a ≤ (l ++ [x]).idxOf b := by
      refine ih.imp_of_mem fun {a b} ha hb hab => ?_
      rw [List.mem_reverse, List.mem_dedup, List.mem_reverse] at ha hb
      rwa [List.idxOf_append_of_mem ha, List.idxOf_append_of_mem hb]
    rw [List.reverse_concat]
    by_cases hx : x ∈ l
    · rwa [List.dedup_cons_of_mem (List.mem_reverse.mpr hx)]
    rw [List.dedup_cons_of_notMem (mt List.mem_reverse.mp hx), List.reverse_cons]
    refine List.pairwise_append.mpr ⟨hold, List.pairwise_singleton _ _, fun a ha b hb => ?_⟩
    obtain rfl := List.mem_singleton.mp hb
    rw [List.mem_reverse, List.mem_dedup, List.mem_reverse] at ha
    rw [List.idxOf_append_of_mem ha, List.idxOf_append_of_notMem hx]
    exact List.idxOf_le_length.trans (Nat.le_add_right _ _)

theorem jsGetOwnPropertyNames_perm (names : List Bytes) :
    (jsGetOwnPropertyNames names).Perm names.reverse.dedup.reverse :=
  ((List.mergeSort_perm _ _).append_right _).trans (List.filter_append_perm _ _)

theorem jsGetOwnPropertyNames_sorted {names : List Bytes} (h : SameOrder names) :
    (jsGetOwnPropertyNames names).Pairwise (· ≤ ·) := by
  have hmem : ∀ a ∈ names.reverse.dedup.reverse, a ∈ names := fun a ha => by
    rwa [List.mem_reverse, List.mem_dedup, List.mem_reverse] at ha
  have hindex : ∀ a ∈ (names.reverse.dedup.reverse.filter fun name =>
      (arrayIndex name).isSome).mergeSort
        (fun a b => (arrayIndex a).getD 0 ≤ (arrayIndex b).getD 0),
      a ∈ names ∧ (arrayIndex a).isSome = true := fun a ha => by
    rw [(List.mergeSort_perm _ _).mem_iff, List.mem_filter] at ha
    exact ⟨hmem a ha.1, ha.2⟩
  have hother : ∀ a ∈ names.reverse.dedup.reverse.filter fun name => !(arrayIndex name).isSome,
      a ∈ names ∧ arrayIndex a = none := fun a ha => by
    obtain ⟨hin, hnone⟩ := List.mem_filter.mp ha
    exact ⟨hmem a hin, by simpa using hnone⟩
  refine List.pairwise_append.mpr ⟨?_, ?_, fun a ha b hb => ?_⟩
  · have hpairwise := @List.pairwise_mergeSort Bytes
      (fun a b => decide ((arrayIndex a).getD 0 ≤ (arrayIndex b).getD 0))
      (fun a b c hab hbc => decide_eq_true
        (Nat.le_trans (of_decide_eq_true hab) (of_decide_eq_true hbc)))
      (fun a b => by simpa using Nat.le_total _ _)
      (names.reverse.dedup.reverse.filter fun name => (arrayIndex name).isSome)
    refine hpairwise.imp_of_mem fun {a b} ha hb hab => ?_
    obtain ⟨hain, hasome⟩ := hindex a ha
    obtain ⟨hbin, hbsome⟩ := hindex b hb
    obtain ⟨i, hi⟩ := Option.isSome_iff_exists.mp hasome
    obtain ⟨j, hj⟩ := Option.isSome_iff_exists.mp hbsome
    have hle := of_decide_eq_true hab
    rw [hi, hj] at hle
    exact h.indices a hain b hbin i j hi hj hle
  · refine ((pairwise_firsts names).filter _).imp_of_mem fun {a b} ha hb hab => ?_
    obtain ⟨hain, hanone⟩ := hother a ha
    obtain ⟨hbin, hbnone⟩ := hother b hb
    exact h.others a hain b hbin hanone hbnone hab
  · obtain ⟨hain, hasome⟩ := hindex a ha
    obtain ⟨hbin, hbnone⟩ := hother b hb
    exact h.first a hain b hbin hasome hbnone

def liveKeys (list : List Elt) : List Bytes := (list.filter Elt.hash).map Elt.key

theorem ownPropertyNames_eq (horder : SameOrder (liveKeys h.list)) :
    ngxQjsFetchHeadersOwnPropertyNames h = h.toList.names := by
  have hkeys : liveKeys h.list = (pairsOf h.list).map Prod.fst := by
    rw [liveKeys, pairsOf, List.map_map]
    rfl
  have hperm : (Multimap.keys fold (pairsOf h.list)).Perm
      (liveKeys h.list).reverse.dedup.reverse := by
    have hnodup : (Multimap.keys fold (pairsOf h.list)).Nodup :=
      (Multimap.keys_pairwise fold _).imp fun hne heq => hne (congrArg fold heq)
    refine (List.perm_ext_iff_of_nodup hnodup (List.nodup_reverse.mpr (List.nodup_dedup _))).mpr
      fun k => ?_
    rw [List.mem_reverse, List.mem_dedup, List.mem_reverse, hkeys]
    refine ⟨fun hk => Multimap.keys_subset fold _ hk, fun hk => ?_⟩
    obtain ⟨p, hp, rfl⟩ := List.mem_map.mp hk
    obtain ⟨k, hmem, hfold⟩ := (Multimap.mem_keys_norm fold).mpr ⟨p, hp, rfl⟩
    have hlive := Multimap.keys_subset fold _ hmem
    rw [← hkeys] at hk hlive
    rwa [← horder.spelling k hlive p.1 hk hfold]
  exact eq_mergeSort ((jsGetOwnPropertyNames_perm _).trans hperm.symm)
    (jsGetOwnPropertyNames_sorted horder)

/-! ### Calls -/

def RegularCall (e : Engine) (h : Headers) : Call → Prop
  | .set name value =>
    (∀ i, findElt h.list name = some i → positions h.list name = [i] ∧ h.guard ≠ .immutable ∧
      ngxJsHttpTrimOws value = value ∧ ngxJsCheckHeaderValue value = true) ∧
    (findElt h.list name = none → e.kind = .quickJs → e.freed name = name)
  | .delete name => h.guard = .immutable → findElt h.list name = none
  | .prop name =>
    e.kind = .quickJs → 0 ∉ name ∧ (e.inherited name = true → findElt h.list name = none)
  | .keys => e.kind = .quickJs → SameOrder (liveKeys h.list)
  | _ => True

/-- What is done regularly. A callback in njs is given the value of a name that is still there. -/
def Regular (e : Engine) (w : World) : Op → Prop
  | .call this c => ∀ h, w.objects[this]? = some h → RegularCall e h c
  | .next => e.kind = .njs → ∀ this name names loops h, w.loops = (this, name :: names) :: loops →
      w.objects[this]? = some h → findElt h.list name ≠ none
  | _ => True

theorem all_isTchar_fold (name : Bytes) : (fold name).all isTchar = name.all isTchar := by
  have hlower : ∀ c, isTchar (Http.lower c) = isTchar c := forall_byte (by decide)
  rw [fold, List.all_map]
  exact congrArg name.all (funext hlower)

theorem key_of_append {h' : Headers} {name value : Bytes}
    (heq : ngxJsHeadersAppend h name value = .ok h') :
    ∃ l x, h'.list = l ++ [x] ∧ x.key = name := by
  rw [ngxJsHeadersAppend] at heq
  split at heq
  · cases heq
  split at heq
  · cases heq
  · split at heq
    · cases heq
    · obtain rfl := Except.ok.inj heq
      exact ⟨_, _, rfl, rfl⟩

theorem mem_modify {α : Type} {f : α → α} {l : List α} {i : ℕ} {x : α} (hx : x ∈ l.modify i f) :
    x ∈ l ∨ ∃ y ∈ l, x = f y := by
  obtain ⟨j, hj⟩ := List.mem_iff_getElem?.mp hx
  rw [List.getElem?_modify] at hj
  cases hget : l[j]? with
  | none =>
    rw [hget] at hj
    cases hj
  | some y =>
    have hy := List.mem_of_getElem? hget
    rw [hget] at hj
    have heq : (if i = j then f y else y) = x := Option.some.inj hj
    rw [← heq]
    split_ifs
    · exact .inr ⟨y, hy, rfl⟩
    · exact .inl hy

theorem Headers.Ok.set {h : Headers} (ok : h.Ok) {e : Engine} {name value : Bytes}
    (hreg : RegularCall e h (.set name value)) :
    Simulates (ngxHeadersJsExtSet e h name value) (h.toList.set name value) := by
  obtain ⟨hset, hfreed⟩ := hreg
  rw [ngxHeadersJsExtSet]
  cases hfind : findElt h.list name with
  | none =>
    have hnew : h.toList.set name value = h.toList.append name value := by
      rw [HeaderList.set, HeaderList.append,
        Multimap.set_of_values_eq_nil fold _ ((ok.findElt_eq_none name).mp hfind)]
    have happend := ok.append name value
    rw [hnew]
    cases hkind : e.kind with
    | njs => exact happend
    | quickJs =>
      have hsame : (ngxJsHeadersAppend h name value).map (fun headers =>
          { headers with
            list := headers.list.modifyLast fun h => { h with key := e.freed name } }) =
          ngxJsHeadersAppend h name value := by
        cases heq : ngxJsHeadersAppend h name value with
        | error msg => rfl
        | ok h' =>
          obtain ⟨l, x, hl, hx⟩ := key_of_append heq
          show Except.ok { h' with list := h'.list.modifyLast _ } = Except.ok h'
          rw [hl, List.modifyLast_concat, hfreed hfind hkind, ← hx, ← hl]
      rw [← hsame] at happend
      exact happend
  | some i =>
    obtain ⟨hpos, himm, htrim, hcheck⟩ := hset i hfind
    have htrim : strip value = value := htrim
    have hname : name.all isTchar = true := by
      obtain ⟨x, hx, hof⟩ := mem_positions.mp (hpos ▸ List.mem_singleton_self i)
      have hmem := List.mem_of_getElem? hx
      rw [← all_isTchar_fold, ← ((isOf_iff ok.tokens hmem name).mp hof).2, all_isTchar_fold]
      exact ok.tokens x hmem
    have hvalue : value.all isFieldChar = true := checkValue_eq value ▸ hcheck
    have hguard : h.toList.guard ≠ .immutable := himm
    have hcheck : h.toList.check name value = .ok () := by
      simp [HeaderList.check, htrim, hname, hvalue, hguard]
    rw [HeaderList.set, hcheck, htrim]
    have hcore := (core_cutElt h.list i value).symm
    refine ⟨⟨?_, fun name' => ?_, ?_, ?_⟩, ?_⟩
    · refine forall_congr hcore (P := fun c => c.2.1.all isTchar = true) fun x hx => ?_
      obtain hx | ⟨y, hy, rfl⟩ := mem_modify hx
      · exact ok.tokens x hx
      · exact ok.tokens y hy
    · have hwhole := ok.whole name
      rw [hpos] at hwhole
      have hlinked := @Linked.set _ ok.tokens name value _ _ hwhole _ _ (ok.whole name')
      have hsame : (if fold name' = fold name then [i] else positions h.list name') =
          positions h.list name' := by
        split_ifs with heq
        · rw [positions_congr ok.tokens heq, hpos]
        · rfl
      rw [hsame, ← positions_cutElt h.list i value] at hlinked
      exact hlinked
    · refine forall_congr hcore
        (P := fun c => c.1 = true → strip c.2.2 = c.2.2 ∧ c.2.2.all isFieldChar = true) fun x hx =>
          ?_
      obtain hx | ⟨y, hy, rfl⟩ := mem_modify hx
      · exact ok.values x hx
      · exact fun _ => ⟨htrim, hvalue⟩
    · show h.contentType = none ↔ positions (cutElt h.list i value) _ = []
      rw [positions_cutElt]
      exact ok.contentType
    · show (⟨h.guard, pairsOf (cutElt h.list i value)⟩ : HeaderList) = _
      rw [pairsOf_cutElt ok.tokens hpos]
      rfl

theorem Headers.Ok.delete {h : Headers} (ok : h.Ok) {e : Engine} {name : Bytes}
    (hreg : RegularCall e h (.delete name)) :
    (ngxHeadersJsExtDelete h name).Ok ∧
      (ngxHeadersJsExtDelete h name).toList = h.toList.delete name := by
  have hlist : (ngxHeadersJsExtDelete h name).list = killElts h.list name := rfl
  refine ⟨⟨?_, fun name' => ?_, ?_, ?_⟩, ?_⟩
  · intro x hx
    rw [hlist] at hx
    obtain ⟨y, hy, rfl⟩ := List.mem_map.mp hx
    split_ifs <;> exact ok.tokens y hy
  · have hlinked := (ok.whole name').delete ok.tokens name
    rw [← positions_killElts ok.tokens] at hlinked
    exact hlinked
  · intro x hx
    rw [hlist] at hx
    obtain ⟨y, hy, rfl⟩ := List.mem_map.mp hx
    split_ifs
    · exact fun hh => nomatch hh
    · exact ok.values y hy
  · show (if sameName name (lit "Content-Type") then none else h.contentType) = none ↔
      positions (killElts h.list name) (lit "Content-Type") = []
    rw [positions_killElts ok.tokens]
    by_cases hct : sameName name (lit "Content-Type") = true
    · rw [if_pos hct, if_pos ((sameName_iff contentType_token).mp hct).symm]
      exact ⟨fun _ => rfl, fun _ => rfl⟩
    · rw [if_neg hct, if_neg (Ne.symm (mt (sameName_iff contentType_token).mpr hct))]
      exact ok.contentType
  · show (⟨h.guard, pairsOf (killElts h.list name)⟩ : HeaderList) = _
    rw [pairsOf_killElts ok.tokens, HeaderList.delete]
    split_ifs with himm
    · have hnone := hreg himm
      rw [ok.findElt_eq_none] at hnone
      exact congrArg (HeaderList.mk h.guard) (Multimap.erase_of_values_eq_nil fold hnone)
    · rfl

/-! ### Steps -/

def World.Ok (w : World) : Prop := ∀ h ∈ w.objects, h.Ok

/-- A step leaves objects as they should be, and does what a step on header lists does. -/
def Refines (r : World × Result) (r' : Heap × Result) : Prop :=
  r.1.Ok ∧ r' = (r.1.toHeap, r.2)

variable {w : World}

theorem construct_refines (ok : w.Ok) {r : Except String Headers} {r' : Except String HeaderList}
    (h : Simulates r r') : Refines (w.construct r) (w.toHeap.construct r') := by
  match r, r', h with
  | .ok x, .ok l, ⟨hx, hl⟩ =>
    subst hl
    refine ⟨fun y hy => ?_, ?_⟩
    · obtain hy | hy := List.mem_append.mp hy
      · exact ok y hy
      · obtain rfl := List.mem_singleton.mp hy
        exact hx
    · show (⟨w.objects.map Headers.toList ++ [x.toList], w.loops⟩, Result.object) =
        ((⟨(w.objects ++ [x]).map Headers.toList, w.loops⟩, Result.object) : Heap × Result)
      rw [List.map_append]
      rfl
  | .error msg, .error msg', h =>
    obtain rfl : msg = msg' := h
    exact ⟨ok, rfl⟩

theorem update_refines {w : World} (ok : w.Ok) (this : ℕ) {r : Except String Headers}
    {r' : Except String HeaderList} (h : Simulates r r') :
    Refines (w.update this r) (w.toHeap.update this r') := by
  match r, r', h with
  | .ok x, .ok l, ⟨hx, hl⟩ =>
    subst hl
    refine ⟨fun y hy => ?_, ?_⟩
    · obtain hy | rfl := List.mem_or_eq_of_mem_set hy
      · exact ok y hy
      · exact hx
    · show (⟨(w.objects.map Headers.toList).set this x.toList, w.loops⟩, Result.undefined) =
        ((⟨(w.objects.set this x).map Headers.toList, w.loops⟩, Result.undefined) : Heap × Result)
      rw [List.map_set]
  | .error msg, .error msg', h =>
    obtain rfl : msg = msg' := h
    exact ⟨ok, rfl⟩

theorem readProp_eq (ok : h.Ok) {name : Bytes} (hreg : RegularCall e h (.prop name)) :
    readProp e h name =
      if e.inherited name then .inherited else ofOption .undefined (h.toList.get name) := by
  rw [readProp]
  cases hkind : e.kind with
  | njs => simp only [ok.get_eq]
  | quickJs =>
    obtain ⟨hzero, hinherited⟩ := hreg hkind
    have hname : name.takeWhile (fun c => decide (c ≠ 0)) = name := by
      rw [List.takeWhile_eq_self_iff]
      intro c hc
      refine decide_eq_true ?_
      rintro rfl
      exact hzero hc
    simp only [hname, ok.get_eq]
    split_ifs with hin
    · have hnone := (ok.findElt_eq_none name).mp (hinherited hin)
      rw [HeaderList.get, if_pos hnone]
      rfl
    · rfl

theorem call_refines (ok : w.Ok) {this : ℕ} (hget : w.objects[this]? = some h) {c : Call}
    (hreg : RegularCall e h c) :
    Refines (call e w this h c) (specCall e.inherited w.toHeap this h.toList c) := by
  have hok := ok h (List.mem_of_getElem? hget)
  cases c with
  | append name value => exact update_refines ok this (hok.append name value)
  | set name value => exact update_refines ok this (hok.set hreg)
  | delete name => exact @update_refines _ ok this (.ok _) (.ok _) (hok.delete hreg)
  | get name =>
    rw [call, specCall, hok.get_eq]
    exact ⟨ok, rfl⟩
  | getAll name =>
    rw [call, specCall, hok.getAll_eq]
    exact ⟨ok, rfl⟩
  | has name =>
    rw [call, specCall, hok.get_eq]
    exact ⟨ok, rfl⟩
  | prop name =>
    rw [call, specCall, readProp_eq hok hreg]
    exact ⟨ok, rfl⟩
  | keys =>
    rw [call, specCall]
    cases hkind : e.kind with
    | njs =>
      simp only [extKeys_eq hok.tokens]
      exact ⟨ok, rfl⟩
    | quickJs =>
      simp only [ownPropertyNames_eq (hreg hkind)]
      exact ⟨ok, rfl⟩
  | forEach =>
    rw [call, specCall]
    cases e.kind with
    | njs =>
      simp only [extKeys_eq hok.tokens]
      exact ⟨ok, rfl⟩
    | quickJs =>
      simp only [qjsExtKeys_eq hok.tokens]
      exact ⟨ok, rfl⟩

theorem next_refines (ok : w.Ok) (hreg : Regular e w .next) :
    Refines (nextRound e w) (specStep e.inherited w.toHeap .next) := by
  obtain ⟨objects, loops⟩ := w
  rw [nextRound, specStep]
  rcases loops with _ | ⟨⟨this, _ | ⟨name, names⟩⟩, loops⟩
  · exact ⟨ok, rfl⟩
  · exact ⟨ok, rfl⟩
  simp only [World.toHeap, List.getElem?_map]
  cases hget : objects[this]? with
  | none => exact ⟨ok, rfl⟩
  | some h =>
    have hok := ok h (List.mem_of_getElem? hget)
    simp only [Option.map_some, ← hok.get_eq]
    cases hkind : e.kind with
    | njs =>
      have hfind := hreg hkind this name names loops h rfl hget
      rw [ne_eq, hok.findElt_eq_none] at hfind
      have hsome : ngxHeadersJsGet h name = some ((lit ", ").intercalate (h.toList.getAll name))
        := by
        rw [hok.get_eq, HeaderList.get, if_neg hfind]
      simp only [hsome]
      exact ⟨ok, rfl⟩
    | quickJs => exact ⟨ok, rfl⟩

theorem step_refines (ok : w.Ok) {op : Op} (hreg : Regular e w op) :
    Refines (step e w op) (specStep e.inherited w.toHeap op) := by
  cases op with
  | newHeaders init =>
    refine construct_refines ok ?_
    cases init with
    | none => exact ⟨Headers.Ok.empty .none, rfl⟩
    | some init => exact (Headers.Ok.empty .none).fill w.objects init
  | newRequest orig init stringBody =>
    exact construct_refines ok (simulates_request w.objects orig init stringBody)
  | fetched lines => exact construct_refines ok (simulates_response lines)
  | call this c =>
    rw [step, specStep, World.toHeap, List.getElem?_map]
    cases hget : w.objects[this]? with
    | none => exact ⟨ok, rfl⟩
    | some h => exact call_refines ok hget (hreg h hget)
  | next => exact next_refines ok hreg

/-! ### Runs -/

def run (e : Engine) : World → List Op → World × List Result
  | w, [] => (w, [])
  | w, op :: ops =>
    let (w', r) := step e w op
    let (w'', rs) := run e w' ops
    (w'', r :: rs)

def specRun (inherited : Bytes → Bool) : Heap → List Op → Heap × List Result
  | w, [] => (w, [])
  | w, op :: ops =>
    let (w', r) := specStep inherited w op
    let (w'', rs) := specRun inherited w' ops
    (w'', r :: rs)

/-- Everything is done regularly. -/
def RegularRun (e : Engine) : World → List Op → Prop
  | _, [] => True
  | w, op :: ops => Regular e w op ∧ RegularRun e (step e w op).1 ops

theorem run_refines (ok : w.Ok) {ops : List Op} (hreg : RegularRun e w ops) : (run e w ops).1.Ok ∧
      specRun e.inherited w.toHeap ops = ((run e w ops).1.toHeap, (run e w ops).2) := by
  induction ops generalizing w with
  | nil => exact ⟨ok, rfl⟩
  | cons op ops ih =>
    obtain ⟨hop, hops⟩ := hreg
    obtain ⟨ok', hstep⟩ := step_refines ok hop
    obtain ⟨hrun, hspec⟩ := ih ok' hops
    refine ⟨hrun, ?_⟩
    rw [specRun, hstep]
    simp only [hspec]
    rfl

def plainNjs : Engine where
  kind := .njs
  inherited name := name ∈ ["append", "delete", "forEach", "get", "getAll", "has", "set"].map lit
  freed := id

/-- One value is replaced by another. -/
def setOnce : List Op :=
  [.newHeaders none, .call 0 (.append (lit "X") (lit " 1 ")), .call 0 (.set (lit "x") (lit "2"))]

end Njs.Fetch
