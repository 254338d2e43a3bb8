import Mathlib.Data.List.Perm.Subperm
import Mathlib.Data.List.Range
import Njs.Promises.CombinatorOutcome

/-!
# Steps after the call of a combinator

What a call has done so far follows from the inputs for which the job ran.
-/

namespace Njs.Promises.Machine

variable {V S : Type} {objects : Objects V S}

/-! ### The state of the call -/

section CallState

variable (objects) (kind : Kind) (n : ℕ)

/-- The settlements for which an element function is called. -/
def counts : PromiseType → Bool
  | .rejected => kind != .all
  | _ => kind != .any

def stored (e : Settlement V) : V :=
  if kind = .allSettled then objects.record (e.2.1 = .rejected) e.2.2 else e.2.2

def called (ran : List (Settlement V)) : List (Settlement V) := ran.filter fun e =>
    counts kind e.2.1

/-- The array, after the jobs of some inputs. -/
def valuesAfter (ran : List (Settlement V)) : List (Option V) :=
  (List.range n).map fun i =>
    some (((called kind ran).find? fun e => e.1 = i).elim objects.undefined (stored objects kind))

def callAfter (context : ℕ) (ran : List (Settlement V)) : Call V where
  capability := context
  values := valuesAfter objects kind n ran
  remaining := n - (called kind ran).length
  contexts := (List.range n).map fun i => ⟨(called kind ran).any fun e => e.1 = i, i⟩

/-- What the call of the last element function settles the promise with. -/
def final (array : V) : PromiseType × V :=
  if kind = .any then (.rejected, objects.aggregateError array) else (.fulfill, array)

/-- What the promise of the call was settled with, after the jobs of some inputs. -/
def verdict (ran : List (Settlement V)) : Option (PromiseType × V) :=
  match ran.find? fun e => !counts kind e.2.1 with
  | some (_, t, v) => some (t, v)
  | none =>
    if ran.length = n then some (final objects kind (objects.array (valuesAfter objects kind n
      ran)))
    else none

variable {objects kind n}

theorem set_map_range {α : Type*} {f g : ℕ → α} {i : ℕ} {a : α} (hi : g i = a)
    (hg : ∀ j, j ≠ i → g j = f j) : ((List.range n).map f).set i a = (List.range n).map g := by
  refine List.ext_getElem? fun j => ?_
  rw [List.getElem?_set]
  by_cases hj : j < n
  · simp only [List.getElem?_map, List.getElem?_range hj, List.length_map, List.length_range,
      Option.map_some]
    split_ifs with heq hlt
    · rw [← heq, hi]
    · omega
    · rw [hg j (Ne.symm heq)]
  · have hnone : (List.range n)[j]? = none := List.getElem?_eq_none (by simpa using hj)
    simp only [List.getElem?_map, hnone, List.length_map, List.length_range, Option.map_none]
    split_ifs <;> first | rfl | omega

variable {ran : List (Settlement V)} {i : ℕ} {t : PromiseType} {v : V}

theorem called_append (ht : counts kind t = true) :
    called kind (ran ++ [(i, t, v)]) = called kind ran ++ [(i, t, v)] := by
  simp [called, ht]

theorem called_append_of_not (ht : counts kind t = false) :
    called kind (ran ++ [(i, t, v)]) = called kind ran := by
  simp [called, ht]

theorem not_mem_called (hi : i ∉ ran.map Prod.fst) : ∀ e ∈ called kind ran, e.1 ≠ i :=
  fun _ he heq => hi (List.mem_map.mpr ⟨_, List.mem_of_mem_filter he, heq⟩)

theorem valuesAfter_append (hi : i ∉ ran.map Prod.fst) (ht : counts kind t = true) :
    (valuesAfter objects kind n ran).set i (some (stored objects kind (i, t, v))) =
      valuesAfter objects kind n (ran ++ [(i, t, v)]) := by
  refine set_map_range ?_ fun j hj => ?_
  · have hnone : (called kind ran).find? (fun e => e.1 = i) = none :=
      List.find?_eq_none.mpr fun e he => by simpa using not_mem_called hi e he
    simp [called_append ht, List.find?_append, hnone]
  · have hne : ¬i = j := hj.symm
    simp [called_append ht, List.find?_append, hne]

theorem contextsAfter_append (context : ℕ) (ht : counts kind t = true) :
    (callAfter objects kind n context ran).contexts.set i ⟨true, i⟩ =
      (callAfter objects kind n context (ran ++ [(i, t, v)])).contexts := by
  refine set_map_range ?_ fun j hj => ?_
  · simp [called_append ht]
  · have hne : ¬i = j := hj.symm
    simp [called_append ht, hne]

theorem elementFunction_eq {m : Machine V S} {context : ℕ} {settle : ℕ → V → Event V (Fn S)}
    (hm : m.call = some (callAfter objects kind n context ran)) (hin : i < n)
    (hi : i ∉ ran.map Prod.fst) (ht : counts kind t = true) :
    elementFunction objects i (stored objects kind (i, t, v)) settle m =
      let call := callAfter objects kind n context (ran ++ [(i, t, v)])
      if call.remaining = 0 then
        perform objects (settle context (objects.array call.values)) { m with call := some call }
      else { m with call := some call } := by
  have hcontext : (callAfter objects kind n context ran).contexts[i]? = some ⟨false, i⟩ := by
    have hany : (called kind ran).any (fun e => e.1 = i) = false :=
      List.any_eq_false.mpr fun e he => by simpa using not_mem_called hi e he
    simp [callAfter, List.getElem?_range hin, hany]
  have hvalues : njsValuePropertyI64Set (callAfter objects kind n context ran).values i
      (stored objects kind (i, t, v)) = valuesAfter objects kind n (ran ++ [(i, t, v)]) := by
    rw [njsValuePropertyI64Set, if_pos (by simpa [callAfter, valuesAfter] using hin)]
    exact valuesAfter_append hi ht
  have hremaining : (callAfter objects kind n context ran).remaining - 1 =
      (callAfter objects kind n context (ran ++ [(i, t, v)])).remaining := by
    simp only [callAfter, called_append ht, List.length_append, List.length_singleton]
    omega
  have hcontexts : (callAfter objects kind n context ran).contexts.set i ⟨true, i⟩ =
      (callAfter objects kind n context (ran ++ [(i, t, v)])).contexts :=
    contextsAfter_append context ht
  rw [elementFunction, hm]
  simp only [hcontext, hvalues, hremaining, hcontexts]
  rfl

/-! ### The verdict -/

theorem verdict_append_of_not (hlen : ran.length < n) (ht : counts kind t = false) :
    verdict objects kind n (ran ++ [(i, t, v)]) =
      some ((verdict objects kind n ran).getD (t, v)) := by
  have hlen : ¬ran.length = n := hlen.ne
  rw [verdict, verdict, List.find?_append]
  cases ran.find? fun e => !counts kind e.2.1 with
  | none => simp [ht, hlen]
  | some e => rfl

theorem verdict_append (hlen : ran.length < n) (ht : counts kind t = true) :
    verdict objects kind n (ran ++ [(i, t, v)]) =
      if (callAfter objects kind n 0 (ran ++ [(i, t, v)])).remaining = 0 then
        some (final objects kind (objects.array (valuesAfter objects kind n (ran ++ [(i, t, v)]))))
      else verdict objects kind n ran := by
  have hle : (called kind ran).length ≤ ran.length := List.length_filter_le ..
  have hne : ¬ran.length = n := hlen.ne
  have hfind : (ran ++ [(i, t, v)]).find? (fun e => !counts kind e.2.1) =
      ran.find? fun e => !counts kind e.2.1 := by
    simp [List.find?_append, ht]
  simp only [verdict, hfind, callAfter, called_append ht, List.length_append, List.length_singleton]
  cases hran : ran.find? fun e => !counts kind e.2.1 with
  | none =>
    have hall : called kind ran = ran :=
      List.filter_eq_self.mpr fun e he => by simpa using List.find?_eq_none.mp hran e he
    rw [hall]
    simp only [hne, if_false]
    split_ifs <;> first | rfl | omega
  | some e =>
    have hlt : (called kind ran).length < ran.length := by
      refine List.length_filter_lt_length_iff_exists.mpr ⟨e, List.mem_of_find?_eq_some hran, ?_⟩
      simpa using List.find?_some hran
    have hpos : ¬n - ((called kind ran).length + 1) = 0 := by omega
    rw [if_neg hpos]

theorem verdict_eq_none (hlen : ran.length < n) (ht : counts kind t = true)
    (hlast : (callAfter objects kind n 0 (ran ++ [(i, t, v)])).remaining = 0) :
    verdict objects kind n ran = none := by
  have hle : (called kind ran).length ≤ ran.length := List.length_filter_le ..
  simp only [callAfter, called_append ht, List.length_append, List.length_singleton] at hlast
  have hall : called kind ran = ran :=
    List.filter_sublist.eq_of_length (by rw [← called]; omega)
  have hfind : ran.find? (fun e => !counts kind e.2.1) = none :=
    List.find?_eq_none.mpr fun e he => by simpa using List.filter_eq_self.mp hall e he
  rw [verdict, hfind]
  exact if_neg hlen.ne

end CallState

/-- The promise is not fulfilled with a value that has a method `then`. -/
theorem final_spec (kind : Kind) (values : List (Option V)) :
    ∃ t v, final objects kind (objects.array values) = (t, v) ∧ t ≠ .pending ∧
      (t = .fulfill → objects.Plain v) := by
  rw [final]
  split_ifs
  · exact ⟨_, _, rfl, nofun, nofun⟩
  · exact ⟨_, _, rfl, nofun, fun _ _ => objects.then_array values⟩

/-! ### A job of the call -/

theorem invoke_counts (kind : Kind) (context i : ℕ) {t : PromiseType} (v : V)
    (ht : counts kind t = true) (m : Machine V S) :
    invoke objects (onSettled kind context i t) v m =
      elementFunction objects i (stored objects kind (i, t, v))
        (fun c array => settle c (final objects kind array)) m := by
  cases kind <;> cases t <;> first | rfl | cases ht

theorem invoke_not_counts (kind : Kind) (context i : ℕ) {t : PromiseType} (v : V)
    (ht : counts kind t = false) (m : Machine V S) :
    invoke objects (onSettled kind context i t) v m = perform objects (settle context (t,
      v)) m := by
  cases kind <;> cases t <;> first | rfl | cases ht

section Facts

variable {kind : Kind} {inputs : List ℕ} {context address : ℕ} {h : History V (Fn S)}

theorem ownEntry_eq_some {address n : ℕ} {d : ℕ × PromiseType × V} {e : Settlement V} :
    ownEntry address n d = some e ↔ e.1 < n ∧ d = (address + e.1, e.2) := by
  obtain ⟨a, t, v⟩ := d
  obtain ⟨i, t', v'⟩ := e
  rw [ownEntry]
  split_ifs with hrange
  · simp only [Option.some.injEq, Prod.mk.injEq] at hrange ⊢
    constructor
    · rintro ⟨rfl, rfl, rfl⟩
      exact ⟨by omega, by omega, rfl, rfl⟩
    · rintro ⟨-, rfl, rfl, rfl⟩
      exact ⟨by omega, rfl, rfl⟩
  · refine iff_of_false nofun ?_
    rintro ⟨hi, heq⟩
    have ha : a = address + i := congrArg Prod.fst heq
    exact hrange ⟨by omega, by omega⟩

theorem mem_settlements {address n : ℕ} {e : Settlement V} :
    e ∈ settlements address n h ↔ e.1 < n ∧ (address + e.1, e.2) ∈ h.delivered := by
  rw [settlements, List.mem_filterMap]
  constructor
  · rintro ⟨d, hd, hde⟩
    obtain ⟨hlt, rfl⟩ := ownEntry_eq_some.mp hde
    exact ⟨hlt, hd⟩
  · rintro ⟨hlt, hd⟩
    exact ⟨_, hd, ownEntry_eq_some.mpr ⟨hlt, rfl⟩⟩

theorem Linked.mem_settlements (hm : Linked objects kind inputs context address h) {i : ℕ}
    {t : PromiseType} {v : V} :
    (i, t, v) ∈ settlements address inputs.length h ↔
      ∃ p, inputs[i]? = some p ∧ (h.vm.promise p).Settled t v := by
  rw [Machine.mem_settlements]
  constructor
  · rintro ⟨hlt, hd⟩
    have hp : inputs[i]? = some inputs[i] := List.getElem?_eq_getElem hlt
    exact ⟨_, hp, (hm.sound.valid.mem_delivered (hm.registered i _ hp)).mp hd⟩
  · rintro ⟨p, hp, hset⟩
    exact ⟨(List.getElem?_eq_some_iff.mp hp).1,
      (hm.sound.valid.mem_delivered (hm.registered i p hp)).mpr hset⟩

theorem settlements_nodup (hv : Valid h) (address n : ℕ) :
    ((settlements address n h).map Prod.fst).Nodup := by
  have hdelivered := hv.delivered_nodup
  rw [settlements]
  generalize h.delivered = l at hdelivered ⊢
  induction l with
  | nil => exact List.nodup_nil
  | cons d l ih =>
    rw [List.map_cons, List.nodup_cons] at hdelivered
    rw [List.filterMap_cons]
    cases hd : ownEntry address n d with
    | none => exact ih hdelivered.2
    | some e =>
      refine List.nodup_cons.mpr ⟨fun he => hdelivered.1 ?_, ih hdelivered.2⟩
      obtain ⟨e', he', heq⟩ := List.mem_map.mp he
      obtain ⟨d', hd', hde'⟩ := List.mem_filterMap.mp he'
      obtain ⟨-, rfl⟩ := ownEntry_eq_some.mp hd
      obtain ⟨-, rfl⟩ := ownEntry_eq_some.mp hde'
      exact List.mem_map.mpr ⟨_, hd', congrArg (address + ·) heq⟩

theorem ran_initial (address n : ℕ) (h : History V (Fn S)) :
    ran address n h <+: settlements address n h := by
  rw [ran, settlements, History.delivered, List.filterMap_append, List.filterMap_append]
  exact List.prefix_append ..

theorem settlements_length_le (hv : Valid h) (address n : ℕ) :
    (settlements address n h).length ≤ n := by
  have hsub : (settlements address n h).map Prod.fst ⊆ List.range n := by
    intro i hi
    obtain ⟨e, he, rfl⟩ := List.mem_map.mp hi
    exact List.mem_range.mpr (Machine.mem_settlements.mp he).1
  have hlen := (List.subperm_of_subset (settlements_nodup hv address n) hsub).length_le
  rwa [List.length_map, List.length_range] at hlen

end Facts

/-! ### Steps after the call -/

section Steps

variable {kind : Kind} {inputs : List ℕ} {context result address : ℕ} {m : Machine V S}

/-- A state after the call: everything is as it follows from the jobs of the call that ran. -/
structure After (objects : Objects V S) (kind : Kind) (inputs : List ℕ)
    (context result address : ℕ) (m : Machine V S) : Prop where
  linked : Linked objects kind inputs context address m.history
  call : m.call = some (callAfter objects kind inputs.length context
    (ran address inputs.length m.history))
  outcome : Outcome context result m.history
    (verdict objects kind inputs.length (ran address inputs.length m.history))

theorem executed_perform (e : Event V (Fn S)) (m : Machine V S) :
    (perform objects e m).history.executed =
      m.history.executed ++ Promises.started m.history.vm e := by
  change (lookup objects (next objects.toValues m.history e)).executed = _
  rcases @lookup_cases _ _ objects (next objects.toValues m.history e) with
    ⟨-, heq⟩ | ⟨p, v, l, -, heq⟩
  · rw [heq]
    rfl
  · rw [heq]
    exact List.append_nil _

theorem ran_perform (address n : ℕ) (e : Event V (Fn S)) (m : Machine V S) :
    ran address n (perform objects e m).history = ran address n m.history ++
        ((Promises.started m.history.vm e).filterMap Job.delivery).filterMap (ownEntry address n)
          := by
  rw [ran, executed_perform, List.filterMap_append, List.filterMap_append]
  rfl

theorem After.perform (hm : After objects kind inputs context result address m)
    {e : Event V (Fn S)}
    (hlinked : Linked objects kind inputs context address (perform objects e m).history)
    (he : e.Unrelated context)
    (hran : ran address inputs.length (Machine.perform objects e m).history =
      ran address inputs.length m.history) :
    After objects kind inputs context result address (Machine.perform objects e m) := by
  refine ⟨hlinked, ?_, ?_⟩
  · rw [hran]
    exact hm.call
  · rw [hran]
    exact hm.outcome.perform hm.linked he

theorem After.quiet (hm : After objects kind inputs context result address m)
    {e : Event V (Fn S)} (hlookup : ∀ n t, e ≠ .lookup n t)
    (hcreated : e.created m.history.vm = []) (he : e.Unrelated context)
    (hstarted : Promises.started m.history.vm e = []) :
    After objects kind inputs context result address (Machine.perform objects e m) := by
  refine hm.perform (hm.linked.quiet hlookup hcreated) he ?_
  rw [ran_perform, hstarted]
  exact List.append_nil _

theorem linked_settle (hm : Linked objects kind inputs context address m.history)
    (q : PromiseType × V) :
    Linked objects kind inputs context address (perform objects (settle context q) m).history ∧
      ran address inputs.length (perform objects (settle context q) m).history =
        ran address inputs.length m.history := by
  obtain ⟨t, v⟩ := q
  rw [ran_perform]
  cases t with
  | rejected => exact ⟨hm.quiet nofun rfl, List.append_nil _⟩
  | pending | fulfill => exact ⟨hm.quiet nofun rfl, List.append_nil _⟩

theorem After.invoke {m₁ : Machine V S} {l : List (Settlement V)} {i : ℕ} {t : PromiseType} {v : V}
    (hlinked : Linked objects kind inputs context address m₁.history)
    (hcall : m₁.call = some (callAfter objects kind inputs.length context l))
    (houtcome : Outcome context result m₁.history (verdict objects kind inputs.length l))
    (hran : ran address inputs.length m₁.history = l ++ [(i, t, v)]) :
    After objects kind inputs context result address
      (Machine.invoke objects (onSettled kind context i t) v m₁) := by
  have hv := hlinked.sound.valid
  have hsub : l ++ [(i, t, v)] <+: settlements address inputs.length m₁.history :=
    hran ▸ ran_initial ..
  have hmem : (i, t, v) ∈ settlements address inputs.length m₁.history :=
    hsub.subset (List.mem_append_right _ List.mem_cons_self)
  obtain ⟨p, hp, hset⟩ := hlinked.mem_settlements.mp hmem
  have hin : i < inputs.length := (List.getElem?_eq_some_iff.mp hp).1
  have hlen : l.length < inputs.length := by
    have hle := hsub.length_le.trans (settlements_length_le hv address inputs.length)
    rw [List.length_append, List.length_singleton] at hle
    exact hle
  have hi : i ∉ l.map Prod.fst := by
    have hnodup := (settlements_nodup hv address inputs.length).sublist (hsub.sublist.map Prod.fst)
    rw [List.map_append, List.nodup_append] at hnodup
    exact fun hi => hnodup.2.2 i hi i List.mem_cons_self rfl
  have hne := hset.ne_pending
  have hplain : t = .fulfill → objects.Plain v := by
    rintro rfl
    exact hlinked.sound.plain p v hset
  cases ht : counts kind t with
  | false =>
    have hverdict : verdict objects kind inputs.length (l ++ [(i, t, v)]) = _ :=
      verdict_append_of_not hlen ht
    obtain ⟨hlinked', hran'⟩ := linked_settle hlinked (t, v)
    rw [invoke_not_counts kind context i v ht]
    refine ⟨hlinked', ?_, ?_⟩
    · rw [hran', hran, callAfter, valuesAfter, called_append_of_not ht]
      exact hcall
    rw [hran', hran, hverdict]
    cases hl : verdict objects kind inputs.length l with
    | none =>
      rw [hl] at houtcome
      exact houtcome.settle hlinked hne hplain
    | some q =>
      rw [hl] at houtcome
      exact houtcome.settle_again hlinked (t, v)
  | true =>
    have hverdict : verdict objects kind inputs.length (l ++ [(i, t, v)]) = _ :=
      verdict_append hlen ht
    rw [invoke_counts kind context i v ht, elementFunction_eq hcall hin hi ht]
    dsimp only
    by_cases hlast : (callAfter objects kind inputs.length context (l ++ [(i, t, v)])).remaining = 0
    · rw [if_pos hlast]
      rw [verdict_eq_none hlen ht hlast] at houtcome
      rw [if_pos (show (callAfter objects kind inputs.length 0 _).remaining = 0 from hlast)]
        at hverdict
      obtain ⟨t', v', hfinal, hne', hplain'⟩ := @final_spec _ _ objects kind
        (valuesAfter objects kind inputs.length (l ++ [(i, t, v)]))
      rw [hfinal] at hverdict
      change After _ _ _ _ _ _ (Machine.perform objects
        (settle context (final objects kind (objects.array (valuesAfter objects kind _ _)))) _)
      rw [hfinal]
      obtain ⟨hlinked', hran'⟩ := linked_settle
        (m := { m₁ with call := some (callAfter objects kind inputs.length context _) })
        hlinked (t', v')
      refine ⟨hlinked', ?_, ?_⟩
      · rw [hran']
        exact congrArg (fun l => some (callAfter objects kind inputs.length context l)) hran.symm
      · rw [hran', hran, hverdict]
        exact Outcome.settle (m := { m₁ with call := _ }) houtcome hlinked hne' hplain'
    · rw [if_neg hlast]
      rw [if_neg (show ¬(callAfter objects kind inputs.length 0 _).remaining = 0 from hlast)]
        at hverdict
      refine ⟨hlinked, ?_, ?_⟩
      · rw [hran]
      · rw [hran, hverdict]
        exact houtcome

theorem hasFunction_outside {call : Call V} (hcall : m.call = some call)
    (hcontext : call.capability = context) (f : Func (Fn S)) (h : hasFunction m f = true) :
    Func.Outside context f := by
  match f with
  | .resolve c | .reject c =>
    rw [hasFunction, hcall, Bool.and_eq_true] at h
    have hne : ¬call.capability = c := of_decide_eq_false (Bool.not_eq_true' _ ▸ h.2)
    exact fun heq => hne (hcontext.trans heq.symm)
  | .script (.script _) => trivial

theorem ran_runJob_of_native_none (hm : Linked objects kind inputs context address m.history)
    (hnative : native m.history.vm = none) :
    ran address inputs.length (perform objects .runJob m).history =
      ran address inputs.length m.history := by
  rw [ran_perform, Promises.started]
  split
  · rename_i job jobs hrunning hjobs
    cases job with
    | thenable p v f => exact List.append_nil _
    | reaction r v =>
      have hfits := hm.sound.holds.jobs r v (hjobs ▸ List.mem_cons_self)
      by_cases hown : address ≤ r.address ∧ r.address < address + inputs.length
      · obtain ⟨a, c, t, f⟩ := r
        have hf : f = some (onSettled kind context (a - address) t) := hfits.own hown.1 hown.2
        refine absurd hnative ?_
        rw [native, hrunning, hjobs, hf]
        cases kind <;> cases t <;> exact Option.some_ne_none _
      · have hentry : ownEntry address inputs.length (r.address, r.type, v) = none := if_neg hown
        simp [Job.delivery, hentry]
  · exact List.append_nil _

theorem After.runJob (hm : After objects kind inputs context result address m) :
    After objects kind inputs context result address (Machine.njsVmExecutePendingJob objects m)
      := by
  have hlinked : Linked objects kind inputs context address
      (Machine.perform objects .runJob m).history := hm.linked.quiet (by simp) rfl
  rw [Machine.njsVmExecutePendingJob]
  cases hnative : native m.history.vm with
  | none => exact hm.perform hlinked trivial (ran_runJob_of_native_none hm.linked hnative)
  | some q =>
    obtain ⟨f, v⟩ := q
    obtain ⟨a, c, t, jobs, hrunning, hjobs⟩ := native_eq hnative
    have hfits := hm.linked.sound.holds.jobs _ v (hjobs ▸ List.mem_cons_self)
    have hran : ran address inputs.length (Machine.perform objects .runJob m).history =
        ran address inputs.length m.history ++
          [(a, t, v)].filterMap (ownEntry address inputs.length) := by
      rw [ran_perform, Promises.started, hrunning, hjobs]
      rfl
    refine After.quiet ?_ (by simp) rfl trivial rfl
    by_cases hown : address ≤ a ∧ a < address + inputs.length
    · obtain rfl : f = onSettled kind context (a - address) t :=
        Option.some.inj (hfits.own hown.1 hown.2)
      have hentry : ownEntry address inputs.length (a, t, v) = some (a - address, t, v) :=
        if_pos hown
      simp only [List.filterMap_cons, hentry, List.filterMap_nil] at hran
      exact After.invoke hlinked hm.call (hm.outcome.perform hm.linked trivial) hran
    have hentry : ownEntry address inputs.length (a, t, v) = none := if_neg hown
    simp only [List.filterMap_cons, hentry, List.filterMap_nil, List.append_nil] at hran
    have hstarted := hm.perform hlinked trivial hran
    have hf : Func.Outside context f := hfits.other hown f rfl
    cases f with
    | resolve c => exact hstarted.quiet (by simp) rfl hf rfl
    | reject c => exact hstarted.quiet (by simp) rfl hf rfl
    | script f =>
      cases f with
      | script _ => exact hstarted
      | allResolve _ | allSettled _ _ | anyReject _ => exact hf.elim

theorem After.step (hm : After objects kind inputs context result address m) (e : Event V (Fn S)) :
    After objects kind inputs context result address (step objects m e) := by
  have hallowed (e : Event V (Fn S)) (hlookup : ∀ n t, e ≠ .lookup n t)
      (he : allows m e = true → e.Unrelated context)
      (hstarted : Promises.started m.history.vm e = []) :
      After objects kind inputs context result address
        (if allows m e then Machine.perform objects e m else m) := by
    split_ifs with hallows
    · refine hm.perform (hm.linked.perform hlookup fun r hr => ?_) (he hallows) ?_
      · obtain ⟨hhandler, hcapability⟩ := allows_created hallows r hr
        exact ⟨fun f hf => hasFunction_outside hm.call rfl f (hhandler f hf), fun c hc =>
          ⟨hasFunction_outside hm.call rfl _ (hcapability c hc).1,
            hasFunction_outside hm.call rfl _ (hcapability c hc).2⟩⟩
      · rw [ran_perform, hstarted]
        exact List.append_nil _
    · exact hm
  cases e with
  | runJob => exact hm.runJob
  | lookup n r =>
    have hidle : Machine.step objects m (.lookup n r) = m := by
      change (if allows m (.lookup n r) then Machine.perform objects (.lookup n r) m else m) = m
      rw [perform_lookup hm.linked.sound.lookups, ite_self]
    rwa [hidle]
  | construct => exact hallowed .construct nofun (fun _ => trivial) rfl
  | resolve c v =>
    exact hallowed _ nofun (hasFunction_outside hm.call rfl (.resolve c)) rfl
  | reject c v =>
    exact hallowed _ nofun (hasFunction_outside hm.call rfl (.reject c)) rfl
  | performThen p fulfilled rejected capability =>
    exact hallowed _ nofun (fun _ => trivial) rfl
  | jobReturn r => exact hallowed (.jobReturn r) nofun (fun _ => trivial) rfl

end Steps

end Njs.Promises.Machine
