import Mathlib.Data.List.Find
import Njs.Promises.CombinatorSteps

/-!
# The call of a combinator, and what follows from it
-/

namespace Njs.Promises.Machine

variable {V S : Type} {objects : Objects V S}

/-! ### Operations that read no property `then` -/

theorem perform_of_lookups {m : Machine V S} {e : Event V (Fn S)}
    (h : (Promises.step objects.toValues m.history.vm e).lookups = []) :
    perform objects e m = { m with history := next objects.toValues m.history e } := by
  have hlookups : (next objects.toValues m.history e).vm.lookups = [] := h
  rw [perform, lookup, hlookups]

@[simp]
theorem lookups_performThen {S : Type} {values : Values V} (p : ℕ)
    (fulfilled rejected : Option (Func S)) (capability : Option (Capability S)) (s : State V S) :
    (njsPromisePerformThen values p fulfilled rejected capability s).lookups = s.lookups := by
  rw [njsPromisePerformThen]
  dsimp only
  split <;> rfl

@[simp]
theorem reactions_performThen {S : Type} {values : Values V} (p : ℕ)
    (fulfilled rejected : Option (Func S)) (capability : Option (Capability S)) (s : State V S) :
    (njsPromisePerformThen values p fulfilled rejected capability s).reactions =
      s.reactions + 1 := by
  rw [njsPromisePerformThen]
  dsimp only
  split <;> rfl

/-! ### While the call goes through its inputs -/

section Call

variable {kind : Kind} {inputs : List ℕ} {context result address : ℕ} {m : Machine V S}

/-- The first `k` inputs have their reactions, and no job of the call ran. -/
structure Registered (objects : Objects V S) (kind : Kind) (inputs : List ℕ)
    (context result address k : ℕ) (m : Machine V S) : Prop where
  sound : Sound objects (Fits kind context address inputs.length) (Func.Outside context) m.history
  contexts : m.history.vm.contexts[context]? = some ⟨result, false⟩
  reactions : m.history.vm.reactions = address + k
  inputs_lt : ∀ p ∈ inputs, p < m.history.vm.promises
  registered : ∀ i < k, ∀ p, inputs[i]? = some p → (p, address + i) ∈ m.history.registered
  ran : ran address inputs.length m.history = []
  call : m.call = some
    ⟨context, List.replicate k (some objects.undefined), k + 1, (List.range k).map (⟨false, ·⟩)⟩

theorem njsPromiseInvokeThen_eq {h : History V (Fn S)} (hl : h.vm.lookups = [])
    (call : Option (Call V)) (p : ℕ) (f g : Func (Fn S)) :
    njsPromiseInvokeThen objects p f g ⟨h, call⟩ =
      ⟨next objects.toValues (next objects.toValues h .construct) (.performThen p (some f) (some g)
          (some ⟨.resolve h.vm.contexts.length, .reject h.vm.contexts.length⟩)), call⟩ := by
  have hconstruct : perform objects .construct ⟨h, call⟩ =
      ⟨next objects.toValues h .construct, call⟩ := perform_of_lookups hl
  rw [njsPromiseInvokeThen, hconstruct]
  refine perform_of_lookups ?_
  rw [Promises.step]
  split_ifs
  · rw [lookups_performThen]
    exact hl
  · exact hl

theorem Registered.invokeThen {k p : ℕ}
    (hm : Registered objects kind inputs context result address k m) (hp : inputs[k]? = some p) :
    Registered objects kind inputs context result address (k + 1)
      (performHandler objects (onFulfilled kind) (onRejected kind) k p m) := by
  have hlt : context < m.history.vm.contexts.length := (List.getElem?_eq_some_iff.mp hm.contexts).1
  have hk : k < inputs.length := (List.getElem?_eq_some_iff.mp hp).1
  have hpm := hm.inputs_lt p (List.mem_of_getElem? hp)
  set capability := m.history.vm.contexts.length with hcapability
  set h₁ := next objects.toValues m.history .construct with hh₁
  set e : Event V (Fn S) := .performThen p (some (onFulfilled kind context k))
    (some (onRejected kind context k)) (some ⟨.resolve capability, .reject capability⟩) with he
  have hhandler : performHandler objects (onFulfilled kind) (onRejected kind) k p m =
      { history := next objects.toValues h₁ e
        call := some ⟨context, List.replicate (k + 1) (some objects.undefined), k + 2,
          (List.range (k + 1)).map (⟨false, ·⟩)⟩ } := by
    rw [performHandler, hm.call]
    dsimp only
    rw [njsPromiseInvokeThen_eq hm.sound.lookups]
    have hvalues : njsValuePropertyI64Set (List.replicate k (some objects.undefined)) k
        objects.undefined = List.replicate (k + 1) (some objects.undefined) := by
      simp [njsValuePropertyI64Set, List.replicate_succ']
    have hcontexts : (List.range k).map (AllContext.mk false) ++ [⟨false, k⟩] =
        (List.range (k + 1)).map (AllContext.mk false) := by
      rw [List.range_succ, List.map_append]
      rfl
    rw [hvalues, hcontexts, List.length_map, List.length_range]
  rw [hhandler]
  have hp₁ : p < h₁.vm.promises := Nat.lt_succ_of_lt hpm
  -- The two operations, as the rule for one operation sees them.
  have hsound₁ : Sound objects (Fits kind context address inputs.length) (Func.Outside context)
      h₁ := by
    have hsound := hm.sound.perform (e := .construct) (fun r hr => hr.capability)
      ⟨by simp, fun r hr => absurd hr List.not_mem_nil, by simp⟩
    rwa [perform_of_lookups (e := .construct) hm.sound.lookups] at hsound
  have hstep : Promises.step objects.toValues h₁.vm e =
      njsPromisePerformThen objects.toValues p (some (onFulfilled kind context k))
        (some (onRejected kind context k)) (some ⟨.resolve capability, .reject capability⟩)
        h₁.vm := if_pos hp₁
  have hlookups : (Promises.step objects.toValues h₁.vm e).lookups = [] := by
    rw [hstep, lookups_performThen]
    exact hsound₁.lookups
  have haddress : h₁.vm.reactions = address + k := hm.reactions
  have hreactions : (next objects.toValues h₁ e).vm.reactions = address + k + 1 := by
    rw [← haddress]
    exact (congrArg State.reactions hstep).trans (reactions_performThen ..)
  have hcontexts₁ : h₁.vm.contexts[context]? = some ⟨result, false⟩ :=
    (List.getElem?_append_left hlt).trans hm.contexts
  have hlt₁ : context < h₁.vm.contexts.length := (List.getElem?_eq_some_iff.mp hcontexts₁).1
  have hsound₂ : Sound objects (Fits kind context address inputs.length) (Func.Outside context)
      (next objects.toValues h₁ e) := by
    have hsound := Sound.perform (m := ⟨h₁, none⟩) (e := e) hsound₁ (fun r hr => hr.capability)
      ⟨by simp [he], fun r hr => ?_, by simp [he]⟩
    · rwa [perform_of_lookups hlookups] at hsound
    have hcap : ∀ c ∈ some (⟨.resolve capability, .reject capability⟩ : Capability (Fn S)),
        c.Holds (Func.Outside context) := by
      intro c hc
      obtain rfl := Option.some.inj hc
      exact ⟨hlt.ne', hlt.ne'⟩
    have hsub : address + k - address = k := by omega
    have hown : address ≤ address + k ∧ address + k < address + inputs.length := by omega
    rw [he, Event.created, if_pos hp₁, haddress] at hr
    rcases List.mem_cons.mp hr with rfl | hr
    · exact ⟨hcap, fun _ _ => by rw [hsub]; rfl, fun hno => absurd hown hno⟩
    · obtain rfl := List.mem_singleton.mp hr
      exact ⟨hcap, fun _ _ => by rw [hsub]; rfl, fun hno => absurd hown hno⟩
  have hregistered : (next objects.toValues h₁ e).registered =
      m.history.registered ++ [] ++ [(p, address + k)] := by
    rw [next, registers, if_pos hp₁, haddress]
    rfl
  refine ⟨hsound₂, ?_, hreactions, fun q hq => ?_, fun i hi q hq => ?_, ?_, rfl⟩
  · have hkept := @contexts_step _ _ _ _ _ objects.toValues hsound₁.holds _ hlt₁
      (fun r hr => hr.capability) Func.Outside.unrelated e trivial
    exact hkept.trans hcontexts₁
  · have hgrows : Grows m.history (next objects.toValues h₁ e) :=
      (grows_next hm.sound.valid ..).trans (grows_next hsound₁.valid ..)
    exact (hm.inputs_lt q hq).trans_le hgrows.promises
  · rw [hregistered, List.append_nil]
    rcases Nat.lt_succ_iff_lt_or_eq.mp hi with hi | rfl
    · exact List.mem_append_left _ (hm.registered i hi q hq)
    · obtain rfl := Option.some.inj (hp.symm.trans hq)
      exact List.mem_append_right _ List.mem_cons_self
  · have hexecuted : (next objects.toValues h₁ e).executed = m.history.executed ++ [] ++ [] := rfl
    rw [Machine.ran, hexecuted, List.append_nil, List.append_nil]
    exact hm.ran

theorem Registered.iterate {k : ℕ} (hk : k ≤ inputs.length) {rest : List ℕ}
    (hrest : inputs.drop k = rest)
    (hm : Registered objects kind inputs context result address k m) :
    Registered objects kind inputs context result address inputs.length
      (njsObjectIterate (handler objects kind) k rest m) := by
  induction rest generalizing k m with
  | nil =>
    obtain rfl : k = inputs.length := hk.antisymm (List.drop_eq_nil_iff.mp hrest)
    exact hm
  | cons p rest ih =>
    have hp : inputs[k]? = some p := by
      have := congrArg List.head? hrest
      rwa [List.head?_drop] at this
    rw [njsObjectIterate, handler_eq]
    rw [handler_eq] at ih
    refine ih (List.getElem?_eq_some_iff.mp hp).1 ?_ (hm.invokeThen hp)
    rw [← List.tail_drop, hrest, List.tail_cons]

theorem Before.registered {m₀ : Machine V S} (hm : Before objects m₀) (kind : Kind)
    {inputs : List ℕ} (hinputs : ∀ p ∈ inputs, p < m₀.history.vm.promises) :
    Registered objects kind inputs m₀.history.vm.contexts.length m₀.history.vm.promises
      m₀.history.vm.reactions 0
      { Machine.perform objects .construct m₀ with
        call := some ⟨m₀.history.vm.contexts.length, [], 1, []⟩ } := by
  have hmono : Sound objects
      (Fits kind m₀.history.vm.contexts.length m₀.history.vm.reactions inputs.length)
      (Func.Outside m₀.history.vm.contexts.length) m₀.history :=
    ⟨hm.sound.valid, hm.sound.lookups,
      hm.sound.holds.mono (Known.fits kind inputs.length) (Func.Exists.outside le_rfl),
      hm.sound.plain⟩
  have hsound := hmono.perform (e := .construct) (fun r hr => hr.capability)
    ⟨nofun, fun r hr => absurd hr List.not_mem_nil, nofun⟩
  rw [perform_of_lookups (e := .construct) hm.sound.lookups] at hsound ⊢
  refine ⟨hsound, List.getElem?_concat_length, rfl, fun p hp => Nat.lt_succ_of_lt (hinputs p hp),
    nofun, ?_, rfl⟩
  -- The reactions that were made into jobs are older than the call.
  refine List.filterMap_eq_nil_iff.mpr fun d hd => ?_
  have hdelivered : d ∈ m₀.history.delivered := by
    rw [History.delivered, List.filterMap_append]
    refine List.mem_append_left _ ?_
    rwa [show (next objects.toValues m₀.history .construct).executed = m₀.history.executed ++ []
      from rfl, List.append_nil] at hd
  obtain ⟨q, hq, haddress⟩ := List.mem_map.mp (hm.sound.valid.delivered_mem d hdelivered)
  have := (hm.sound.valid.registered_lt q hq).2
  exact if_neg (by omega)

theorem Registered.linked
    (hm : Registered objects kind inputs context result address inputs.length m) :
    Linked objects kind inputs context address m.history :=
  ⟨hm.sound, (List.getElem?_eq_some_iff.mp hm.contexts).1, hm.reactions.ge, fun i p hp =>
    hm.registered i (List.getElem?_eq_some_iff.mp hp).1 p hp⟩

theorem callAfter_nil (n : ℕ) : callAfter objects kind n context [] =
    ⟨context, List.replicate n (some objects.undefined), n, (List.range n).map (⟨false, ·⟩)⟩ := by
  have hvalues : valuesAfter objects kind n [] = List.replicate n (some objects.undefined) := by
    refine List.eq_replicate_iff.mpr ⟨by simp [valuesAfter], fun v hv => ?_⟩
    obtain ⟨i, -, rfl⟩ := List.mem_map.mp hv
    rfl
  rw [callAfter, hvalues]
  rfl

variable {m₀ : Machine V S}

/-- What the call resolves its promise with when there are no promises. -/
def ofNothing (objects : Objects V S) (kind : Kind) : V :=
  if kind = .any then objects.aggregateError (objects.array []) else objects.array []

theorem plain_ofNothing (objects : Objects V S) (kind : Kind) :
    objects.Plain (ofNothing objects kind) := by
  intro _
  rw [ofNothing]
  split_ifs
  · exact objects.then_aggregateError _
  · exact objects.then_array _

/-- The call has gone through its inputs. -/
structure Entered (objects : Objects V S) (kind : Kind) (inputs : List ℕ)
    (context result address : ℕ) (m : Machine V S) : Prop where
  linked : Linked objects kind inputs context address m.history
  outcome : Outcome context result m.history none
  ran : ran address inputs.length m.history = []
  call : m.call = some (callAfter objects kind inputs.length context [])

theorem njsPromiseAll_cases (hm : Before objects m₀) (kind : Kind)
    (hinputs : ∀ p ∈ inputs, p < m₀.history.vm.promises) :
    ∃ m, Entered objects kind inputs m₀.history.vm.contexts.length m₀.history.vm.promises
        m₀.history.vm.reactions m ∧
      njsPromiseAll objects kind inputs m₀ = if inputs = [] then
          perform objects
            (settle m₀.history.vm.contexts.length (.fulfill, ofNothing objects kind)) m
        else m := by
  have hreg := (hm.registered kind hinputs).iterate (Nat.zero_le _) List.drop_zero
  rw [njsPromiseAll, njsPromisePerformAll]
  generalize njsObjectIterate _ 0 inputs _ = m at hreg ⊢
  refine ⟨{ m with call := some (callAfter objects kind inputs.length
    m₀.history.vm.contexts.length []) }, ⟨hreg.linked, hreg.contexts, hreg.ran, rfl⟩, ?_⟩
  dsimp only
  rw [hreg.call, callAfter_nil]
  cases inputs with
  | nil => rfl
  | cons p inputs => rfl

theorem Entered.ofNothing {m : Machine V S}
    (hm : Entered objects kind inputs context result address m) :
    Linked objects kind inputs context address
        (perform objects (settle context (.fulfill, ofNothing objects kind)) m).history ∧
      Machine.ran address inputs.length
        (perform objects (settle context (.fulfill, Machine.ofNothing objects kind)) m).history =
          [] ∧
      Outcome context result
        (perform objects (settle context (.fulfill, Machine.ofNothing objects kind)) m).history
        (some (.fulfill, Machine.ofNothing objects kind)) := by
  obtain ⟨hlinked, hran⟩ := linked_settle hm.linked (.fulfill, Machine.ofNothing objects kind)
  exact ⟨hlinked, hran.trans hm.ran,
    Outcome.settle (t := .fulfill) hm.outcome hm.linked nofun fun _ =>
      plain_ofNothing objects kind⟩

theorem after_call (hm : Before objects m₀)
    (hinputs : ∀ p ∈ inputs, p < m₀.history.vm.promises) (hkind : ¬(kind = .any ∧ inputs = [])) :
    After objects kind inputs m₀.history.vm.contexts.length m₀.history.vm.promises
      m₀.history.vm.reactions (njsPromiseAll objects kind inputs m₀) := by
  obtain ⟨m, hentered, heq⟩ := njsPromiseAll_cases hm kind hinputs
  rw [heq]
  split_ifs with hempty
  · obtain ⟨hlinked, hran, houtcome⟩ := hentered.ofNothing
    refine ⟨hlinked, ?_, ?_⟩
    · rw [hran]
      exact hentered.call
    have hany : kind ≠ .any := fun hany => hkind ⟨hany, hempty⟩
    have hverdict : verdict objects kind inputs.length ([] : List (Settlement V)) =
        some (.fulfill, ofNothing objects kind) := by
      subst hempty
      rw [verdict, List.find?_nil, final, if_neg hany, ofNothing, if_neg hany]
      rfl
    rw [hran, hverdict]
    exact houtcome
  have hlength : ¬([] : List (Settlement V)).length = inputs.length := by
    rw [List.length_nil]
    exact fun hzero => hempty (List.length_eq_zero_iff.mp hzero.symm)
  refine ⟨hentered.linked, ?_, ?_⟩
  · rw [hentered.ran]
    exact hentered.call
  · rw [hentered.ran, verdict, List.find?_nil, if_neg hlength]
    exact hentered.outcome

/-- `Promise.any` of no promises. -/
theorem any_fulfilled (hm : Before objects m₀) : Valid (njsPromiseAll objects .any [] m₀).history ∧
      ((njsPromiseAll objects .any [] m₀).history.vm.promise m₀.history.vm.promises).Settled
        .fulfill
        (objects.aggregateError (objects.array [])) := by
  obtain ⟨m, hentered, heq⟩ := @njsPromiseAll_cases _ _ _ [] _ hm .any nofun
  rw [heq, if_pos rfl]
  obtain ⟨hlinked, -, houtcome⟩ := hentered.ofNothing
  exact ⟨hlinked.sound.valid, houtcome.2⟩

/-! ### Runs -/

/-- What every step keeps of a state. -/
def Extends (m m' : Machine V S) : Prop := Valid m'.history ∧ Grows m.history m'.history

theorem extends_perform (hm : Valid m.history) (e : Event V (Fn S)) :
    Extends m (perform objects e m) := by
  refine ⟨?_, grows_perform hm e⟩
  change Valid (lookup objects (next objects.toValues m.history e))
  have hnext := hm.effect (effect_next objects.toValues m.history e)
  rcases @lookup_cases _ _ objects (next objects.toValues m.history e) with
    ⟨-, heq⟩ | ⟨p, v, l, -, heq⟩
  · rwa [heq]
  · rw [heq]
    exact hnext.effect (effect_next ..)

theorem Extends.refl (hm : Valid m.history) : Extends m m := ⟨hm, .refl _⟩

theorem Extends.trans {m' m'' : Machine V S} (h : Extends m m')
    (h' : Valid m'.history → Extends m' m'') : Extends m m'' :=
  ⟨(h' h.1).1, h.2.trans (h' h.1).2⟩

theorem extends_elementFunction (hm : Valid m.history) (c : ℕ) (v : V)
    (settle : ℕ → V → Event V (Fn S)) : Extends m (elementFunction objects c v settle m) := by
  rw [elementFunction]
  split
  · exact .refl hm
  split
  · exact .refl hm
  · exact .refl hm
  · dsimp only
    split_ifs
    · exact extends_perform (m := { m with call := _ }) hm _
    · exact ⟨hm, .refl _⟩

theorem extends_invoke (hm : Valid m.history) (f : Func (Fn S)) (v : V) :
    Extends m (invoke objects f v m) := by
  match f with
  | .resolve c | .reject c => exact extends_perform hm _
  | .script (.allResolve c) | .script (.allSettled c _) | .script (.anyReject c) =>
    exact extends_elementFunction hm c _ _
  | .script (.script _) => exact .refl hm

theorem extends_step (hm : Valid m.history) (e : Event V (Fn S)) :
    Extends m (step objects m e) := by
  have hallowed (e : Event V (Fn S)) : Extends m (if allows m e then perform objects e m else m)
    := by
    split_ifs
    · exact extends_perform hm e
    · exact .refl hm
  cases e with
  | runJob =>
    change Extends m (njsVmExecutePendingJob objects m)
    rw [njsVmExecutePendingJob]
    split
    · rename_i f v _
      have hstarted := @extends_perform _ _ objects _ hm .runJob
      have hinvoked := hstarted.trans fun h => @extends_invoke _ _ objects _ h f v
      exact hinvoked.trans fun h => extends_perform h _
    · exact extends_perform hm _
  | construct => exact hallowed .construct
  | resolve c v => exact hallowed (.resolve c v)
  | reject c v => exact hallowed (.reject c v)
  | lookup n r => exact hallowed (.lookup n r)
  | performThen p f g c => exact hallowed (.performThen p f g c)
  | jobReturn r => exact hallowed (.jobReturn r)

theorem extends_run (hm : Valid m.history) (events : List (Event V (Fn S))) :
    Extends m (events.foldl (step objects) m) := by
  induction events generalizing m with
  | nil => exact .refl hm
  | cons e events ih => exact (extends_step hm e).trans fun h => ih h

/-! ### What the promise is settled with -/

theorem mem_ran_of_length (hlinked : Linked objects kind inputs context address m.history)
    (hran : (Machine.ran address inputs.length m.history).length = inputs.length) {i : ℕ}
    (hi : i < inputs.length) :
    ∃ t v, (i, t, v) ∈ Machine.ran address inputs.length m.history := by
  have hsub : (Machine.ran address inputs.length m.history).map Prod.fst ⊆
      List.range inputs.length := by
    intro j hj
    obtain ⟨e, he, rfl⟩ := List.mem_map.mp hj
    exact List.mem_range.mpr (mem_settlements.mp ((ran_initial ..).subset he)).1
  have hnodup : ((Machine.ran address inputs.length m.history).map Prod.fst).Nodup :=
    (settlements_nodup hlinked.sound.valid address inputs.length).sublist
      ((ran_initial ..).sublist.map Prod.fst)
  have hperm := (List.subperm_of_subset hnodup hsub).perm_of_length_le (by simp [hran])
  obtain ⟨e, he, rfl⟩ := List.mem_map.mp (hperm.mem_iff.mpr (List.mem_range.mpr hi))
  exact ⟨_, _, he⟩

theorem valuesAfter_eq (hlinked : Linked objects kind inputs context address m.history)
    (hran : (Machine.ran address inputs.length m.history).length = inputs.length)
    (hall : (Machine.ran address inputs.length m.history).find?
      (fun e => !counts kind e.2.1) = none) :
    valuesAfter objects kind inputs.length (Machine.ran address inputs.length m.history) =
      inputs.map fun p => (m.history.vm.promise p).result.map fun v =>
        stored objects kind (0, (m.history.vm.promise p).state, v) := by
  have hcalled : called kind (Machine.ran address inputs.length m.history) =
      Machine.ran address inputs.length m.history :=
    List.filter_eq_self.mpr fun e he => by simpa using List.find?_eq_none.mp hall e he
  refine List.ext_getElem (by simp [valuesAfter]) fun i hi _ => ?_
  have hin : i < inputs.length := by simpa [valuesAfter] using hi
  obtain ⟨t, v, hmem⟩ := mem_ran_of_length hlinked hran hin
  obtain ⟨e, he⟩ : ∃ e, (Machine.ran address inputs.length m.history).find?
      (fun e => e.1 = i) = some e := by
    refine Option.isSome_iff_exists.mp (List.find?_isSome.mpr ⟨_, hmem, ?_⟩)
    simp
  obtain ⟨j, t', v'⟩ := e
  obtain rfl : j = i := by simpa using List.find?_some he
  obtain ⟨p, hp, hset⟩ := hlinked.mem_settlements.mp
    ((ran_initial ..).subset (List.mem_of_find?_eq_some he))
  obtain ⟨_, rfl⟩ := List.getElem?_eq_some_iff.mp hp
  simp only [valuesAfter, List.getElem_map, List.getElem_range, hcalled, he, Option.elim,
    hset.result, Option.map_some]
  rw [hset.state]
  rfl

theorem expected_eq_verdict (hlinked : Linked objects kind inputs context address m.history) :
    expected objects kind inputs m.history.vm (Machine.ran address inputs.length m.history) =
      verdict objects kind inputs.length (Machine.ran address inputs.length m.history) := by
  have hpending : ∀ e ∈ Machine.ran address inputs.length m.history, e.2.1 ≠ .pending := by
    intro e he
    obtain ⟨p, -, hset⟩ := hlinked.mem_settlements.mp ((ran_initial ..).subset he)
    exact hset.ne_pending
  have hvalues := valuesAfter_eq hlinked
  revert hvalues hpending
  generalize Machine.ran address inputs.length m.history = l
  intro hpending hvalues
  cases kind with
  | all =>
    have hfind : (l.find? fun e => e.2.1 = .rejected) = l.find? fun e => !counts .all e.2.1 := by
      refine List.find?_congr fun e _ => ?_
      cases e.2.1 <;> rfl
    rw [expected, verdict, hfind]
    cases hl : l.find? fun e => !counts .all e.2.1 with
    | some e =>
      obtain ⟨i, t, v⟩ := e
      have ht : t = .rejected := by simpa using List.find?_some (hfind.trans hl)
      rw [ht]
    | none =>
      dsimp only
      split_ifs with hlen
      · rw [hvalues hlen hl]
        simp [final, stored]
      · rfl
  | allSettled =>
    have hl : (l.find? fun e => !counts .allSettled e.2.1) = none := by
      refine List.find?_eq_none.mpr fun e _ => ?_
      cases e.2.1 <;> simp [counts]
    rw [expected, verdict, hl]
    dsimp only
    split_ifs with hlen
    · rw [hvalues hlen hl]
      simp [final, stored]
    · rfl
  | any =>
    have hfind : (l.find? fun e => e.2.1 = .fulfill) = l.find? fun e => !counts .any e.2.1 := by
      refine List.find?_congr fun e he => ?_
      have hne := hpending e he
      revert hne
      cases e.2.1 with
      | pending => exact fun hne => absurd rfl hne
      | fulfill | rejected => exact fun _ => rfl
    rw [expected, verdict, hfind]
    cases hl : l.find? fun e => !counts .any e.2.1 with
    | some e =>
      obtain ⟨i, t, v⟩ := e
      have ht : t = .fulfill := by simpa using List.find?_some (hfind.trans hl)
      rw [ht]
    | none =>
      dsimp only
      split_ifs with hlen
      · rw [hvalues hlen hl]
        simp [final, stored]
      · rfl

/-! ### The claims of the language -/

theorem After.meets
    (hm : After objects kind inputs context m₀.history.vm.promises m₀.history.vm.reactions m) :
    Meets objects kind inputs m₀ m where
  mem_settlements i t v := hm.linked.mem_settlements
  nodup := settlements_nodup hm.linked.sound.valid ..
  order events := (extends_run hm.linked.sound.valid events).2.delivered.filterMap _
  ran := ran_initial ..
  ran_all hjobs := by
    rw [Machine.ran, settlements, History.delivered, hjobs, List.append_nil]
  outcome := by
    rw [expected_eq_verdict hm.linked]
    exact hm.outcome.is hm.linked.sound.valid
  once t v hset events :=
    (extends_run hm.linked.sound.valid events).2.settled _ t v hset

/-- What the language asks of `Promise.any` of no promises. -/
theorem Meets.any_rejected (hm : Meets objects .any [] m₀ m) :
    (m.history.vm.promise m₀.history.vm.promises).Settled .rejected
      (objects.aggregateError (objects.array [])) := by
  have hran : Machine.ran m₀.history.vm.reactions 0 m.history = [] := by
    refine List.eq_nil_iff_forall_not_mem.mpr fun e he => ?_
    obtain ⟨hlt, -⟩ := Machine.mem_settlements.mp (hm.ran.subset he)
    exact Nat.not_lt_zero _ hlt
  have houtcome := hm.outcome
  rw [List.length_nil, hran] at houtcome
  exact houtcome

end Call

/-- In every state after a call of a combinator on promises, the promise of the call is settled as
the language asks, just if the call is not one of `Promise.any` on no promises. -/
theorem combinator_iff (objects : Objects V S) (kind : Kind) (inputs : List ℕ)
    (before after : List (Event V (Fn S)))
    (hinputs : ∀ p ∈ inputs, p < (before.foldl (step objects) empty).history.vm.promises) :
    Meets objects kind inputs (before.foldl (step objects) empty) (after.foldl (step objects)
          (njsPromiseAll objects kind inputs (before.foldl (step objects) empty))) ↔
      ¬(kind = .any ∧ inputs = []) := by
  have hbefore := @before_run _ _ objects before
  constructor
  · rintro hmeets ⟨rfl, rfl⟩
    obtain ⟨hvalid, hfulfilled⟩ := any_fulfilled hbefore
    have hset := (@extends_run _ _ objects _ hvalid after).2.settled _ _ _ hfulfilled
    exact absurd (hset.state.symm.trans hmeets.any_rejected.state) nofun
  · intro hkind
    have hcall := after_call hbefore hinputs hkind
    exact (Runs.foldl_inv (fun _ e hm => hm.step e) hcall after).meets

/-- Values of which only promises have a method `then`. -/
inductive Datum
  | undefined
  | selfResolution
  | promise (p : ℕ)
  | array (l : List (Option Datum))
  | record (rejected : Bool) (v : Datum)
  | aggregateError (v : Datum)

/-- These values, with one function of the script. -/
def datumObjects : Objects Datum Unit where
  undefined := .undefined
  promise
    | .promise p => some p
    | _ => none
  isObject
    | .undefined => false
    | _ => true
  selfResolution := .selfResolution
  thenOf
    | .promise _ => .function (.script (.script ()))
    | _ => .notFunction
  array := .array
  record := .record
  aggregateError := .aggregateError
  then_promise v p h := by
    cases v with
    | promise q => exact ⟨rfl, _, rfl⟩
    | _ => cases h
  then_array _ := rfl
  then_aggregateError _ := rfl

theorem combinator_iff_one :
    (∀ p ∈ [0], p < ([Event.construct].foldl (step datumObjects) empty).history.vm.promises) ∧
      Meets datumObjects .all [0] ([Event.construct].foldl (step datumObjects) empty)
        ([Event.resolve 0 Datum.undefined, .runJob].foldl (step datumObjects)
          (njsPromiseAll datumObjects .all [0]
            ([Event.construct].foldl (step datumObjects) empty))) := by
  have hinputs : ∀ p ∈ [0],
      p < ([Event.construct].foldl (step datumObjects) empty).history.vm.promises := by
    intro p hp
    obtain rfl := List.mem_singleton.mp hp
    exact Nat.zero_lt_one
  exact ⟨hinputs, (combinator_iff datumObjects .all [0] [.construct]
    [.resolve 0 .undefined, .runJob] hinputs).mpr fun h => nomatch h.1⟩

/-- `Promise.any([])` is fulfilled, with the error. -/
theorem any_of_nothing : ¬Meets datumObjects .any [] empty (njsPromiseAll datumObjects .any []
    empty) := by
  intro hmeets
  have hstate : ((njsPromiseAll datumObjects .any [] empty).history.vm.promise 0).state = .fulfill
    :=
    rfl
  exact absurd (hstate.symm.trans hmeets.any_rejected.state) nofun

end Njs.Promises.Machine
