import Mathlib.Data.List.Nodup
import Mathlib.Order.Nat
import Njs.Promises.History

/-!
# What every run of promise operations keeps
-/

namespace Njs.Promises

variable {V S : Type}

/-! ### The invariant -/

/-- The reactions of a promise in the order in which they were registered. -/
def History.addresses (h : History V S) (p : ℕ) : List ℕ :=
  (h.registered.filter fun q => q.1 = p).map Prod.snd

/-- The reactions of a promise that were made into jobs, in the order of the jobs. -/
def History.deliveredFor (h : History V S) (p : ℕ) : List (ℕ × PromiseType × V) :=
  h.delivered.filter fun d => (p, d.1) ∈ h.registered

/-- A promise that is not settled can be settled by one thing at most, and keeps its reactions; the
reactions of one that is settled were made into jobs. -/
structure Valid (h : History V S) : Prop where
  nodup : h.vm.live.Nodup
  pending : ∀ p ∈ h.vm.live, (h.vm.promise p).state = .pending
  live_lt : ∀ p ∈ h.vm.live, p < h.vm.promises
  fresh : ∀ p ≥ h.vm.promises, (h.vm.promise p).state = .pending
  registered_lt : ∀ q ∈ h.registered, q.1 < h.vm.promises ∧ q.2 < h.vm.reactions
  addresses_nodup : (h.registered.map Prod.snd).Nodup
  delivered_mem : ∀ d ∈ h.delivered, d.1 ∈ h.registered.map Prod.snd
  result : ∀ p, (h.vm.promise p).state ≠ .pending → ∃ v, (h.vm.promise p).result = some v
  undelivered : ∀ p, (h.vm.promise p).state = .pending → h.deliveredFor p = []
  queued : ∀ p, (h.vm.promise p).state = .pending → ∀ t ≠ .pending,
    ((h.vm.promise p).queue t).map (fun r => (r.address, r.type)) = (h.addresses p).map (·, t)
  delivered : ∀ p t v, (h.vm.promise p).Settled t v →
    h.deliveredFor p = (h.addresses p).map (·, t, v)

theorem valid_empty : Valid (.empty : History V S) where
  nodup := List.nodup_nil
  pending := by simp [State.live, History.empty, State.empty]
  live_lt := by simp [State.live, History.empty, State.empty]
  fresh _ _ := rfl
  registered_lt := by simp [History.empty]
  addresses_nodup := List.nodup_nil
  delivered_mem := by simp [History.delivered, History.empty, State.empty]
  result _ h := absurd rfl h
  undelivered _ _ := rfl
  queued _ _ t _ := by cases t <;> rfl
  delivered _ _ _ h := absurd h.state.symm h.ne_pending

section Steps

variable {h h' : History V S}

variable {p : ℕ}

theorem Valid.eq_of_mem (hv : Valid h) {q a : ℕ} (hp : (p, a) ∈ h.registered)
    (hq : (q, a) ∈ h.registered) : p = q :=
  congrArg Prod.fst (List.inj_on_of_nodup_map hv.addresses_nodup hp hq rfl)

theorem mem_addresses {a : ℕ} : a ∈ h.addresses p ↔ (p, a) ∈ h.registered := by
  simp [History.addresses]

theorem Valid.addresses_ge (hv : Valid h) (hp : h.vm.promises ≤ p) : h.addresses p = [] := by
  refine List.eq_nil_iff_forall_not_mem.mpr fun a ha => ?_
  have := (hv.registered_lt _ (mem_addresses.mp ha)).1
  omega

theorem Valid.quiet (hv : Valid h) (hpromise : h'.vm.promise = h.vm.promise)
    (hpromises : h'.vm.promises = h.vm.promises) (hlive : h.vm.live.Perm h'.vm.live)
    (hdelivered : h'.delivered = h.delivered) (hregistered : h'.registered = h.registered)
    (hreactions : h'.vm.reactions = h.vm.reactions) : Valid h' := by
  have haddresses : h'.addresses = h.addresses := by
    funext p
    rw [History.addresses, History.addresses, hregistered]
  have hfor : h'.deliveredFor = h.deliveredFor := by
    funext p
    rw [History.deliveredFor, History.deliveredFor, hdelivered, hregistered]
  constructor
  · exact hlive.nodup_iff.mp hv.nodup
  · intro p hp
    rw [hpromise]
    exact hv.pending p (hlive.mem_iff.mpr hp)
  · intro p hp
    rw [hpromises]
    exact hv.live_lt p (hlive.mem_iff.mpr hp)
  · rw [hpromise, hpromises]
    exact hv.fresh
  · rw [hregistered, hpromises, hreactions]
    exact hv.registered_lt
  · rw [hregistered]
    exact hv.addresses_nodup
  · rw [hdelivered, hregistered]
    exact hv.delivered_mem
  · rw [hpromise]
    exact hv.result
  · rw [hpromise, hfor]
    exact hv.undelivered
  · rw [hpromise, haddresses]
    exact hv.queued
  · rw [hpromise, haddresses, hfor]
    exact hv.delivered

theorem Valid.made (hv : Valid h) (hpromise : h'.vm.promise =
      Function.update h.vm.promise h.vm.promises ⟨.pending, none, [], [], false⟩)
    (hpromises : h'.vm.promises = h.vm.promises + 1)
    (hlive : (h.vm.promises :: h.vm.live).Perm h'.vm.live)
    (hdelivered : h'.delivered = h.delivered) (hregistered : h'.registered = h.registered)
    (hreactions : h'.vm.reactions = h.vm.reactions) : Valid h' := by
  have haddresses : h'.addresses = h.addresses := by
    funext p
    rw [History.addresses, History.addresses, hregistered]
  have hfor : h'.deliveredFor = h.deliveredFor := by
    funext p
    rw [History.deliveredFor, History.deliveredFor, hdelivered, hregistered]
  have hnew : h'.vm.promise h.vm.promises = ⟨.pending, none, [], [], false⟩ := by
    rw [hpromise, Function.update_self]
  have hold {p : ℕ} (hp : p ≠ h.vm.promises) : h'.vm.promise p = h.vm.promise p := by
    rw [hpromise, Function.update_of_ne hp]
  constructor
  · refine hlive.nodup_iff.mp (List.nodup_cons.mpr ⟨fun hmem => ?_, hv.nodup⟩)
    exact lt_irrefl _ (hv.live_lt _ hmem)
  · intro p hp
    rcases List.mem_cons.mp (hlive.mem_iff.mpr hp) with rfl | hp
    · rw [hnew]
    · rw [hold (hv.live_lt p hp).ne]
      exact hv.pending p hp
  · intro p hp
    rw [hpromises]
    rcases List.mem_cons.mp (hlive.mem_iff.mpr hp) with rfl | hp
    · omega
    · have := hv.live_lt p hp
      omega
  · intro p hp
    rw [hpromises] at hp
    rw [hold (by omega)]
    exact hv.fresh p (by omega)
  · intro q hq
    rw [hregistered] at hq
    rw [hpromises, hreactions]
    have := hv.registered_lt q hq
    omega
  · rw [hregistered]
    exact hv.addresses_nodup
  · rw [hdelivered, hregistered]
    exact hv.delivered_mem
  · intro p hp
    by_cases hne : p = h.vm.promises
    · subst hne
      rw [hnew] at hp
      exact absurd rfl hp
    · rw [hold hne] at hp ⊢
      exact hv.result p hp
  · intro p hp
    rw [hfor]
    by_cases hne : p = h.vm.promises
    · subst hne
      exact hv.undelivered _ (hv.fresh _ le_rfl)
    · rw [hold hne] at hp
      exact hv.undelivered p hp
  · intro p hp t ht
    rw [haddresses]
    by_cases hne : p = h.vm.promises
    · subst hne
      rw [hnew, hv.addresses_ge le_rfl]
      cases t <;> rfl
    · rw [hold hne] at hp ⊢
      exact hv.queued p hp t ht
  · intro p t v hp
    rw [haddresses, hfor]
    by_cases hne : p = h.vm.promises
    · subst hne
      rw [hnew] at hp
      exact absurd hp.state.symm hp.ne_pending
    · rw [hold hne] at hp
      exact hv.delivered p t v hp

theorem Valid.settled (hv : Valid h) {t : PromiseType} {v : V} {data : Promise V S}
    (hpromise : h'.vm.promise = Function.update h.vm.promise p data) (hdata : data.Settled t v)
    (hpromises : h'.vm.promises = h.vm.promises) (hlive : h.vm.live.Perm (p :: h'.vm.live))
    (hdelivered : h'.delivered = h.delivered ++ ((h.vm.promise p).queue t).map fun r => (r.address,
      r.type, v))
    (hregistered : h'.registered = h.registered) (hreactions : h'.vm.reactions = h.vm.reactions) :
    Valid h' := by
  have hp : p ∈ h.vm.live := hlive.mem_iff.mpr List.mem_cons_self
  have hpending := hv.pending p hp
  obtain ⟨hnot, hnodup⟩ := List.nodup_cons.mp (hlive.nodup_iff.mp hv.nodup)
  have hself : h'.vm.promise p = data := by rw [hpromise, Function.update_self]
  have hold {q : ℕ} (hq : q ≠ p) : h'.vm.promise q = h.vm.promise q := by
    rw [hpromise, Function.update_of_ne hq]
  have haddresses : h'.addresses = h.addresses := by
    funext q
    rw [History.addresses, History.addresses, hregistered]
  -- The jobs are those of the reactions of the promise.
  have hqueue : (((h.vm.promise p).queue t).map fun r => (r.address, r.type, v)) =
      (h.addresses p).map (·, t, v) := by
    have := congrArg (List.map fun a : ℕ × PromiseType => (a.1, a.2, v))
      (hv.queued p hpending t hdata.ne_pending)
    rwa [List.map_map, List.map_map] at this
  rw [hqueue] at hdelivered
  have hfor (q : ℕ) : h'.deliveredFor q = h.deliveredFor q ++ ((h.addresses p).map (·, t, v)).filter
        fun d => (q, d.1) ∈ h.registered := by
    rw [History.deliveredFor, hdelivered, hregistered, List.filter_append]
    rfl
  have hforself : h'.deliveredFor p = (h.addresses p).map (·, t, v) := by
    rw [hfor, hv.undelivered p hpending, List.nil_append, List.filter_eq_self]
    intro d hd
    obtain ⟨a, ha, rfl⟩ := List.mem_map.mp hd
    exact decide_eq_true (mem_addresses.mp ha)
  have hforold {q : ℕ} (hq : q ≠ p) : h'.deliveredFor q = h.deliveredFor q := by
    rw [hfor, List.filter_eq_nil_iff.mpr, List.append_nil]
    intro d hd
    obtain ⟨a, ha, rfl⟩ := List.mem_map.mp hd
    simp only [decide_eq_true_eq]
    exact fun hqa => hq (hv.eq_of_mem hqa (mem_addresses.mp ha))
  constructor
  · exact hnodup
  · intro q hq
    rw [hold fun hqp => hnot (hqp ▸ hq)]
    exact hv.pending q (hlive.mem_iff.mpr (List.mem_cons_of_mem p hq))
  · intro q hq
    rw [hpromises]
    exact hv.live_lt q (hlive.mem_iff.mpr (List.mem_cons_of_mem p hq))
  · intro q hq
    have := hv.live_lt p hp
    rw [hpromises] at hq
    rw [hold (by omega)]
    exact hv.fresh q hq
  · rw [hregistered, hpromises, hreactions]
    exact hv.registered_lt
  · rw [hregistered]
    exact hv.addresses_nodup
  · intro d hd
    rw [hregistered]
    rw [hdelivered, List.mem_append] at hd
    rcases hd with hd | hd
    · exact hv.delivered_mem d hd
    · obtain ⟨a, ha, rfl⟩ := List.mem_map.mp hd
      exact List.mem_map.mpr ⟨_, mem_addresses.mp ha, rfl⟩
  · intro q hq
    by_cases hqp : q = p
    · subst hqp
      rw [hself]
      exact ⟨v, hdata.result⟩
    · rw [hold hqp] at hq ⊢
      exact hv.result q hq
  · intro q hq
    by_cases hqp : q = p
    · subst hqp
      rw [hself, hdata.state] at hq
      exact absurd hq hdata.ne_pending
    · rw [hold hqp] at hq
      rw [hforold hqp]
      exact hv.undelivered q hq
  · intro q hq t' ht'
    rw [haddresses]
    by_cases hqp : q = p
    · subst hqp
      rw [hself, hdata.state] at hq
      exact absurd hq hdata.ne_pending
    · rw [hold hqp] at hq ⊢
      exact hv.queued q hq t' ht'
  · intro q t' v' hq
    rw [haddresses]
    by_cases hqp : q = p
    · subst hqp
      rw [hself] at hq
      obtain rfl := hdata.state.symm.trans hq.state
      obtain rfl := Option.some.inj (hdata.result.symm.trans hq.result)
      exact hforself
    · rw [hold hqp] at hq
      rw [hforold hqp]
      exact hv.delivered q t' v' hq

theorem Valid.registered (hv : Valid h) {data : Promise V S} (hp : p < h.vm.promises)
    (hpromise : h'.vm.promise = Function.update h.vm.promise p data)
    (hpromises : h'.vm.promises = h.vm.promises) (hlive : h.vm.live.Perm h'.vm.live)
    (hregistered : h'.registered = h.registered ++ [(p, h.vm.reactions)])
    (hreactions : h'.vm.reactions = h.vm.reactions + 1)
    (hstate : data.state = (h.vm.promise p).state)
    (hresult : data.result = (h.vm.promise p).result)
    (hpending : data.state = .pending → h'.delivered = h.delivered ∧ ∀ t ≠ .pending, ∃ r :
      Reaction S, r.address = h.vm.reactions ∧ r.type = t ∧ data.queue t = (h.vm.promise p).queue t
        ++ [r])
    (hnotPending : ∀ v, data.Settled data.state v → h'.delivered = h.delivered ++ [(h.vm.reactions,
      data.state, v)]) :
    Valid h' := by
  have hself : h'.vm.promise p = data := by rw [hpromise, Function.update_self]
  have hold {q : ℕ} (hq : q ≠ p) : h'.vm.promise q = h.vm.promise q := by
    rw [hpromise, Function.update_of_ne hq]
  have hstates (q : ℕ) : (h'.vm.promise q).state = (h.vm.promise q).state := by
    by_cases hq : q = p
    · rw [hq, hself, hstate]
    · rw [hold hq]
  have haddressself : h'.addresses p = h.addresses p ++ [h.vm.reactions] := by
    simp [History.addresses, hregistered]
  have haddressold {q : ℕ} (hq : q ≠ p) : h'.addresses q = h.addresses q := by
    simp [History.addresses, hregistered, hq.symm]
  have hnew (q : ℕ) : (q, h.vm.reactions) ∉ h.registered := fun hmem =>
    lt_irrefl _ (hv.registered_lt _ hmem).2
  -- The address is not one of an earlier job.
  have hfilter (q : ℕ) :
      (h.delivered.filter fun d => (q, d.1) ∈ h'.registered) = h.deliveredFor q := by
    refine List.filter_congr fun d hd => ?_
    obtain ⟨⟨q', a⟩, hqa, ha⟩ := List.mem_map.mp (hv.delivered_mem d hd)
    have hne : d.1 ≠ h.vm.reactions := fun heq => hnew q' (heq ▸ ha ▸ hqa)
    simp [hregistered, hne]
  -- What was delivered: nothing, or the reaction itself.
  have hdelivered : (data.state = .pending ∧ h'.delivered = h.delivered) ∨
      ∃ v, data.Settled data.state v ∧
        h'.delivered = h.delivered ++ [(h.vm.reactions, data.state, v)] := by
    by_cases hs : data.state = .pending
    · exact .inl ⟨hs, (hpending hs).1⟩
    · obtain ⟨v, hresultv⟩ := hv.result p (hstate ▸ hs)
      have hset : data.Settled data.state v := ⟨rfl, hs, hresult.trans hresultv⟩
      exact .inr ⟨v, hset, hnotPending v hset⟩
  have hforold {q : ℕ} (hq : q ≠ p) : h'.deliveredFor q = h.deliveredFor q := by
    rw [History.deliveredFor]
    rcases hdelivered with ⟨-, heq⟩ | ⟨v, -, heq⟩
    · rw [heq, hfilter]
    · rw [heq, List.filter_append, hfilter, List.filter_cons_of_neg, List.filter_nil,
        List.append_nil]
      simp [hregistered, hnew, hq]
  constructor
  · exact hlive.nodup_iff.mp hv.nodup
  · intro q hq
    rw [hstates]
    exact hv.pending q (hlive.mem_iff.mpr hq)
  · intro q hq
    rw [hpromises]
    exact hv.live_lt q (hlive.mem_iff.mpr hq)
  · intro q hq
    rw [hstates]
    exact hv.fresh q (hpromises ▸ hq)
  · intro q hq
    rw [hregistered, List.mem_append, List.mem_singleton] at hq
    rw [hpromises, hreactions]
    rcases hq with hq | rfl
    · have := hv.registered_lt q hq
      omega
    · exact ⟨hp, by omega⟩
  · rw [hregistered, List.map_append, List.nodup_append]
    refine ⟨hv.addresses_nodup, List.nodup_singleton _, fun a ha b hb => ?_⟩
    obtain ⟨⟨q, a⟩, hqa, rfl⟩ := List.mem_map.mp ha
    obtain rfl := List.mem_singleton.mp hb
    exact (hv.registered_lt _ hqa).2.ne
  · intro d hd
    rw [hregistered, List.map_append, List.mem_append]
    rcases hdelivered with ⟨-, heq⟩ | ⟨v, -, heq⟩
    · rw [heq] at hd
      exact .inl (hv.delivered_mem d hd)
    · rw [heq, List.mem_append, List.mem_singleton] at hd
      rcases hd with hd | rfl
      · exact .inl (hv.delivered_mem d hd)
      · exact .inr List.mem_cons_self
  · intro q hq
    rw [hstates] at hq
    by_cases hqp : q = p
    · rw [hqp, hself, hresult]
      exact hv.result p (hqp ▸ hq)
    · rw [hold hqp]
      exact hv.result q hq
  · intro q hq
    rw [hstates] at hq
    by_cases hqp : q = p
    · subst hqp
      rw [History.deliveredFor, (hpending (hstate.trans hq)).1, hfilter]
      exact hv.undelivered q hq
    · rw [hforold hqp]
      exact hv.undelivered q hq
  · intro q hq t ht
    rw [hstates] at hq
    by_cases hqp : q = p
    · subst hqp
      obtain ⟨r, haddress, htype, hqueue⟩ := (hpending (hstate.trans hq)).2 t ht
      rw [hself, hqueue, haddressself, List.map_append, List.map_append, hv.queued q hq t ht,
        List.map_singleton, List.map_singleton, haddress, htype]
    · rw [hold hqp, haddressold hqp]
      exact hv.queued q hq t ht
  · intro q t v hq
    by_cases hqp : q = p
    · subst hqp
      rw [hself] at hq
      obtain rfl := hq.state
      have hqset : (h.vm.promise q).Settled data.state v :=
        ⟨hstate.symm, hq.ne_pending, hresult.symm.trans hq.result⟩
      rw [History.deliveredFor, hnotPending v hq, List.filter_append, hfilter,
        hv.delivered q _ v hqset, haddressself, List.map_append, List.filter_cons_of_pos,
        List.filter_nil, List.map_singleton]
      simp [hregistered]
    · rw [hold hqp] at hq
      rw [hforold hqp, haddressold hqp]
      exact hv.delivered q t v hq

theorem Valid.effect (hv : Valid h) (he : Effect h h') : Valid h' := by
  cases he with
  | quiet promise promises live delivered registered reactions =>
    exact hv.quiet promise promises live delivered registered reactions
  | made promise promises live delivered registered reactions =>
    exact hv.made promise promises live delivered registered reactions
  | settled p t v data promise data_settled promises live delivered registered reactions =>
    exact hv.settled promise data_settled promises live delivered registered reactions
  | registered p data hp promise promises live registered reactions state result pending
      notPending =>
    exact hv.registered hp promise promises live registered reactions state result pending
      notPending

theorem Valid.settled_effect (hv : Valid h) (he : Effect h h') {t : PromiseType} {v : V}
    (hp : (h.vm.promise p).Settled t v) : (h'.vm.promise p).Settled t v := by
  cases he with
  | quiet promise =>
    rwa [promise]
  | made promise =>
    rw [promise, Function.update_of_ne]
    · exact hp
    · rintro rfl
      exact hp.ne_pending (hp.state.symm.trans (hv.fresh _ le_rfl))
  | settled q t' v' data promise data_settled promises live =>
    rw [promise, Function.update_of_ne]
    · exact hp
    · rintro rfl
      have hlive := hv.pending p (live.mem_iff.mpr List.mem_cons_self)
      exact hp.ne_pending (hp.state.symm.trans hlive)
  | registered q data hq promise promises live registered reactions state result =>
    rw [promise, Function.update_apply]
    split_ifs with hpq
    · subst hpq
      exact ⟨state.trans hp.state, hp.ne_pending, result.trans hp.result⟩
    · exact hp

end Steps

/-! ### Runs -/

variable (values : Values V)

theorem valid_run (events : List (Event V S)) : Valid (events.foldl (next values) .empty) :=
  Runs.foldl_inv (fun h e hv => hv.effect (effect_next values h e)) valid_empty events

theorem settled_run {h : History V S} (hv : Valid h) {p : ℕ} {t : PromiseType} {v : V}
    (hp : (h.vm.promise p).Settled t v) (events : List (Event V S)) :
    ((events.foldl (next values) h).vm.promise p).Settled t v := by
  induction events generalizing h with
  | nil => exact hp
  | cons e events ih =>
    have he := effect_next values h e
    exact ih (hv.effect he) (hv.settled_effect he hp)

/-! ### Deliveries and resolving functions -/

theorem Valid.mem_delivered {h : History V S} (hv : Valid h) {p a : ℕ} (ha : (p, a) ∈ h.registered)
    {t : PromiseType} {v : V} : (a, t, v) ∈ h.delivered ↔ (h.vm.promise p).Settled t v := by
  have hfor : (a, t, v) ∈ h.delivered ↔ (a, t, v) ∈ h.deliveredFor p := by
    rw [History.deliveredFor, List.mem_filter]
    exact (and_iff_left (decide_eq_true ha)).symm
  rw [hfor]
  by_cases hp : (h.vm.promise p).state = .pending
  · rw [hv.undelivered p hp]
    exact iff_of_false List.not_mem_nil fun hset => hset.ne_pending (hset.state.symm.trans hp)
  obtain ⟨w, hw⟩ := hv.result p hp
  have hset : (h.vm.promise p).Settled (h.vm.promise p).state w := ⟨rfl, hp, hw⟩
  rw [hv.delivered p _ w hset]
  constructor
  · intro hmem
    obtain ⟨b, -, heq⟩ := List.mem_map.mp hmem
    obtain ⟨-, rfl, rfl⟩ : b = a ∧ (h.vm.promise p).state = t ∧ w = v := by simpa using heq
    exact hset
  · intro hset'
    obtain rfl := Option.some.inj (hw.symm.trans hset'.result)
    exact List.mem_map.mpr ⟨a, mem_addresses.mpr ha, by rw [hset'.state]⟩

theorem Valid.delivered_nodup {h : History V S} (hv : Valid h) :
    (h.delivered.map Prod.fst).Nodup := by
  refine List.nodup_iff_count_le_one.mpr fun a => ?_
  by_cases ha : a ∈ h.delivered.map Prod.fst
  · obtain ⟨d, hd, rfl⟩ := List.mem_map.mp ha
    obtain ⟨⟨p, b⟩, hp, hb⟩ := List.mem_map.mp (hv.delivered_mem d hd)
    obtain rfl : b = d.1 := hb
    -- All deliveries of the reaction are among those of its promise.
    have hcount : (h.delivered.map Prod.fst).count d.1 =
        ((h.deliveredFor p).map Prod.fst).count d.1 := by
      simp only [List.count, List.countP_map, History.deliveredFor, List.countP_filter]
      refine List.countP_congr fun e _ => ?_
      simp only [Function.comp, Bool.and_eq_true, decide_eq_true_eq, beq_iff_eq]
      exact ⟨fun heq => ⟨heq, heq ▸ hp⟩, And.left⟩
    rw [hcount]
    have hset := (hv.mem_delivered hp).mp hd
    rw [hv.delivered p _ _ hset, List.map_map]
    have hnodup : (h.addresses p).Nodup :=
      hv.addresses_nodup.sublist (List.filter_sublist.map Prod.snd)
    have hid : (Prod.fst ∘ fun b => (b, d.2.1, d.2.2)) = (id : ℕ → ℕ) := rfl
    rw [hid, List.map_id]
    exact List.nodup_iff_count_le_one.mp hnodup _
  · rw [List.count_eq_zero_of_not_mem ha]
    exact Nat.zero_le _

/-- The pairs of resolving functions of a promise that were not used. -/
def State.unusedPairs (s : State V S) (p : ℕ) : List Context :=
  s.contexts.filter fun c => c.promise = p ∧ c.resolved = false

theorem Valid.unusedPairs_le {h : History V S} (hv : Valid h) (p : ℕ) :
    (h.vm.unusedPairs p).length ≤ 1 ∧
      ((h.vm.promise p).state ≠ .pending → h.vm.unusedPairs p = []) := by
  have hmap : (h.vm.unusedPairs p).map Context.promise =
      ((h.vm.contexts.filter fun c => !c.resolved).map Context.promise).filter (· = p) := by
    rw [State.unusedPairs, List.filter_map, List.filter_filter]
    congr 1
    refine List.filter_congr fun c _ => ?_
    simp [Function.comp, Bool.and_comm]
  have hsub : ((h.vm.contexts.filter fun c => !c.resolved).map Context.promise).Sublist
      h.vm.live := List.sublist_append_left ..
  constructor
  · have hcount := List.nodup_iff_count_le_one.mp (hv.nodup.sublist hsub) p
    rw [← List.length_map (f := Context.promise), hmap]
    rwa [List.count_eq_length_filter] at hcount
  · intro hp
    rw [← List.map_eq_nil_iff (f := Context.promise), hmap]
    refine List.filter_eq_nil_iff.mpr fun q hq hqp => hp ?_
    rw [decide_eq_true_eq] at hqp
    exact hqp ▸ hv.pending q (hsub.subset hq)

/-- In every run of promise operations, and for every promise: once it is settled it stays as it
is; at most one pair of its resolving functions was not used, and none once it is settled; while it
is not settled no job is made of its reactions; and once it is settled its reactions, all of which
differ, were made into one job each, of the kind and with the argument that it was settled with, in
the order in which they were registered. Jobs run in the order in which they were made. -/
theorem run_promises (events : List (Event V S)) (p : ℕ) :
    let h := events.foldl (next values) .empty
    (∀ t v, (h.vm.promise p).Settled t v → ∀ later : List (Event V S),
      ((later.foldl (next values) h).vm.promise p).Settled t v) ∧
    (h.vm.unusedPairs p).length ≤ 1 ∧
    ((h.vm.promise p).state ≠ .pending → h.vm.unusedPairs p = []) ∧
    (h.addresses p).Nodup ∧
    ((h.vm.promise p).state = .pending → h.deliveredFor p = []) ∧
    (∀ t v, (h.vm.promise p).Settled t v → h.deliveredFor p = (h.addresses p).map (·, t, v)) ∧
    ((h.vm.promise p).state ≠ .pending → ∃ t v, (h.vm.promise p).Settled t v) ∧
    h.delivered = h.executed.filterMap Job.delivery ++ h.vm.jobs.filterMap Job.delivery := by
  intro h
  have hv : Valid h := valid_run values events
  refine ⟨fun t v hp later => settled_run values hv hp later, (hv.unusedPairs_le p).1,
    (hv.unusedPairs_le p).2, ?_, hv.undelivered p, hv.delivered p, fun hp => ?_,
    List.filterMap_append ..⟩
  · exact hv.addresses_nodup.sublist (List.filter_sublist.map Prod.snd)
  · obtain ⟨v, hv⟩ := hv.result p hp
    exact ⟨_, v, rfl, hp, hv⟩

end Njs.Promises
