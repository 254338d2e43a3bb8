import Njs.HttpClient.Keepalive

/-!
# Runs of the cache of idle connections

Whatever happens, every slot is in one of the two queues, and a connection of the cache is in one
slot and has no other owner. A connection may be given to a request for another host when there is a
NUL in its host.
-/

namespace Njs.HttpClient

open Text
open Fetch (lower)

variable {all : ℕ → Prop} {w : Keepalive} {r c q : ℕ} {http : Http} {conn : Connection}

/-! ### The calls -/

theorem closeHandler_inv (h : Inv all w) (c : ℕ) (quiet : Bool) :
    Inv all (ngxJsHttpKeepaliveCloseHandler c quiet w) := by
  rw [ngxJsHttpKeepaliveCloseHandler]
  split
  · exact h
  rename_i conn hconn
  split_ifs
  · exact h
  · split
    · rename_i q hdata
      obtain ⟨hq, rfl⟩ := h.back c conn q hconn hdata
      exact h.dropSlot hq
    · exact h

theorem findCached_inv (h : Inv all w) (http : Http) (quiet : ℕ → Bool) {qs : List ℕ}
    (hqs : ∀ q ∈ qs, q ∈ w.queues.first) (hnodup : qs.Nodup) :
    ∃ w₀, Inv all w₀ ∧ w₀.requests = w.requests ∧ w₀.allocated = w.allocated ∧
      (findCached http quiet qs w = (none, w₀) ∨
        ∃ q conn, q ∈ w₀.queues.first ∧ w₀.connections (w₀.slots q).connection = some conn ∧
          Agrees conn.openedFor http.origin ∧
          findCached http quiet qs w = (some (w₀.slots q).connection,
            { w₀ with queues := (w₀.queues.remove q).pushSecond q })) := by
  induction qs generalizing w with
  | nil => exact ⟨w, h, rfl, rfl, .inl rfl⟩
  | cons q qs ih =>
    have hq : q ∈ w.queues.first := hqs q List.mem_cons_self
    obtain ⟨hnot, hnodup⟩ := List.nodup_cons.mp hnodup
    have hrest : ∀ p ∈ qs, p ∈ w.queues.first := fun p hp => hqs p (List.mem_cons_of_mem _ hp)
    rw [findCached]
    by_cases hm : slotMatches http (w.slots q) = true
    · obtain ⟨conn, hconn, hdata, hagrees⟩ := h.cached q hq
      rw [if_pos hm]
      simp only [hconn]
      split_ifs
      · exact ⟨w, h, rfl, rfl, .inr ⟨q, conn, hq, hconn,
          hagrees.trans (agrees_of_slotMatches hm), rfl⟩⟩
      · refine ih (h.dropSlot hq) (fun p hp => ?_) hnodup
        refine h.queues.nodup_first.mem_erase_iff.mpr ⟨?_, hrest p hp⟩
        rintro rfl
        exact hnot hp
    · rw [if_neg hm]
      exact ih h hrest hnodup

theorem getKeepalive_inv (h : Inv all w) (http : Http) (quiet : ℕ → Bool) :
    ∃ w₀, Inv all w₀ ∧ w₀.requests = w.requests ∧ w₀.allocated = w.allocated ∧
      (ngxJsHttpGetKeepaliveConnection http quiet w = (none, w₀) ∨
        ∃ q conn, q ∈ w₀.queues.first ∧ w₀.connections (w₀.slots q).connection = some conn ∧
          Agrees conn.openedFor http.origin ∧
          ngxJsHttpGetKeepaliveConnection http quiet w = (some (w₀.slots q).connection,
            { w₀ with queues := (w₀.queues.remove q).pushSecond q })) := by
  rw [ngxJsHttpGetKeepaliveConnection]
  split_ifs
  · exact findCached_inv h http quiet (fun _ hq => hq) h.queues.nodup_first
  · exact ⟨w, h, rfl, rfl, .inl rfl⟩

theorem Inv.attach_cached (h : Inv all w) (hq : q ∈ w.queues.first)
    (hconn : w.connections (w.slots q).connection = some conn)
    (hagrees : Agrees conn.openedFor http.origin) :
    Inv all (HttpClient.attach r http (w.slots q).connection conn
      { w with queues := (w.queues.remove q).pushSecond q }) := by
  -- as if the slot was dropped first
  have heq : HttpClient.attach r http (w.slots q).connection conn
      { w with queues := (w.queues.remove q).pushSecond q } =
        HttpClient.attach r http (w.slots q).connection conn (HttpClient.dropSlot q w) := by
    simp [HttpClient.attach, HttpClient.dropSlot, Keepalive.setConnection, Keepalive.setRequest,
      ngxJsHttpCloseConnection, Function.update_idem]
  rw [heq]
  exact (h.dropSlot hq).attach (by simp [HttpClient.dropSlot]) (h.lt_opened hconn) hagrees

def SameHosts (w w' : Keepalive) : Prop :=
  w'.allocated = w.allocated ∧ ∀ r, (w'.requests r).map Http.host = (w.requests r).map Http.host

theorem SameHosts.trans {w₁ w₂ w₃ : Keepalive} (h : SameHosts w₁ w₂) (h' : SameHosts w₂ w₃) :
    SameHosts w₁ w₃ :=
  ⟨h'.1.trans h.1, fun r => (h'.2 r).trans (h.2 r)⟩

theorem hosts_update (hr : w.requests r = some http) (http' : Http)
    (hhost : http'.host = http.host) (r' : ℕ) :
    ((Function.update w.requests r (some http')) r').map Http.host =
      (w.requests r').map Http.host := by
  rw [Function.update_apply]
  split_ifs with hrr
  · rw [hrr, hr, Option.map_some, Option.map_some, hhost]
  · rfl

theorem sameHosts_setRequest (hr : w.requests r = some http) (http' : Http)
    (hhost : http'.host = http.host) : SameHosts w (w.setRequest r http') :=
  ⟨rfl, hosts_update hr http' hhost⟩

theorem sameHosts_attach (hr : w.requests r = some http) (c : ℕ) (conn : Connection) :
    SameHosts w (attach r http c conn w) :=
  ⟨rfl, hosts_update hr _ rfl⟩

theorem connect_inv (h : Inv all w) (r : ℕ) (network : ℕ → Network) (n : ℕ) :
    Inv all (ngxJsHttpConnect r network n w) ∧ SameHosts w (ngxJsHttpConnect r network n w) := by
  induction n generalizing w with
  | zero => exact ⟨h, rfl, fun _ => rfl⟩
  | succ n ih =>
    rw [ngxJsHttpConnect]
    split
    · exact ⟨h, rfl, fun _ => rfl⟩
    rename_i http hr
    obtain ⟨w₀, h₀, hreq, hall, hget | ⟨q, conn, hq, hconn, hagrees, hget⟩⟩ :=
      getKeepalive_inv h http (network n).quiet
    · have hr₀ : w₀.requests r = some http := by rw [hreq, hr]
      have hsame : SameHosts w w₀ := ⟨hall, fun r => by rw [hreq]⟩
      rw [hget]
      rcases hpeer : (network n).peer
      · have hopen : Inv all { w₀ with opened := w₀.opened + 1 } :=
          ⟨h₀.queues, h₀.cached, h₀.back, h₀.owned, fun c hc => h₀.fresh c (by grind)⟩
        exact ⟨hopen.attach (h₀.fresh _ le_rfl) (by simp) (Agrees.refl _),
          hsame.trans ⟨rfl, (sameHosts_attach hr₀ w₀.opened
            (newConnection http (network n).now)).2⟩⟩
      · let http' : Http := { http with naddr := http.naddr + 1 }
        have hset : Inv all (w₀.setRequest r http') :=
          h₀.setRequest fun c hc => ⟨http, hr₀, hc, Agrees.refl _⟩
        obtain ⟨hinv, hsame'⟩ := ih hset
        exact ⟨hinv, (hsame.trans (sameHosts_setRequest hr₀ http' rfl)).trans hsame'⟩
      · exact ⟨h₀, hsame⟩
    · have hr₀ : w₀.requests r = some http := by rw [hreq, hr]
      rw [hget]
      simp only [hconn]
      refine ⟨h₀.attach_cached hq hconn hagrees, hall, fun r' => ?_⟩
      rw [← hreq]
      exact (sameHosts_attach hr₀ (w₀.slots q).connection conn).2 r'

theorem allocateSlots_sound (h : Sound w) (conf : Conf) : Sound (allocateSlots conf w) := by
  rw [allocateSlots]
  split_ifs with hempty
  · have hqueues : ∀ n, ((List.range n).foldl
        (fun queues i => queues.pushSecond (w.allocated + i)) w.queues).Holds
          (· < w.allocated + n) ∧
        ((List.range n).foldl
          (fun queues i => queues.pushSecond (w.allocated + i)) w.queues).first =
            w.queues.first := by
      intro n
      induction n with
      | zero => exact ⟨h.queues, rfl⟩
      | succ n ih =>
        rw [List.range_succ, List.foldl_append]
        exact ⟨(ih.1.pushSecond (by simp)).congr fun q => by omega, ih.2⟩
    obtain ⟨hholds, hfirst⟩ := hqueues conf.fetchKeepalive
    refine ⟨hholds, ?_, ?_, h.owned, h.fresh⟩
    · intro q hq
      exact h.cached q (hfirst ▸ hq)
    · intro c conn q hc hdata
      obtain ⟨hq, hslot⟩ := h.back c conn q hc hdata
      exact ⟨hfirst ▸ hq, hslot⟩
  · exact h

theorem takeSlot_inv (h : Inv all w) {w' : Keepalive} (htake : takeSlot w = some (q, w')) :
    Inv (fun p => all p ∧ p ≠ q) w' ∧ all q ∧ w'.requests = w.requests ∧
      w'.allocated = w.allocated ∧ w'.opened = w.opened := by
  rw [takeSlot] at htake
  split at htake
  · split at htake
    · simp at htake
    · rename_i p hlast
      obtain ⟨rfl, rfl⟩ := Prod.mk.inj (Option.some.inj htake)
      have hp : p ∈ w.queues.first := List.mem_of_getLast? hlast
      exact ⟨h.detach hp, (h.queues.mem_iff p).mp (.inl hp), rfl, rfl, rfl⟩
  rename_i p rest hsecond
  obtain ⟨rfl, rfl⟩ := Prod.mk.inj (Option.some.inj htake)
  have hp : p ∈ w.queues.second := by rw [hsecond]; exact List.mem_cons_self
  have hnot : p ∉ w.queues.first := fun hfirst => h.queues.notMem_second hfirst hp
  refine ⟨⟨h.queues.remove p, ?_, ?_, h.owned, h.fresh⟩,
    (h.queues.mem_iff p).mp (.inr hp), rfl, rfl, rfl⟩
  · intro q hq
    exact h.cached q (List.mem_of_mem_erase hq)
  · intro c conn q hc hdata
    obtain ⟨hq, hslot⟩ := h.back c conn q hc hdata
    refine ⟨h.queues.nodup_first.mem_erase_iff.mpr ⟨?_, hq⟩, hslot⟩
    rintro rfl
    exact hnot hq

theorem Inv.fillSlot_own (h : Inv all w) (hq : ¬ all q) (hr : w.requests r = some http)
    (hc : http.connection = some c) (hagrees : Agrees conn.openedFor http.origin) :
    Inv (fun p => p = q ∨ all p) (HttpClient.fillSlot r http c conn q w) := by
  -- as if the request had closed it first
  let http' : Http := { http with connection := none }
  have heq : HttpClient.fillSlot r http c conn q w = HttpClient.fillSlot r http c conn q
      ((ngxJsHttpCloseConnection c w).setRequest r http') := by
    simp [HttpClient.fillSlot, Keepalive.setConnection, Keepalive.setRequest,
      ngxJsHttpCloseConnection, Function.update_idem]
  obtain ⟨conn', hconn', -, -⟩ := h.owned r http c hr hc
  rw [heq]
  exact (h.closeOwn hr hc rfl).fillSlot hq (by simp [Keepalive.setRequest])
    (h.lt_opened hconn') hagrees

theorem closeHandler_requests (c : ℕ) (quiet : Bool) (w : Keepalive) :
    (ngxJsHttpKeepaliveCloseHandler c quiet w).requests = w.requests ∧
      (ngxJsHttpKeepaliveCloseHandler c quiet w).allocated = w.allocated := by
  rw [ngxJsHttpKeepaliveCloseHandler]
  split
  · exact ⟨rfl, rfl⟩
  · split_ifs
    · exact ⟨rfl, rfl⟩
    · split
      · exact ⟨rfl, rfl⟩
      · exact ⟨rfl, rfl⟩

theorem allocateSlots_requests (conf : Conf) (w : Keepalive) :
    (allocateSlots conf w).requests = w.requests := by
  rw [allocateSlots]
  split_ifs <;> rfl

theorem freeKeepalive_inv (h : Sound w) (hr : w.requests r = some http)
    (hc : http.connection = some c) (conf : Conf) (rel : Release) :
    ngxJsHttpFreeKeepaliveConnection conf r http c rel w = (false, w) ∨
      ∃ w', ngxJsHttpFreeKeepaliveConnection conf r http c rel w = (true, w') ∧ Sound w' ∧
        ∀ r, (w'.requests r).map Http.host = (w.requests r).map Http.host := by
  obtain ⟨conn, hconn, -, hagrees⟩ := h.owned r http c hr hc
  rw [ngxJsHttpFreeKeepaliveConnection]
  simp only [hconn]
  split_ifs
  · exact .inl rfl
  · exact .inl rfl
  · exact .inl rfl
  · exact .inl rfl
  · rcases htake : takeSlot (allocateSlots conf w) with _ | ⟨q, w₁⟩
    · exact .inl rfl
    obtain ⟨hinv, hq, hreq, hall, -⟩ := takeSlot_inv (allocateSlots_sound h conf) htake
    rw [allocateSlots_requests] at hreq
    have hr₁ : w₁.requests r = some http := by rw [hreq, hr]
    have hfill : Sound (fillSlot r http c conn q w₁) := by
      refine (hinv.fillSlot_own (by simp) hr₁ hc hagrees).congr fun p => ?_
      rw [← hall] at hq ⊢
      show p = q ∨ p < w₁.allocated ∧ p ≠ q ↔ p < w₁.allocated
      grind
    have hhosts : ∀ r', ((fillSlot r http c conn q w₁).requests r').map Http.host =
        (w.requests r').map Http.host := by
      rw [← hreq]
      exact hosts_update hr₁ _ rfl
    refine .inr ⟨_, rfl, ?_⟩
    rw [handleReady]
    split_ifs
    · have hhandler := closeHandler_requests c rel.quiet (fillSlot r http c conn q w₁)
      refine ⟨?_, by rw [hhandler.1]; exact hhosts⟩
      rw [Sound, hhandler.2]
      exact closeHandler_inv hfill c rel.quiet
    · exact ⟨hfill, hhosts⟩
  · exact .inl rfl

theorem closePeer_inv (h : Sound w) (conf : Conf) (r : ℕ) (rel : Release) :
    Sound (ngxJsHttpClosePeer conf r rel w) ∧
      ∀ r', ((ngxJsHttpClosePeer conf r rel w).requests r').map Http.host =
        (w.requests r').map Http.host := by
  rw [ngxJsHttpClosePeer]
  split
  · exact ⟨h, fun _ => rfl⟩
  rename_i http hr
  split
  · exact ⟨h, fun _ => rfl⟩
  rename_i c hc
  have hclose : Sound ((ngxJsHttpCloseConnection c w).setRequest r
      { http with connection := none }) := h.closeOwn hr hc rfl
  have hhosts := hosts_update hr { http with connection := none } rfl
  by_cases hkeep : http.keepalive = true
  · rw [if_pos hkeep]
    obtain hfree | ⟨w', hfree, hsound, hhosts'⟩ := freeKeepalive_inv h hr hc conf rel
    · rw [hfree]
      exact ⟨hclose, hhosts⟩
    · rw [hfree]
      exact ⟨hsound, hhosts'⟩
  · rw [if_neg hkeep]
    exact ⟨hclose, hhosts⟩

theorem next_inv (h : Sound w) (conf : Conf) (r : ℕ) (network : ℕ → Network) (rel : Release) :
    Sound (ngxJsHttpNext conf r network rel w) ∧
      ∀ r', ((ngxJsHttpNext conf r network rel w).requests r').map Http.host =
        (w.requests r').map Http.host := by
  rw [ngxJsHttpNext]
  split
  · exact ⟨h, fun _ => rfl⟩
  rename_i http hr
  dsimp only
  let http' : Http := { http with naddr := http.naddr + 1 }
  let http'' : Http := { http with naddr := http.naddr + 1, connection := none }
  split_ifs
  · have hset : Sound (w.setRequest r http') :=
      h.setRequest fun c hc => ⟨http, hr, hc, Agrees.refl _⟩
    obtain ⟨hsound, hhosts⟩ := closePeer_inv hset conf r rel
    exact ⟨hsound, fun r' => (hhosts r').trans (hosts_update hr http' rfl r')⟩
  rcases hc : http.connection with _ | c
  · have hset : Sound (w.setRequest r http'') :=
      h.setRequest fun c hc' => by simp [http''] at hc'
    obtain ⟨hinv, hall, hhosts⟩ := connect_inv hset r network (http.naddrs - (http.naddr + 1))
    refine ⟨?_, fun r' => (hhosts r').trans (hosts_update hr http'' rfl r')⟩
    rw [Sound]
    exact hinv.congr fun p => by rw [hall]
  have hset : Sound ((ngxJsHttpCloseConnection c w).setRequest r http'') :=
    h.closeOwn hr hc rfl
  obtain ⟨hinv, hall, hhosts⟩ := connect_inv hset r network (http.naddrs - (http.naddr + 1))
  refine ⟨?_, fun r' => (hhosts r').trans (hosts_update hr http'' rfl r')⟩
  rw [Sound]
  exact hinv.congr fun p => by rw [hall]

/-! ### Runs -/

theorem step_inv (h : Sound w) (conf : Conf) (op : Op) : Sound (step conf w op) := by
  cases op with
  | fetch r origin keepalive naddrs =>
    rw [step]
    split
    · exact h
    · exact h.setRequest fun c hc => by simp at hc
  | connect r network =>
    rw [step]
    split
    · exact h
    split
    · exact h
    · rename_i http hr _ _
      obtain ⟨hinv, hall, -⟩ := connect_inv h r network (http.naddrs - http.naddr)
      rw [Sound]
      exact hinv.congr fun p => by rw [hall]
  | sslName r memory =>
    rw [step]
    split
    · exact h
    · rename_i http hr
      exact h.setRequest fun c hc => ⟨http, hr, hc, sameName_sslName memory http.host, rfl, rfl⟩
  | next r network rel => exact (next_inv h conf r network rel).1
  | response r keepalive =>
    rw [step]
    split
    · exact h
    · rename_i http hr
      exact h.setRequest fun c hc => ⟨http, hr, hc, Agrees.refl _⟩
  | closePeer r rel => exact (closePeer_inv h conf r rel).1
  | flags c flags =>
    rw [step]
    split
    · exact h
    · rename_i conn hconn
      exact h.setFlags hconn flags
  | readEvent c quiet =>
    rw [step]
    split
    · exact h
    · split
      · rw [Sound, (closeHandler_requests c quiet w).2]
        exact closeHandler_inv h c quiet
      · exact h

theorem run_inv (conf : Conf) (ops : List Op) : Sound (run conf ops) := by
  have hfold : ∀ w, Sound w → Sound (ops.foldl (step conf) w) := by
    induction ops with
    | nil => exact fun w h => h
    | cons op ops ih => exact fun w h => ih _ (step_inv h conf op)
  exact hfold _ sound_empty

/-- A call of `fetch` with a host without NUL, or anything else. -/
def Op.NoNul : Op → Prop
  | .fetch _ origin _ _ => (0 : UInt8) ∉ origin.host
  | _ => True

def NoNulHosts (w : Keepalive) : Prop :=
  ∀ r host, (w.requests r).map Http.host = some host → (0 : UInt8) ∉ host

theorem step_noNul (h : Sound w) (hosts : NoNulHosts w) (conf : Conf) {op : Op} (hop : op.NoNul) :
    NoNulHosts (step conf w op) := by
  have hkeep : ∀ w' : Keepalive,
      (∀ r, (w'.requests r).map Http.host = (w.requests r).map Http.host) → NoNulHosts w' :=
    fun w' hw' r host hr => hosts r host ((hw' r).symm.trans hr)
  cases op with
  | fetch r origin keepalive naddrs =>
    rw [step]
    split
    · exact hosts
    intro r' host hr'
    simp only [Keepalive.setRequest, Function.update_apply] at hr'
    split_ifs at hr' with hrr
    · obtain rfl : origin.host = host := by simpa using hr'
      exact hop
    · exact hosts r' host hr'
  | connect r network =>
    rw [step]
    split
    · exact hosts
    · split
      · exact hosts
      · exact hkeep _ (connect_inv h r network _).2.2
  | sslName r memory =>
    rw [step]
    split
    · exact hosts
    · rename_i http hr
      have hhost : (0 : UInt8) ∉ http.host := hosts r http.host (by rw [hr]; rfl)
      exact hkeep _ (hosts_update hr _ (sslName_of_noNul hhost memory))
  | next r network rel => exact hkeep _ (next_inv h conf r network rel).2
  | response r keepalive =>
    rw [step]
    split
    · exact hosts
    · rename_i http hr
      exact hkeep _ (hosts_update hr _ rfl)
  | closePeer r rel => exact hkeep _ (closePeer_inv h conf r rel).2
  | flags c flags =>
    rw [step]
    split
    · exact hosts
    · exact hosts
  | readEvent c quiet =>
    rw [step]
    split
    · exact hosts
    · split
      · exact hkeep _ fun r => by rw [(closeHandler_requests c quiet w).1]
      · exact hosts

theorem run_noNul (conf : Conf) {ops : List Op} (hops : ∀ op ∈ ops, op.NoNul) :
    NoNulHosts (run conf ops) := by
  have hfold : ∀ w, Sound w → NoNulHosts w → NoNulHosts (ops.foldl (step conf) w) := by
    induction ops with
    | nil => exact fun w _ h => h
    | cons op ops ih =>
      intro w h hosts
      exact ih (fun op' hop' => hops op' (List.mem_cons_of_mem _ hop')) _ (step_inv h conf op)
        (step_noNul h hosts conf (hops op List.mem_cons_self))
  exact hfold _ sound_empty (by simp [NoNulHosts, emptyKeepalive])

/-! ### Slots, owners and origins -/

def SameOrigin (a b : Origin) : Prop :=
  a.host.map lower = b.host.map lower ∧ a.port = b.port ∧ a.ssl = b.ssl

def SlotsOnce (w : Keepalive) : Prop :=
  ∀ q, q < w.allocated → (w.queues.first ++ w.queues.second).count q = 1

/-- A connection of the cache is in one slot only, and no request has it. -/
def CachedAlone (w : Keepalive) : Prop :=
  ∀ q ∈ w.queues.first,
    (∀ q' ∈ w.queues.first, (w.slots q').connection = (w.slots q).connection → q' = q) ∧
    ∀ r http, w.requests r = some http → http.connection ≠ some (w.slots q).connection

/-- A request has a connection that was opened for its origin. -/
def OwnOrigin (w : Keepalive) : Prop :=
  ∀ r http c, w.requests r = some http → http.connection = some c →
    ∃ conn, w.connections c = some conn ∧ SameOrigin conn.openedFor http.origin

theorem slotsOnce_of_sound (h : Sound w) : SlotsOnce w := fun _ hq => h.queues.count hq

theorem cachedAlone_of_sound (h : Sound w) : CachedAlone w := by
  intro q hq
  obtain ⟨conn, hconn, hdata, -⟩ := h.cached q hq
  constructor
  · intro q' hq' hslot
    obtain ⟨conn', hconn', hdata', -⟩ := h.cached q' hq'
    rw [hslot, hconn] at hconn'
    obtain rfl := Option.some.inj hconn'
    simpa [hdata] using hdata'.symm
  · intro r http hr hc
    obtain ⟨conn', hconn', hdata', -⟩ := h.owned r http _ hr hc
    rw [hconn] at hconn'
    obtain rfl := Option.some.inj hconn'
    simp [hdata] at hdata'

/-- After every run in which the hosts have no NUL, every slot is in one of the two queues, a
connection of the cache is in one slot and has no other owner, and the connection of a request was
opened for its origin. The first two hold after every run. -/
theorem keepalive_run (conf : Conf) (ops : List Op) :
    SlotsOnce (run conf ops) ∧ CachedAlone (run conf ops) ∧
      ((∀ op ∈ ops, op.NoNul) → OwnOrigin (run conf ops)) := by
  have h := run_inv conf ops
  refine ⟨slotsOnce_of_sound h, cachedAlone_of_sound h, fun hops r http c hr hc => ?_⟩
  obtain ⟨conn, hconn, -, hname, hport, hssl⟩ := h.owned r http c hr hc
  have hhost : (0 : UInt8) ∉ http.host := run_noNul conf hops r http.host (by rw [hr]; rfl)
  exact ⟨conn, hconn, map_lower_of_sameName hname hhost, hport, hssl⟩

def twoRequests (host host' : Bytes) : List Op :=
  let network : ℕ → Network := fun _ => ⟨fun _ => true, .connected, 0⟩
  [.fetch 0 ⟨host, 80, false⟩ true 1, .connect 0 network,
    .closePeer 0 ⟨0, false, true, false, true⟩,
    .fetch 1 ⟨host', 80, false⟩ true 1, .connect 1 network]

/-- The second request has the connection of the first one, whose host differs in case. -/
theorem keepalive_run_reused :
    ((run ⟨1, 1000, 3600000⟩ (twoRequests (lit "Host") (lit "host"))).requests 1).map
      Http.connection = some (some 0) ∧
    OwnOrigin (run ⟨1, 1000, 3600000⟩ (twoRequests (lit "Host") (lit "host"))) := by
  refine ⟨by decide, (keepalive_run _ _).2.2 fun op hop => ?_⟩
  simp only [twoRequests, List.mem_cons, List.not_mem_nil, or_false] at hop
  rcases hop with rfl | rfl | rfl | rfl | rfl
  · exact (by decide : (0 : UInt8) ∉ lit "Host")
  · trivial
  · trivial
  · exact (by decide : (0 : UInt8) ∉ lit "host")
  · trivial

/-- The comparison of the hosts stops at a NUL: the connection for one host is given to a request
for another one. -/
theorem not_keepalive_run_nul :
    ¬ OwnOrigin (run ⟨1, 1000, 3600000⟩ (twoRequests (lit "a\x00b") (lit "a\x00c"))) := by
  intro h
  let w := run ⟨1, 1000, 3600000⟩ (twoRequests (lit "a\x00b") (lit "a\x00c"))
  have hhttp : (w.requests 1).map (fun http => (http.connection, http.host)) =
      some (some 0, lit "a\x00c") := by decide
  have hconn : (w.connections 0).map (fun conn => conn.openedFor.host) =
      some (lit "a\x00b") := by decide
  obtain ⟨http, hr, hpair⟩ := Option.map_eq_some_iff.mp hhttp
  obtain ⟨hc, hhost⟩ := Prod.mk.inj hpair
  obtain ⟨conn, hconn', hsame, -, -⟩ := h 1 http 0 hr hc
  rw [hconn', Option.map_some, Option.some.injEq] at hconn
  have hsame : (lit "a\x00b").map lower = (lit "a\x00c").map lower := by
    rw [← hhost, ← hconn]
    exact hsame
  exact absurd hsame (by decide)

end Njs.HttpClient
