import Njs.Lib.CreationOrder
import Njs.Lib.Runs
import Njs.Object.Ordinary

/-!
# The order of properties

The keys of an ordinary object that was created from a literal, in the order in which they were
last created, and what the enumerations list.
-/

namespace Njs.Object

open Atom PropHash CreationOrder Runs

section Order

variable {ν H V F : Type} [PropHash H (Property V F)] {N : Names ν} {host : Host V F}

/-! ### The invariant -/

def Names.other (N : Names ν) (k : UInt32) : Bool := (N.arrayIndex k).isNone

variable {k : UInt32}

theorem Names.Lawful.other_iff (hN : N.Lawful) : N.other k = true ↔ ¬∃ n, N.IsIndex k n := by
  rw [Names.other, Option.isNone_iff_eq_none, Option.eq_none_iff_forall_ne_some]
  simp only [ne_eq, hN.arrayIndex_iff, not_exists]

def Obj.liveKeys (o : Obj H V) : List UInt32 := (keys o.hash).filter fun k => (o.own k).isSome

variable (N) in
/-- An object and the order of its keys: those that are not indices are in this order in the
table. -/
structure Ordered (o : Obj H V) (l : List UInt32) : Prop where
  ordinary : o.Ordinary
  nodup : l.Nodup
  mem_iff : ∀ k, k ∈ l ↔ (o.own k).isSome = true
  other : o.liveKeys.filter N.other = l.filter N.other
  notNegZero : ∀ k ∈ keys o.hash, N.text k ≠ some (Text.lit "-0")

def literal (sharedHash : H) : Obj H V where
  kind := .object
  hash := empty
  sharedHash := sharedHash
  extensible := true

theorem ordered_literal {sharedHash : H} (h : keys sharedHash = []) :
    Ordered N (literal sharedHash : Obj H V) [] := by
  have hkeys : keys (literal sharedHash : Obj H V).hash = [] := keys_empty
  have hown (k : UInt32) : (literal sharedHash : Obj H V).own k = none := by
    rw [Obj.own, find_eq_none (by simp [hkeys])]
    rfl
  exact
    { ordinary := ⟨rfl, h, fun {k p} hk => by
        rw [find_eq_none (by simp [hkeys])] at hk
        cases hk⟩
      nodup := List.nodup_nil
      mem_iff := fun k => by simp [hown]
      other := by rw [Obj.liveKeys, hkeys]; rfl
      notNegZero := fun k hk => by simp [hkeys] at hk }

variable {o : Obj H V}

theorem Effect.own_ne {o' : Obj H V} (h : Effect N k o o') {j : UInt32} (hj : j ≠ k) :
    o'.own j = o.own j := by
  rw [Obj.own, Obj.own, h.find_ne j hj]

theorem Ordered.effect (hN : N.Lawful) {o' : Obj H V} {l : List UInt32} (hs : Ordered N o l)
    (h : Effect N k o o') (hzero : N.text k ≠ some (Text.lit "-0")) :
    Ordered N o' (record (fun j => (o'.own j).isSome) k l) := by
  have hlive (j : UInt32) (hj : (o'.own j).isSome = true) (hjk : j ≠ k) : j ∈ l := by
    rw [h.own_ne hjk] at hj
    exact (hs.mem_iff j).mpr hj
  refine ⟨h.ordinary, nodup_record hs.nodup, mem_record hlive, ?_, ?_⟩
  · simp only [Obj.liveKeys]
    rcases h.order with ⟨hkeys, hnew⟩ | ⟨hk, hk', hkeys⟩
    · -- No key other than an index is new.
      have hold (j : UInt32) (hj : N.other j = true) (hown : (o'.own j).isSome = true) :
          (o.own j).isSome = true := by
        by_cases hjk : j = k
        · subst hjk
          exact (hnew hown).resolve_right (hN.other_iff.mp hj)
        · rwa [h.own_ne hjk] at hown
      rw [filter_record fun hp hown => (hs.mem_iff k).mpr (hold k hp hown), List.filter_comm,
        List.filter_comm (l := l), ← hs.other, Obj.liveKeys, hkeys]
      simp only [List.filter_filter]
      refine List.filter_congr fun j _ => ?_
      rw [Bool.eq_iff_iff]
      simp only [Bool.and_eq_true]
      constructor
      · rintro ⟨hown, hother⟩
        exact ⟨hown, hother, hold j hother hown⟩
      · rintro ⟨hown, hother, -⟩
        exact ⟨hown, hother⟩
    · -- The key was not there and is the latest one.
      have hkl : k ∉ l := fun hmem => by
        have := (hs.mem_iff k).mp hmem
        rw [hk] at this
        cases this
      have hl : l.filter (fun j => (o'.own j).isSome) = l := by
        refine List.filter_eq_self.mpr fun j hj => ?_
        have hjk : j ≠ k := fun hjk => hkl (hjk ▸ hj)
        rw [h.own_ne hjk]
        exact (hs.mem_iff j).mp hj
      have hkept : ((keys o.hash).filter (· ≠ k)).filter (fun j => (o'.own j).isSome) =
          o.liveKeys := by
        rw [Obj.liveKeys, List.filter_filter]
        refine List.filter_congr fun j _ => ?_
        by_cases hjk : j = k
        · subst hjk
          simp [hk]
        · simp [hjk, h.own_ne hjk]
      have hrecord : record (fun j => (o'.own j).isSome) k l =
          l.filter (fun j => (o'.own j).isSome) ++ [k] :=
        record_of_notMem hk' hkl
      rw [hrecord, hl, hkeys, List.filter_append, hkept, List.filter_append,
        List.filter_append, hs.other, List.filter_cons_of_pos (p := fun j => (o'.own j).isSome) hk']
      rfl
  · intro j hj
    by_cases hjk : j = k
    · exact hjk ▸ hzero
    · refine hs.notNegZero j ?_
      rcases h.order with ⟨hkeys, -⟩ | ⟨-, -, hkeys⟩
      · rwa [hkeys] at hj
      · rw [hkeys, List.mem_append, List.mem_singleton] at hj
        exact List.mem_of_mem_filter (hj.resolve_right hjk)

/-! ### The lists -/

/-- The indices among some keys in increasing order, and then the other keys in the given one. -/
def InOrder (N : Names ν) (l listed : List UInt32) : Prop :=
  ∃ indices others, listed = indices ++ others ∧
    (∀ k, k ∈ indices ↔ k ∈ l ∧ ∃ n, N.IsIndex k n) ∧
    indices.Pairwise (fun a b => ∀ m n, N.IsIndex a m → N.IsIndex b n → m < n) ∧
    (∀ k, k ∈ others ↔ k ∈ l ∧ ¬∃ n, N.IsIndex k n) ∧ others.Sublist l

/-- An enumerable own property whose key is a string. -/
def Obj.enumerable (N : Names ν) (o : Obj H V) (k : UInt32) : Bool :=
  (N.text k).isSome && (o.own k).any fun p => p.enumerable

/-- What an own property reads as; `call` is what a getter returns. -/
def Obj.valueOf (host : Host V F) (call : F → Except Error V) (handle : Handler → V) (o : Obj H V)
    (k : UInt32) : Except Error V :=
  match o.own k with
  | some p => p.read.eval host call handle
  | none => throw .thrown

theorem own_of_enumerable (h : o.enumerable N k = true) : (o.own k).isSome = true := by
  rw [Obj.enumerable] at h
  cases hk : o.own k with
  | none => simp [hk] at h
  | some p => rfl

theorem localListed_ordinary (ho : o.Ordinary) (k : UInt32) :
    localListed N enumerableStrings [] o k = o.enumerable N k := by
  have hshared : find o.sharedHash k = none := find_eq_none (by simp [ho.shared])
  rw [localListed, Obj.enumerable, Obj.own, hshared, njsIsEnumerable]
  cases N.text k with
  | none => rfl
  | some text =>
    cases find o.hash k with
    | none => rfl
    | some p =>
      cases hwhite : p.isWhiteout <;>
        simp [enumerableStrings, njsObjectExistInProto, Option.filter, hwhite]

theorem ownOrderedKeys_ordinary (ho : o.Ordinary) (qsort : Sorter UInt32) :
    njsGetOwnOrderedKeys N qsort enumerableStrings [] o =
      qsort.sort N.indexLe
          (((keys o.hash).filter (o.enumerable N)).filter fun k => (N.listedIndex k).isSome) ++
        ((keys o.hash).filter (o.enumerable N)).filter fun k => (N.listedIndex k).isNone := by
  have hlocal : localListed N enumerableStrings [] o = o.enumerable N := by
    funext k
    exact localListed_ordinary ho k
  rw [njsGetOwnOrderedKeys, ho.shared, hlocal]
  simp [enumerableStrings]

theorem Ordered.inOrder (hN : N.Lawful) {l : List UInt32} (hs : Ordered N o l)
    (qsort : Sorter UInt32) :
    InOrder N (l.filter (o.enumerable N))
      (njsGetOwnOrderedKeys N qsort enumerableStrings [] o) := by
  have hlisted {k : UInt32} (hk : k ∈ (keys o.hash).filter (o.enumerable N)) (n : ℕ) :
      N.listedIndex k = some n ↔ N.IsIndex k n :=
    hN.listedIndex_iff (hs.notNegZero k (List.mem_of_mem_filter hk))
  have hmem (k : UInt32) :
      k ∈ (keys o.hash).filter (o.enumerable N) ↔ k ∈ l.filter (o.enumerable N) := by
    rw [List.mem_filter, List.mem_filter, hs.mem_iff, mem_keys]
    refine and_congr_left fun hk => ?_
    obtain ⟨p, hp⟩ := Option.isSome_iff_exists.mp (own_of_enumerable hk)
    simp [hp, (own_eq_some.mp hp).1]
  have hnone {k : UInt32} (hk : k ∈ (keys o.hash).filter (o.enumerable N)) :
      (N.listedIndex k).isNone = N.other k := by
    rw [Bool.eq_iff_iff, hN.other_iff, Option.isNone_iff_eq_none,
      Option.eq_none_iff_forall_ne_some]
    simp only [ne_eq, hlisted hk, not_exists]
  rw [ownOrderedKeys_ordinary hs.ordinary]
  refine ⟨_, _, rfl, ?_, ?_, ?_, ?_⟩
  · intro k
    rw [(qsort.perm _ _).mem_iff, List.mem_filter, ← hmem]
    refine and_congr_right fun hk => ?_
    rw [Option.isSome_iff_exists]
    simp only [hlisted hk]
  · have hle := qsort.pairwise N.indexLe_trans N.indexLe_total
      (((keys o.hash).filter (o.enumerable N)).filter fun k => (N.listedIndex k).isSome)
    have hnodup := (qsort.perm N.indexLe
      (((keys o.hash).filter (o.enumerable N)).filter fun k =>
        (N.listedIndex k).isSome)).nodup_iff.mpr
        (((nodup_keys o.hash).filter _).filter _)
    refine (hle.and hnodup).imp_of_mem fun {a b} ha hb hab m n hm hn => ?_
    rw [(qsort.perm _ _).mem_iff] at ha hb
    have hmn := hab.1
    rw [Names.indexLe, (hlisted (List.mem_of_mem_filter ha) m).mpr hm,
      (hlisted (List.mem_of_mem_filter hb) n).mpr hn] at hmn
    have hle : m ≤ n := of_decide_eq_true hmn
    refine lt_of_le_of_ne hle ?_
    rintro rfl
    exact hab.2 (hN.text_inj hm.1 hn.1)
  · intro k
    rw [List.mem_filter, ← hmem]
    refine and_congr_right fun hk => ?_
    rw [hnone hk, hN.other_iff]
  · have hkept : ((keys o.hash).filter (o.enumerable N)).filter N.other =
        (l.filter (o.enumerable N)).filter N.other := by
      rw [List.filter_comm (l := l), ← hs.other, Obj.liveKeys]
      simp only [List.filter_filter]
      refine List.filter_congr fun k _ => ?_
      rw [Bool.eq_iff_iff]
      simp only [Bool.and_eq_true]
      constructor
      · rintro ⟨hother, hk⟩
        exact ⟨hk, hother, own_of_enumerable hk⟩
      · rintro ⟨hk, hother, -⟩
        exact ⟨hother, hk⟩
    rw [List.filter_congr fun k hk => hnone hk, hkept]
    exact List.filter_sublist

theorem valuesLoop_ordinary (ho : o.Ordinary) (call : F → Except Error V) (handle : Handler → V)
    (protos : List (Obj H V)) :
    ∀ ks : List UInt32, (∀ k ∈ ks, (o.own k).isSome = true) →
      valuesLoop N host call handle ks o protos = ks.mapM (o.valueOf host call handle) := by
  intro ks hks
  induction ks with
  | nil => rfl
  | cons k ks ih =>
    obtain ⟨p, hp⟩ := Option.isSome_iff_exists.mp (hks k List.mem_cons_self)
    have hread : njsValueProperty N host k o protos = (o, protos, p.read) := by
      rw [njsValueProperty, query_own ho hp]
    have hvalue : o.valueOf host call handle k = p.read.eval host call handle := by
      rw [Obj.valueOf, hp]
    rw [valuesLoop, hread, List.mapM_cons, hvalue,
      ← ih fun j hj => hks j (List.mem_cons_of_mem k hj)]

theorem ownNames_eq_nil {qsort : Sorter UInt32} (h : njsObjectKeys N qsort o = [])
    (before : List (Obj H V)) : ownNames N qsort before o = [] := by
  have hexist (k : UInt32) : njsObjectExistInProto ([] : List (Obj H V)) k = false := rfl
  obtain ⟨helements, hkeys⟩ := List.append_eq_nil_iff.mp h
  rw [ownNames, helements, List.nil_append, List.map_eq_nil_iff, List.eq_nil_iff_forall_not_mem]
  rw [List.map_eq_nil_iff, List.eq_nil_iff_forall_not_mem] at hkeys
  intro k hk
  refine hkeys k ?_
  revert hk
  simp only [njsGetOwnOrderedKeys, List.mem_append, (qsort.perm _ _).mem_iff, List.mem_filter]
  have hshared : sharedListed N enumerableStrings before o k = true →
      sharedListed N enumerableStrings [] o k = true := by
    simp only [sharedListed, Bool.and_eq_true, hexist]
    exact fun h => ⟨⟨h.1.1, rfl⟩, h.2⟩
  have hlocal : localListed N enumerableStrings before o k = true →
      localListed N enumerableStrings [] o k = true := by
    simp only [localListed, Bool.and_eq_true, hexist]
    exact fun h => ⟨⟨h.1.1, rfl⟩, h.2⟩
  simp only [enumerableStrings, Bool.false_eq_true, if_false, List.mem_filter] at hshared hlocal ⊢
  tauto

theorem foreachLoop_eq_nil {qsort : Sorter UInt32} {protos : List (Obj H V)}
    (h : ∀ o ∈ protos, njsObjectKeys N qsort o = []) (before : List (Obj H V)) :
    foreachLoop N qsort before protos = [] := by
  induction protos generalizing before with
  | nil => rfl
  | cons o protos ih =>
    rw [foreachLoop, ownNames_eq_nil (h o List.mem_cons_self),
      ih fun p hp => h p (List.mem_cons_of_mem o hp)]
    rfl

/-! ### Actions -/

/-- What a script does to an object, with the key: a property in its literal, a definition (in the
literal too, by `get` and `set`), an assignment or a deletion. -/
inductive Action (V F : Type)
  | init (k : UInt32) (v : V)
  | define (k : UInt32) (type : DefineType V F)
  | assign (k : UInt32) (v : V)
  | delete (k : UInt32) (thrw : Bool)

def Action.key : Action V F → UInt32
  | .init k _ | .define k _ | .assign k _ | .delete k _ => k

/-- An action, and the objects that are inherited from when it is taken. -/
structure Event (H V F : Type) where
  action : Action V F
  protos : List (Obj H V)

variable [DecidableEq F]

variable (N host) in
/-- What an action makes of an object. -/
def Event.run (e : Event H V F) (o : Obj H V) : Obj H V :=
  match e.action with
  | .init k v => (njsVmcodePropertyInit k v o : Obj H V × Outcome F).1
  | .define k type => (njsObjectPropDefine N host k type o).1
  | .assign k v => (njsValuePropertySet N host k v o e.protos).1.1
  | .delete k thrw => (njsValuePropertyDelete N host thrw k o).1

variable (N) in
/-- The condition on an action: its key is not `-0`, and a deleted key that is not an index is not
created again in place, by a definition or by an inherited handler. -/
def Event.Regular (e : Event H V F) (o : Obj H V) : Prop :=
  N.text e.action.key ≠ some (Text.lit "-0") ∧
    match e.action with
    | .init k _ | .define k _ => o.own k = none → k ∈ keys o.hash → ∃ n, N.IsIndex k n
    | .assign k _ => AssignsLast N k o e.protos
    | .delete _ _ => True

theorem Event.effect (hN : N.Lawful) (ho : o.Ordinary) {e : Event H V F} (he : e.Regular N o) :
    Effect N e.action.key o (e.run N host o) := by
  obtain ⟨action, protos⟩ := e
  cases action with
  | init k v => exact .store ho (ecw_noHandler v) rfl he.2
  | define k type => exact .define ho he.2 type
  | assign k v => exact .assign ho hN he.2 v
  | delete k thrw => exact .delete ho thrw

variable (N host) in
/-- An object, and its keys in the order in which they were last created. -/
def step (s : Obj H V × List UInt32) (e : Event H V F) : Obj H V × List UInt32 :=
  let o := e.run N host s.1
  (o, record (fun k => (o.own k).isSome) e.action.key s.2)

theorem ordered_step (hN : N.Lawful) {s : Obj H V × List UInt32} (hs : Ordered N s.1 s.2)
    {e : Event H V F} (he : e.Regular N s.1) :
    Ordered N (step N host s e).1 (step N host s e).2 :=
  hs.effect hN (e.effect hN hs.ordinary he) he.1

theorem ordered_run (hN : N.Lawful) (events : List (Event H V F)) :
    ∀ {s : Obj H V × List UInt32}, Ordered N s.1 s.2 →
      AllSteps (step N host) (fun s e => e.Regular N s.1) s events →
      Ordered N (events.foldl (step N host) s).1 (events.foldl (step N host) s).2 := by
  induction events with
  | nil => exact fun hs _ => hs
  | cons e events ih => exact fun hs h => ih (ordered_step hN hs h.1) h.2

/-- After a run of regular actions on an object that was created from a literal, the order of its
keys has exactly the keys of its own properties, and `Object.keys`, `Object.values`,
`Object.entries` and `for-in` list the enumerable ones among them: the indices, in increasing
order, and then the other keys in the order in which they were last created. -/
theorem run_lists (hN : N.Lawful) (qsort : Sorter UInt32) {sharedHash : H}
    (hshared : keys sharedHash = []) (events : List (Event H V F))
    (hregular : AllSteps (step N host) (fun s e => e.Regular N s.1) (literal sharedHash, [])
      events) :
    let o := (events.foldl (step N host) (literal sharedHash, [])).1
    let created := (events.foldl (step N host) (literal sharedHash, [])).2
    (∀ k, k ∈ created ↔ (o.own k).isSome = true) ∧ created.Nodup ∧
      ∃ ks, InOrder N (created.filter (o.enumerable N)) ks ∧
        njsObjectKeys N qsort o = ks.map N.name ∧
        ∀ (protos : List (Obj H V)) (call : F → Except Error V) (handle : Handler → V),
          njsObjectValues N host qsort call handle o protos =
              ks.mapM (o.valueOf host call handle) ∧
            njsObjectEntries N host qsort call handle o protos =
              (ks.mapM (o.valueOf host call handle)).map ((ks.map N.name).zip ·) ∧
            ∃ inherited, njsPropertyForeach N qsort o protos = ks.map N.name ++ inherited ∧
              ((∀ p ∈ protos, njsObjectKeys N qsort p = []) → inherited = []) := by
  intro o created
  have hs : Ordered N o created := ordered_run hN events (ordered_literal hshared) hregular
  have helements : elementNames o = [] := by
    rw [elementNames, hs.ordinary.kind]
  have hin := hs.inOrder hN qsort
  refine ⟨hs.mem_iff, hs.nodup, _, hin, ?_, fun protos call handle => ?_⟩
  · rw [njsObjectKeys, ownNames, helements, List.nil_append]
  have hvalues : valuesLoop N host call handle
      (njsGetOwnOrderedKeys N qsort enumerableStrings [] o) o protos = _ :=
    valuesLoop_ordinary hs.ordinary call handle protos _ fun k hk => ?_
  · refine ⟨hvalues, ?_, _, ?_, fun h => foreachLoop_eq_nil h [o]⟩
    · rw [njsObjectEntries, hvalues]
      rfl
    · rw [njsPropertyForeach, foreachLoop, ownNames, helements, List.nil_append]
      rfl
  · obtain ⟨indices, others, heq, hindices, -, hothers, -⟩ := hin
    rw [heq, List.mem_append, hindices, hothers, ← and_or_left] at hk
    exact own_of_enumerable (List.mem_filter.mp hk.1).2

end Order

/-! ### Two keys -/

/-- An object with two properties; the first is deleted, and another action follows. -/
def twoKeys (action : Action ℕ ℕ) : List (Event (FlatTable plainJunk) ℕ ℕ) :=
  [.init 1 10, .init 2 20, .delete 1 true, action].map (⟨·, []⟩)

def twoKeysRun (action : Action ℕ ℕ) : Obj (FlatTable plainJunk) ℕ × List UInt32 :=
  (twoKeys action).foldl (step plainNames plainHost) (literal empty, [])

theorem regular_twoKeys :
    AllSteps (step plainNames plainHost) (fun s e => e.Regular plainNames s.1)
      (literal empty, []) (twoKeys (.assign 1 30)) := by
  refine ⟨⟨by decide, fun _ hk => ?_⟩, ⟨by decide, fun _ hk => ?_⟩, ⟨by decide, trivial⟩,
    ⟨by decide, ?_⟩, trivial⟩
  · exact absurd hk (by decide)
  · exact absurd hk (by decide)
  · rintro _ _ ⟨p, hp, -⟩
    cases hp

/-- A key that is deleted and assigned again is the latest. -/
theorem run_lists_assign :
    let s := twoKeysRun (.assign 1 30)
    s.2 = [2, 1] ∧ ∃ ks, InOrder plainNames (s.2.filter (s.1.enumerable plainNames)) ks ∧
      njsObjectKeys plainNames .insertion s.1 = ks.map plainNames.name := by
  intro s
  obtain ⟨-, -, ks, hin, hkeys, -⟩ := run_lists lawful_plainNames .insertion
    (keys_empty : keys empty = []) (twoKeys (.assign 1 30)) regular_twoKeys
  exact ⟨by decide, ks, hin, hkeys⟩

theorem not_isIndex_plainNames (n : ℕ) : ¬plainNames.IsIndex 1 n ∧ ¬plainNames.IsIndex 2 n :=
  ⟨fun h => ne_decimal (by rfl) n (Option.some.inj h.1),
    fun h => ne_decimal (by rfl) n (Option.some.inj h.1)⟩

/-- A key that is deleted and defined again is listed at its old place. -/
theorem define_deleted_listed_first :
    let s := twoKeysRun (.define 1 (.descriptor (plainDescriptor 30)))
    s.2.filter (s.1.enumerable plainNames) = [2, 1] ∧
      njsObjectKeys plainNames .insertion s.1 = [plainNames.name 1, plainNames.name 2] ∧
      ¬∃ ks, InOrder plainNames (s.2.filter (s.1.enumerable plainNames)) ks ∧
        njsObjectKeys plainNames .insertion s.1 = ks.map plainNames.name := by
  intro s
  have hcreated : s.2.filter (s.1.enumerable plainNames) = [2, 1] := by decide
  have hkeys : njsObjectKeys plainNames .insertion s.1 =
      [plainNames.name 1, plainNames.name 2] := by
    decide
  refine ⟨hcreated, hkeys, ?_⟩
  rintro ⟨ks, ⟨indices, others, rfl, hindices, -, hothers, hsub⟩, heq⟩
  rw [hcreated] at hindices hothers hsub
  have hnone : indices = [] := by
    refine List.eq_nil_iff_forall_not_mem.mpr fun k hk => ?_
    obtain ⟨hk, n, hn⟩ := (hindices k).mp hk
    rcases List.mem_pair.mp hk with rfl | rfl
    · exact (not_isIndex_plainNames n).2 hn
    · exact (not_isIndex_plainNames n).1 hn
  have hone : (1 : UInt32) ∈ others :=
    (hothers 1).mpr ⟨by decide, fun ⟨n, hn⟩ => (not_isIndex_plainNames n).1 hn⟩
  have htwo : (2 : UInt32) ∈ others :=
    (hothers 2).mpr ⟨by decide, fun ⟨n, hn⟩ => (not_isIndex_plainNames n).2 hn⟩
  have hall : others = [2, 1] := by
    have hsubset : ([2, 1] : List UInt32) ⊆ others := by
      simpa using ⟨htwo, hone⟩
    exact hsub.eq_of_length_le (List.subperm_of_subset (by decide) hsubset).length_le
  rw [hnone, hall, hkeys] at heq
  exact absurd heq (by decide)

end Njs.Object
