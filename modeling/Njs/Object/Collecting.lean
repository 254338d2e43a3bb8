import Mathlib.Data.List.AList
import Njs.Object.Operations

/-!
# Properties that are collected while they change

`Object.values`, `Object.entries` and `Object.assign` list the keys of an object once and come to
them one after another, while accessors change the object. The loops of the code and those that
look each key up before they visit it are walks that differ in what becomes of a key.
-/

namespace Njs.Object

variable {O S K V F X : Type}

/-- Objects in a state that functions change. -/
structure Realm (O S K V F X : Type) where
  /-- The own properties in property order. -/
  own : O → S → AList fun _ : K => Property V F
  isSymbol : K → Bool
  inherited : O → S → K → Option (Property V F)
  undefined : V
  call : F → S → Except X V × S
  handle : Handler → S → Except X V × S
  /-- `njs_value_property_set` of the object that properties are assigned to. -/
  set : K → V → S → Except X Unit × S

inductive Stop (X : Type)
  | ok
  | exception (x : X)
  /-- `NJS_ERROR` without an exception. -/
  | error
  deriving DecidableEq

/-- The visited keys with their values, of which `Object.values` and `Object.entries` make their
lists, and how a loop ends. -/
@[ext]
structure Run (S K V X : Type) where
  log : List (K × Except X V)
  stop : Stop X
  state : S

/-- What becomes of a key at its turn. -/
inductive Turn
  | visit
  | skip
  | fail
  deriving DecidableEq

def walk (turn : K → S → Turn) (visit : K → S → Except X V × S) : List K → S → Run S K V X
  | [], s => ⟨[], .ok, s⟩
  | k :: ks, s =>
    match turn k s with
    | .skip => walk turn visit ks s
    | .fail => ⟨[], .error, s⟩
    | .visit =>
      match visit k s with
      | (.error x, s) => ⟨[(k, .error x)], .exception x, s⟩
      | (.ok v, s) => { walk turn visit ks s with log := (k, .ok v) :: (walk turn visit ks s).log }

/-- Unless it has stopped, a run goes on. -/
def Run.andThen (r : Run S K V X) (f : S → Run S K V X) : Run S K V X :=
  match r.stop with
  | .ok => { f r.state with log := r.log ++ (f r.state).log }
  | _ => r

namespace Realm

variable [DecidableEq K] (R : Realm O S K V F X) (o : O)

/-- `njs_property_query`. -/
def query (k : K) (s : S) : Option (Property V F) := ((R.own o s).lookup k).or (R.inherited o s k)

/-- `njs_value_property`, with `undefined` where the query declines. -/
def njsValueProperty (k : K) (s : S) : Except X V × S :=
  match (R.query o k s).map Property.read with
  | some (.value v) => (.ok v, s)
  | some (.call getter) => R.call getter s
  | some (.handler h) => R.handle h s
  | _ => (.ok R.undefined, s)

def isEnumerable (s : S) (k : K) : Bool := ((R.own o s).lookup k).any Property.enumerable

/-- `njs_get_own_ordered_keys` of strings. -/
def stringKeys (s : S) : List K := (R.own o s).keys.filter (!R.isSymbol ·)

/-- `njs_object_own_enumerate_object` for values and entries. -/
def njsObjectOwnEnumerateObject (s : S) : Run S K V X :=
  walk (fun k s => if (R.query o k s).isSome then .visit else .fail) (R.njsValueProperty o)
    ((R.stringKeys o s).filter (R.isEnumerable o s)) s

/-- A key that is there and enumerable is visited. -/
def turn (k : K) (s : S) : Turn := if R.isEnumerable o s k then .visit else .skip

/-- The values of the keys that are there and enumerable at their turn. -/
def enumerate (s : S) : Run S K V X :=
  walk (R.turn o) (R.njsValueProperty o) (R.stringKeys o s) s

/-- A property is read and set. -/
def assignKey (k : K) (s : S) : Except X V × S :=
  match R.njsValueProperty o k s with
  | (.ok v, s) => ((R.set k v s).1.map fun _ => v, (R.set k v s).2)
  | r => r

/-- `njs_object_assign`, where `turn` is what becomes of a key of a source. -/
def assignSources (turn : O → K → S → Turn) : List O → S → Run S K V X
  | [], s => ⟨[], .ok, s⟩
  | o :: os, s =>
    (walk (turn o) (R.assignKey o) (R.own o s).keys s).andThen (assignSources turn os)

/-- The query for an own property must find one. -/
def assignTurn (k : K) (s : S) : Turn :=
  match (R.own o s).lookup k with
  | none => .fail
  | some p => if p.enumerable then .visit else .skip

end Realm

/-! ### Steady keys -/

/-- A condition holds for each key at its turn. -/
def Steady (turn : K → S → Turn) (visit : K → S → Except X V × S) (C : K → S → Prop) :
    List K → S → Prop
  | [], _ => True
  | k :: ks, s =>
    C k s ∧
      match turn k s, visit k s with
      | .visit, (.error _, _) => True
      | .visit, (.ok _, s) => Steady turn visit C ks s
      | _, _ => Steady turn visit C ks s

section

variable {turn turn' : K → S → Turn} {visit : K → S → Except X V × S} {ks : List K} {s : S}

theorem mem_log (turn : K → S → Turn) {x : K × Except X V} (hx : x ∈ (walk turn visit ks s).log) :
    x.1 ∈ ks := by
  induction ks generalizing s with
  | nil => exact absurd hx List.not_mem_nil
  | cons k ks ih =>
    rw [walk] at hx
    cases ht : turn k s with
    | skip =>
      simp only [ht] at hx
      exact List.mem_cons_of_mem _ (ih hx)
    | fail =>
      simp only [ht] at hx
      exact absurd hx List.not_mem_nil
    | visit =>
      simp only [ht] at hx
      rcases hv : visit k s with ⟨_ | v, s'⟩ <;> simp only [hv, List.mem_cons] at hx
      · exact (hx.resolve_right List.not_mem_nil) ▸ List.mem_cons_self
      · rcases hx with rfl | hx
        · exact List.mem_cons_self
        · exact List.mem_cons_of_mem _ (ih hx)

theorem stop_ne_error (h : ∀ k s, turn k s ≠ .fail) (visit : K → S → Except X V × S) (ks : List K)
    (s : S) : (walk turn visit ks s).stop ≠ .error := by
  induction ks generalizing s with
  | nil => exact nofun
  | cons k ks ih =>
    rw [walk]
    cases ht : turn k s with
    | skip => exact ih s
    | fail => exact absurd ht (h k s)
    | visit => rcases hv : visit k s with ⟨_ | v, s'⟩ <;> simp [ih]

theorem walk_filter (p : K → Bool) : walk turn visit (ks.filter p) s =
      walk (fun k s => if p k then turn k s else .skip) visit ks s := by
  induction ks generalizing s with
  | nil => rfl
  | cons k ks ih =>
    cases hp : p k with
    | false => rw [List.filter_cons_of_neg (by simp [hp]), walk, ih, hp]; rfl
    | true =>
      rw [List.filter_cons_of_pos hp, walk, walk, hp]
      simp only [if_true, ih]

/-- Two walks over different keys, the second of which goes on to the end or to an exception, are
the same just if the turns are. -/
theorem walk_eq_iff (C : K → S → Prop) (hnodup : ks.Nodup) (hturn : ∀ k s, turn' k s ≠ .fail)
    (hC : ∀ k ∈ ks, ∀ s, C k s ↔ turn k s = turn' k s) :
    walk turn visit ks s = walk turn' visit ks s ↔ Steady turn' visit C ks s := by
  induction ks generalizing s with
  | nil => exact iff_of_true rfl trivial
  | cons k ks ih =>
    obtain ⟨hk, hnodup⟩ := List.nodup_cons.1 hnodup
    have ih := fun s => ih hnodup (fun k hk => hC k (List.mem_cons_of_mem _ hk)) (s := s)
    rw [Steady, hC k List.mem_cons_self]
    have hnot (turn : K → S → Turn) (s : S) {x : Except X V} :
        (k, x) ∉ (walk turn visit ks s).log := fun h => hk (mem_log turn h)
    by_cases heq : turn k s = turn' k s
    · rw [and_iff_right heq, walk, walk, heq]
      cases ht : turn' k s with
      | skip => exact ih s
      | fail => exact absurd ht (hturn k s)
      | visit =>
        rcases hv : visit k s with ⟨_ | v, s'⟩
        · exact iff_of_true rfl trivial
        · refine Iff.trans ⟨fun h => ?_, fun h => ?_⟩ (ih s')
          · obtain ⟨hlog, hrest⟩ := (Run.mk.injEq ..).mp h
            exact Run.ext (List.cons.inj hlog).2 hrest.1 hrest.2
          · simp only [h]
    refine iff_of_false (fun h => ?_) fun h => heq h.1
    have hskip {turn : K → S → Turn} (ht : turn k s = .skip) (x : Except X V) :
        (k, x) ∉ (walk turn visit (k :: ks) s).log := by
      rw [walk, ht]
      exact hnot turn s
    have hvisit {turn : K → S → Turn} (ht : turn k s = .visit) :
        ∃ x, (k, x) ∈ (walk turn visit (k :: ks) s).log := by
      rw [walk, ht]
      rcases visit k s with ⟨_ | v, s'⟩ <;> exact ⟨_, List.mem_cons_self⟩
    have hfail : turn k s ≠ .fail := fun ht =>
      stop_ne_error hturn visit (k :: ks) s (by rw [← h, walk, ht])
    cases ht' : turn' k s with
    | fail => exact hturn k s ht'
    | skip =>
      cases ht : turn k s with
      | skip => exact heq (ht.trans ht'.symm)
      | fail => exact hfail ht
      | visit =>
        obtain ⟨x, hx⟩ := hvisit ht
        exact hskip ht' x (h ▸ hx)
    | visit =>
      cases ht : turn k s with
      | visit => exact heq (ht.trans ht'.symm)
      | fail => exact hfail ht
      | skip =>
        obtain ⟨x, hx⟩ := hvisit ht'
        exact hskip ht x (h.symm ▸ hx)

/-- Without a failure a walk is one whose turns differ from its own in failures only. -/
theorem walk_eq_of_stop (h : ∀ k s, turn k s = turn' k s ∨ turn k s = .fail)
    (hstop : (walk turn visit ks s).stop ≠ .error) :
    walk turn visit ks s = walk turn' visit ks s := by
  induction ks generalizing s with
  | nil => rfl
  | cons k ks ih =>
    rw [walk] at hstop ⊢
    rcases h k s with ht | ht
    · rw [walk, ← ht]
      cases hk : turn k s with
      | skip => exact ih (by simpa only [hk] using hstop)
      | fail => rfl
      | visit =>
        rcases hv : visit k s with ⟨_ | v, s'⟩
        · rfl
        · simp only [hk, hv] at hstop ⊢
          rw [ih hstop]
    · exact absurd (by rw [ht]) hstop

end

section

variable {r : Run S K V X} {f g : S → Run S K V X}

theorem andThen_of_ok (h : r.stop = .ok) :
    r.andThen f = { f r.state with log := r.log ++ (f r.state).log } := by
  rw [Run.andThen, h]

theorem andThen_of_ne_ok (h : r.stop ≠ .ok) : r.andThen f = r := by
  rw [Run.andThen]
  split
  · exact absurd ‹_› h
  · rfl

theorem andThen_eq_iff : r.andThen f = r.andThen g ↔ (r.stop = .ok → f r.state = g r.state) := by
  by_cases h : r.stop = .ok
  · rw [andThen_of_ok h, andThen_of_ok h, Run.mk.injEq, List.append_cancel_left_eq]
    exact ⟨fun heq _ => Run.ext heq.1 heq.2.1 heq.2.2, fun heq => by simp [heq h]⟩
  · rw [andThen_of_ne_ok h, andThen_of_ne_ok h]
    exact iff_of_true rfl fun hok => absurd hok h

end

namespace Realm

variable [DecidableEq K] (R : Realm O S K V F X)

/-- At its turn, a key is enumerable just if it was at the start. -/
def SteadyValues (o : O) (s₀ : S) : Prop :=
  Steady (R.turn o) (R.njsValueProperty o) (fun k s => R.isEnumerable o s k = R.isEnumerable o s₀ k)
    (R.stringKeys o s₀) s₀

/-- The key is one of an own property. -/
def IsThere (o : O) (k : K) (s : S) : Prop := ((R.own o s).lookup k).isSome

/-- At its turn, each key of a source is there. -/
def SteadySources : List O → S → Prop
  | [], _ => True
  | o :: os, s =>
    Steady (R.turn o) (R.assignKey o) (R.IsThere o) (R.own o s).keys s ∧
      let r := walk (R.turn o) (R.assignKey o) (R.own o s).keys s
      r.stop = .ok → SteadySources os r.state

theorem turn_ne_fail (o : O) (k : K) (s : S) : R.turn o k s ≠ .fail := by
  rw [turn]
  split_ifs <;> exact nofun

theorem assignTurn_eq_iff (o : O) (k : K) (s : S) :
    R.IsThere o k s ↔ R.assignTurn o k s = R.turn o k s := by
  rw [IsThere, assignTurn, turn, isEnumerable]
  cases (R.own o s).lookup k with
  | none => exact iff_of_false Bool.false_ne_true nofun
  | some p => exact iff_of_true rfl rfl

theorem assignSources_stop (os : List O) (s : S) : (R.assignSources R.turn os s).stop ≠ .error := by
  induction os generalizing s with
  | nil => exact nofun
  | cons o os ih =>
    rw [assignSources]
    by_cases hok : (walk (R.turn o) (R.assignKey o) (R.own o s).keys s).stop = .ok
    · rw [andThen_of_ok hok]
      exact ih _
    · rw [andThen_of_ne_ok hok]
      exact stop_ne_error (R.turn_ne_fail o) _ _ s

theorem assignSources_iff (os : List O) (s : S) :
    R.assignSources R.assignTurn os s = R.assignSources R.turn os s ↔ R.SteadySources os s := by
  induction os generalizing s with
  | nil => exact iff_of_true rfl trivial
  | cons o os ih =>
    have hstop := R.assignSources_stop (o :: os) s
    rw [SteadySources, ← walk_eq_iff (R.IsThere o) (R.own o s).keys_nodup (R.turn_ne_fail o)
      fun k _ t => R.assignTurn_eq_iff o k t, assignSources]
    simp only [← ih]
    rw [← andThen_eq_iff]
    rw [assignSources] at hstop ⊢
    refine ⟨fun h => ?_, fun h => by rw [h.1, h.2]⟩
    have hfail (k : K) (t : S) : R.assignTurn o k t = R.turn o k t ∨ R.assignTurn o k t = .fail := by
      rw [assignTurn, turn, isEnumerable]
      cases (R.own o t).lookup k with
      | none => exact .inr rfl
      | some p => exact .inl rfl
    have hwalk := walk_eq_of_stop hfail fun herror => by
      rw [← h, andThen_of_ne_ok (by rw [herror]; exact nofun)] at hstop
      exact hstop herror
    exact ⟨hwalk, by rw [← h, hwalk]⟩

/-- `Object.values`, `Object.entries` and `Object.assign` visit the keys that are there and
enumerable at their turn just if the keys are steady. -/
theorem collects_iff :
    (∀ o s, R.njsObjectOwnEnumerateObject o s = R.enumerate o s ↔ R.SteadyValues o s) ∧
      ∀ os s, R.assignSources R.assignTurn os s = R.assignSources R.turn os s ↔
        R.SteadySources os s := by
  refine ⟨fun o s => ?_, R.assignSources_iff⟩
  rw [njsObjectOwnEnumerateObject, walk_filter]
  refine walk_eq_iff _ ((R.own o s).keys_nodup.filter _) (R.turn_ne_fail o) fun k _ t => ?_
  have hquery : R.isEnumerable o t k → (R.query o k t).isSome := by
    rw [isEnumerable, query]
    cases (R.own o t).lookup k with
    | none => exact fun h => absurd h Bool.false_ne_true
    | some p => exact fun _ => rfl
  rw [turn]
  cases R.isEnumerable o s k <;> cases ht : R.isEnumerable o t k
  · exact iff_of_true rfl rfl
  · exact iff_of_false nofun (by simp)
  · exact iff_of_false nofun (by cases (R.query o k t).isSome <;> simp)
  · exact iff_of_true rfl (by simp [hquery ht])

end Realm

/-- One object of which a getter deletes a key. -/
def erasing : Realm Unit (AList fun _ : ℕ => Property ℕ ℕ) ℕ ℕ ℕ Empty where
  own _ s := s
  isSymbol _ := false
  inherited _ _ _ := none
  undefined := 0
  call k s := (.ok 1, s.erase k)
  handle _ s := (.ok 0, s)
  set _ _ s := (.ok (), s)

/-- The getter of the key 1 deletes the key 2. -/
def twoKeysErased : AList fun _ : ℕ => Property ℕ ℕ :=
  (AList.insert 2 ⟨.value 5, true, true, true⟩ ∅).insert 1
    ⟨.accessor (some 2) none, true, true, false⟩

theorem not_collects :
    erasing.njsObjectOwnEnumerateObject () twoKeysErased ≠ erasing.enumerate () twoKeysErased ∧
      erasing.assignSources erasing.assignTurn [()] twoKeysErased ≠
        erasing.assignSources erasing.turn [()] twoKeysErased :=
  ⟨fun h => absurd (congrArg Run.stop h) (by decide +kernel),
    fun h => absurd (congrArg Run.stop h) (by decide +kernel)⟩

end Njs.Object
