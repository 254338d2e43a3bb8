import Njs.SharedDict.Invariant

/-!
# Configuration reload

A reload starts workers with new settings on the shared memory of the old ones, and for a while
workers of both generations operate on one zone. `ngx_js_dict_init_zone` refuses a timeout where
there was none, and a change of type; it accepts the removal of the timeout. Workers without a
timeout do not maintain the expire tree, which those with one still sweep.
-/

namespace Njs.SharedDict

variable {ν : Type}

/-- `ngx_js_dict_init_zone` for a zone that is inherited from the settings `prev`. -/
def ngxJsDictInitZone (dict prev : Conf) : Rc :=
  if dict.timeout ≠ 0 ∧ prev.timeout = 0 then .error
  else if dict.type ≠ prev.type then .error
  else .ok

/-- The two generations of workers. -/
inductive Generation
  | old
  | new
  deriving DecidableEq

/-- The settings that a worker of a generation holds. -/
def Generation.conf (old new : Conf) : Generation → Conf
  | .old => old
  | .new => new

/-- An interleaving of operations of the two generations. -/
def runGenerations [Env ν] (old new : Conf) (steps : List (Generation × Step ν))
    (z : Zone ν) : Zone ν :=
  steps.foldl (fun z s => s.2.exec (s.1.conf old new) z) z

/-- Every node linked in the expire tree is a node of the main tree and is not freed. -/
def ExpireLive (z : Zone ν) : Prop :=
  ∀ a ∈ z.rbtreeExpire, a ∈ z.rbtree ∧ a ∈ z.chunks

instance (z : Zone ν) : Decidable (ExpireLive z) :=
  inferInstanceAs (Decidable (∀ a ∈ z.rbtreeExpire, a ∈ z.rbtree ∧ a ∈ z.chunks))

theorem Inv.expireLive {c : Conf} {z : Zone ν} (h : Inv c z [] []) : ExpireLive z :=
  fun _ ha => ⟨h.mem_of_expire ha,
    h.alloc.subset ((sublist_owned c z z.rbtree).subset (h.mem_of_expire ha))⟩

/-! ### Settings that agree about the expire tree -/

theorem Inv.ofConf {c c' : Conf} {z : Zone ν} {held out : List Addr} (h : Inv c z held out)
    (htype : c'.type = c.type) (ht : c'.timeout = 0 ↔ c.timeout = 0) : Inv c' z held out where
  keys := h.keys
  chunks := h.chunks
  alloc := by
    have hown : owned c' z z.rbtree = owned c z z.rbtree :=
      List.flatMap_congr fun a _ => by simp only [chunksOf, htype]
    rw [hown]
    exact h.alloc
  expire h0 := h.expire (mt ht.mpr h0)
  noExpire h0 := h.noExpire (ht.mp h0)

theorem Inv.runGenerations [Env ν] {old new : Conf} (htype : new.type = old.type)
    (ht : new.timeout = 0 ↔ old.timeout = 0) {z : Zone ν} (h : Inv old z [] [])
    (steps : List (Generation × Step ν)) :
    Inv old (runGenerations old new steps z) [] [] := by
  induction steps generalizing z with
  | nil => exact h
  | cons s steps ih =>
    obtain ⟨g, s⟩ := s
    refine ih ?_
    cases g with
    | old => exact h.step s
    | new => exact ((h.ofConf htype ht).step s).ofConf htype.symm ht.symm

/-! ### A reload that removes the timeout -/

section

variable [Env ν]

/-- A worker with the old settings stores an empty key. -/
def storeStep (c : Conf) : Step ν where
  op := .njs (.set .none []
    (match c.type with
    | .string => .string []
    | .number => .number Env.zero) none)
  now := 0
  slab := [fun _ => some 0, fun _ => some 1]

/-- A worker with the new settings deletes it. -/
def deleteStep : Step ν where
  op := .njs (.delete [])
  now := 0
  slab := []

theorem run_storeStep {c : Conf} (ht : c.timeout ≠ 0) (n : Node ν) :
    ((storeStep c).exec c (Zone.init n)).rbtree = [0] ∧
      ((storeStep c).exec c (Zone.init n)).rbtreeExpire = [0] ∧
      (((storeStep c).exec c (Zone.init n)).node 0).key = [] := by
  cases htype : c.type <;> cases hev : c.evict <;>
    simp [storeStep, Step.exec, Op.exec, njsCall, njsJsExtSharedDictSet, njsSetArgs, njsCheckValue,
      njsTimeout, ngxJsDictSet, ngxJsDictLookup, ngxJsDictAddValue, sweepFirst, ht, htype, hev,
      ngxJsDictExpire, ngxJsDictExpireLoop, ngxJsDictAlloc, Zone.slabAlloc, Zone.init,
      Zone.withSlab, linkNode, setExpire]

theorem rbtreeExpire_deleteStep {c : Conf} (ht : c.timeout = 0) (z : Zone ν) :
    (deleteStep.exec c z).rbtreeExpire = z.rbtreeExpire := by
  simp only [deleteStep, Step.exec, Op.exec, njsCall, njsJsExtSharedDictDelete, ngxJsDictDelete]
  split
  · rfl
  · simp [outOfExpire, ht, nodeFree_eq, Zone.withSlab]

theorem rbtree_deleteStep {c : Conf} {z : Zone ν} (htree : z.rbtree = [0])
    (hkey : (z.node 0).key = []) : (deleteStep.exec c z).rbtree = [] := by
  have hlookup : ngxJsDictLookup (z.withSlab []) [] = some 0 := by
    simp [ngxJsDictLookup, Zone.withSlab, htree, hkey]
  have hout : (outOfExpire c 0 (z.withSlab [])).rbtree = [0] := by
    unfold outOfExpire
    split <;> exact htree
  simp [deleteStep, Step.exec, Op.exec, njsCall, njsJsExtSharedDictDelete, ngxJsDictDelete,
    hlookup, nodeFree_eq, hout]

/-- A reload that `ngx_js_dict_init_zone` accepts keeps every node of the expire tree linked in
the main tree and allocated, in every interleaving of the operations of both generations,
exactly when it does not remove the timeout. -/
theorem reload_expireLive_iff {old new : Conf} (h : ngxJsDictInitZone new old = .ok) (n : Node ν) :
    (∀ steps, ExpireLive (runGenerations old new steps (Zone.init n))) ↔
      (new.timeout = 0 → old.timeout = 0) := by
  have haccept : (new.timeout ≠ 0 → old.timeout ≠ 0) ∧ new.type = old.type := by
    unfold ngxJsDictInitZone at h
    split_ifs at h with h₁ h₂
    exact ⟨fun hn ho => h₁ ⟨hn, ho⟩, not_not.mp h₂⟩
  constructor
  · intro hruns hnew
    by_contra hold
    obtain ⟨htree, hexpire, hkey⟩ := run_storeStep hold n
    have hlive := hruns [(.old, storeStep old), (.new, deleteStep)]
    have hlinked : 0 ∈ (deleteStep.exec new ((storeStep old).exec old
        (Zone.init n))).rbtreeExpire := by
      rw [rbtreeExpire_deleteStep hnew, hexpire]
      exact List.mem_singleton_self 0
    have hmem := (hlive 0 hlinked).1
    change 0 ∈ (deleteStep.exec new ((storeStep old).exec old (Zone.init n))).rbtree at hmem
    rw [rbtree_deleteStep htree hkey] at hmem
    exact absurd hmem List.not_mem_nil
  · intro hnew steps
    have ht : new.timeout = 0 ↔ old.timeout = 0 :=
      ⟨hnew, fun ho => by_contra fun hn => haccept.1 hn ho⟩
    exact (Inv.runGenerations haccept.2 ht (Inv.init old n) steps).expireLive

end

/-- `minuteConf` without its timeout. -/
def noTimeoutConf : Conf where
  timeout := 0
  evict := false
  type := .string
  stateFile := false
  evict_timeout := nofun

/-- An old worker stores a key and a new worker deletes it: the freed node stays in the expire
tree. -/
theorem reload_dangling : ngxJsDictInitZone noTimeoutConf minuteConf = .ok ∧
    ¬ ExpireLive (runGenerations minuteConf noTimeoutConf
      [(.old, storeStep minuteConf), (.new, deleteStep)] (Zone.init blankNode)) := by
  decide

/-- A reload that keeps the settings is safe. -/
theorem reload_minute : ngxJsDictInitZone minuteConf minuteConf = .ok ∧
    ∀ steps, ExpireLive (runGenerations minuteConf minuteConf steps (Zone.init blankNode)) :=
  ⟨by decide, (@reload_expireLive_iff JsNumber _ minuteConf minuteConf (by decide) blankNode).mpr id⟩

end Njs.SharedDict
