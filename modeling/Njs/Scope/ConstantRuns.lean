import Njs.Lib.Runs
import Njs.Scope.Constants

/-!
# Constants and their indices

Every index that is handed out leads to the constant that it has been handed out for, just if no
string is looked up by the bytes of another value or the other way round.
-/

namespace Njs.Scope

open Text

/-! ### Keys -/

theorem lt_pow_eight (n : UInt64) : n.toNat < 256 ^ 8 := n.toNat_lt

theorem image_inj {v v' : Value} (h : v.image = v'.image) : v.constant.type = v'.constant.type ∧
      (if v.constant.truth then (1 : UInt8) else 0) = (if v'.constant.truth then 1 else 0) ∧
        v.constant.bits = v'.constant.bits := by
  rw [Value.image, Value.image] at h
  obtain ⟨hrest, hbits⟩ := List.append_inj' h (by rw [length_leBytes, length_leBytes])
  obtain ⟨hrest, -⟩ := List.append_inj' hrest (by rw [length_leBytes, length_leBytes])
  obtain ⟨-, hrest⟩ := List.append_inj' hrest rfl
  rw [List.cons.injEq, List.cons.injEq] at hrest
  exact ⟨hrest.1, hrest.2.1,
    UInt64.toNat_inj.mp (leBytes_inj (lt_pow_eight _) (lt_pow_eight _) hbits)⟩

theorem key_of_string {v : Value} {s : Bytes} (h : v.constant = .string s) : v.key = s := by
  rw [Value.key, h]

theorem key_of_not_string {v : Value} (h : v.constant.isString = false) : v.key = v.image := by
  rw [Value.key]
  split
  · rename_i s hs
    rw [hs] at h
    cases h
  · rfl

theorem constant_eq_of_fields {c c' : Constant} (hc : c.isString = false)
    (hc' : c'.isString = false) (htype : c.type = c'.type) (htruth : c.truth = c'.truth)
    (hbits : c.bits = c'.bits) : c = c' := by
  cases c <;> cases c' <;>
    simp_all [Constant.isString, Constant.type, Constant.truth, Constant.bits]

theorem constant_eq_of_key {v v' : Value} (h : v.key = v'.key)
    (hkind : v.constant.isString = v'.constant.isString) : v.constant = v'.constant := by
  cases hstring : v.constant.isString with
  | true =>
    rw [hstring] at hkind
    cases hc : v.constant with
    | string s =>
      cases hc' : v'.constant with
      | string s' => rw [← key_of_string hc, ← key_of_string hc', h]
      | _ => simp [hc', Constant.isString] at hkind
    | _ => simp [hc, Constant.isString] at hstring
  | false =>
    rw [hstring] at hkind
    rw [key_of_not_string hstring, key_of_not_string hkind.symm] at h
    obtain ⟨htype, htruth, hbits⟩ := image_inj h
    refine constant_eq_of_fields hstring hkind.symm htype ?_ hbits
    cases ht : v.constant.truth <;> cases ht' : v'.constant.truth <;>
      first | rfl | (rw [ht, ht'] at htruth; exact absurd htruth (by decide))

/-! ### Memory -/

/-- Cells are kept; only the atom of a number may change. -/
def Extends (m m' : Memory) : Prop :=
  ∀ (id : ℕ) (cell : Cell), m.cells[id]? = some cell →
    ∃ cell', m'.cells[id]? = some cell' ∧ cell'.index = cell.index ∧
      cell'.value.constant = cell.value.constant

theorem Extends.refl (m : Memory) : Extends m m := fun _ cell h => ⟨cell, h, rfl, rfl⟩

theorem Extends.lt {m m' : Memory} (h : Extends m m') {id : ℕ} (hid : id < m.cells.length) :
    id < m'.cells.length := by
  obtain ⟨cell, hcell, -⟩ := h id _ (List.getElem?_eq_getElem hid)
  exact (List.getElem?_eq_some_iff.mp hcell).1

/-- The cell has the index of its place in the array, or the array was too long for one. -/
def Placed (absolute : List ℕ) (id : ℕ) (cell : Cell) : Prop :=
  match cell.index with
  | some index => absolute[njsScopeIndexValue index]? = some id
  | none => njsScopeValueMax < absolute.length

/-- The hashes of a VM lead to cells that stand in its array. -/
structure VmOk (m : Memory) (vm : Vm) : Prop where
  bounded : ∀ id, id ∈ m.shared ∨ id ∈ vm.valuesHash ∨ id ∈ vm.scopeAbsolute → id < m.cells.length
  placed : ∀ id, id ∈ m.shared ∨ id ∈ vm.valuesHash → ∀ cell, m.cells[id]? = some cell →
    Placed vm.scopeAbsolute id cell

variable {m m' : Memory} {vm : Vm}

theorem Placed.mono {l l' : List ℕ} (hl : l <+: l') {id : ℕ} {cell cell' : Cell}
    (hindex : cell'.index = cell.index) (h : Placed l id cell) : Placed l' id cell' := by
  rw [Placed, hindex]
  rw [Placed] at h
  cases hcell : cell.index with
  | none =>
    rw [hcell] at h
    exact Nat.lt_of_lt_of_le h hl.length_le
  | some index =>
    rw [hcell] at h
    obtain ⟨t, rfl⟩ := hl
    exact (List.getElem?_append_left (List.getElem?_eq_some_iff.mp h).1).trans h

theorem VmOk.of_extends (ok : VmOk m vm) (hext : Extends m m') (hshared : m'.shared = m.shared) :
    VmOk m' vm where
  bounded id hid := hext.lt (ok.bounded id (hshared ▸ hid))
  placed id hid cell hcell := by
    rw [hshared] at hid
    have hlt := ok.bounded id (by tauto)
    obtain ⟨cell', hcell', hindex, -⟩ := hext id _ (List.getElem?_eq_getElem hlt)
    rw [hcell, Option.some.injEq] at hcell'
    subst hcell'
    exact (ok.placed id hid _ (List.getElem?_eq_getElem hlt)).mono List.prefix_rfl hindex

/-! ### Looking up and handing out -/

/-- A constant is not found as one of the other kind that has an index. -/
def Clean (m : Memory) (vm : Vm) (src : Value) (runtime : Bool) : Prop :=
  ∀ id ∈ lookup m vm src runtime, ∀ cell, m.cells[id]? = some cell → cell.index.isSome = true →
    cell.value.constant.isString = src.constant.isString

theorem find_spec {cells : List Cell} {hash : List ℕ} {key : Bytes} {id : ℕ}
    (h : find cells hash key = some id) :
    id ∈ hash ∧ ∃ cell, cells[id]? = some cell ∧ cell.value.key = key := by
  refine ⟨List.mem_of_find?_eq_some h, ?_⟩
  have htest := List.find?_some h
  rw [Option.any_eq_true] at htest
  obtain ⟨cell, hcell, htest⟩ := htest
  rw [Bool.and_eq_true, decide_eq_true_eq, decide_eq_true_eq] at htest
  exact ⟨cell, hcell, htest.2⟩

theorem lookup_spec {src : Value} {runtime : Bool} {id : ℕ}
    (h : lookup m vm src runtime = some id) :
    (id ∈ m.shared ∨ id ∈ vm.valuesHash) ∧
      ∃ cell, m.cells[id]? = some cell ∧ cell.value.key = src.key := by
  rw [lookup, Option.or_eq_some_iff] at h
  rcases h with h | ⟨-, h⟩
  · obtain ⟨hmem, hcell⟩ := find_spec h
    exact ⟨.inl hmem, hcell⟩
  · split_ifs at h
    obtain ⟨hmem, hcell⟩ := find_spec h
    exact ⟨.inr hmem, hcell⟩

theorem scopeIndexValue {n i : ℕ} (h : njsScopeIndex n = some i) : njsScopeIndexValue i = n := by
  rw [njsScopeIndex] at h
  split_ifs at h
  cases h
  rw [njsScopeIndexValue, Nat.shiftRight_or_distrib, Nat.shiftRight_or_distrib,
    Nat.shiftLeft_shiftRight]
  simp [njsLevelStatic, njsVariableVar]

theorem VmOk.place {id : ℕ} {cell : Cell} (hcell : m.cells[id]? = some cell)
    (hbounded : ∀ id, id ∈ m.shared ∨ id ∈ vm.valuesHash ∨ id ∈ vm.scopeAbsolute →
      id < m.cells.length)
    (hplaced : ∀ id', id' ≠ id → id' ∈ m.shared ∨ id' ∈ vm.valuesHash →
      ∀ cell, m.cells[id']? = some cell → Placed vm.scopeAbsolute id' cell) :
    VmOk { m with cells := m.cells.modify id fun cell =>
        { cell with index := njsScopeIndex vm.scopeAbsolute.length } }
      { vm with scopeAbsolute := vm.scopeAbsolute ++ [id], ownLevel := true } where
  bounded id' hid' := by
    rw [List.length_modify]
    rcases hid' with hid' | hid' | hid'
    · exact hbounded id' (.inl hid')
    · exact hbounded id' (.inr (.inl hid'))
    · obtain hid' | hid' := List.mem_append.mp hid'
      · exact hbounded id' (.inr (.inr hid'))
      · obtain rfl := List.mem_singleton.mp hid'
        exact (List.getElem?_eq_some_iff.mp hcell).1
  placed id' hid' cell' hcell' := by
    rw [List.getElem?_modify] at hcell'
    by_cases heq : id = id'
    · subst heq
      rw [hcell] at hcell'
      simp only [if_true, Option.map_eq_map, Option.map_some, Option.some.injEq] at hcell'
      subst hcell'
      rw [Placed]
      cases hindex : njsScopeIndex vm.scopeAbsolute.length with
      | some index =>
        simp only
        rw [scopeIndexValue hindex, List.getElem?_concat_length]
      | none =>
        rw [njsScopeIndex] at hindex
        split_ifs at hindex with hfull
        simp only [List.length_append, List.length_singleton]
        omega
    · simp only [if_neg heq, id_map'] at hcell'
      exact (hplaced id' (Ne.symm heq) hid' cell' hcell').mono (List.prefix_append _ _) rfl

/-- What `njs_scope_global_index` does: it keeps the cells and the array, and hands out the index of
a cell, whose constant is the right one if the constant is not found as one of the other kind. -/
structure Interned (m : Memory) (vm : Vm) (src : Value) (runtime : Bool) (m' : Memory) (vm' : Vm)
    (r : Option ℕ) : Prop where
  ok : VmOk m' vm'
  extends_memory : Extends m m'
  shared : runtime = true → m'.shared = m.shared
  level : vm.scopeAbsolute <+: vm'.scopeAbsolute
  own : vm'.ownLevel = false → vm'.scopeAbsolute = vm.scopeAbsolute ∧ vm.ownLevel = false
  index : ∀ i ∈ r, ∃ id cell, vm'.scopeAbsolute[njsScopeIndexValue i]? = some id ∧
    m'.cells[id]? = some cell ∧ (cell.value.constant = src.constant ↔ Clean m vm src runtime)
  none : r = none → Clean m vm src runtime

theorem extends_modify (id : ℕ) (index : Option ℕ)
    (h : ∀ cell, m.cells[id]? = some cell → cell.index = index) :
    Extends m { m with cells := m.cells.modify id fun cell => { cell with index := index } } := by
  intro id' cell hcell
  rw [List.getElem?_modify, hcell]
  by_cases heq : id = id'
  · subst heq
    exact ⟨_, rfl, by simp [h cell hcell], by simp⟩
  · exact ⟨cell, by simp [heq], rfl, rfl⟩

theorem globalIndex_found (ok : VmOk m vm) {src : Value} {runtime : Bool} {id : ℕ}
    (hlookup : lookup m vm src runtime = some id) :
    Interned m vm src runtime (njsScopeGlobalIndex m vm src runtime).1.1
      (njsScopeGlobalIndex m vm src runtime).1.2 (njsScopeGlobalIndex m vm src runtime).2 := by
  obtain ⟨hid, cell, hcell, hkey⟩ := lookup_spec hlookup
  have hplaced := ok.placed id hid cell hcell
  have hvalue : njsScopeValueIndex m vm src runtime = ((m, vm), id) := by
    rw [njsScopeValueIndex, hlookup]
  rw [njsScopeGlobalIndex, hvalue]
  simp only [hcell, Option.bind_some]
  rw [Placed] at hplaced
  cases hindex : cell.index with
  | some index =>
    rw [hindex] at hplaced
    refine ⟨ok, Extends.refl m, fun _ => rfl, List.prefix_rfl, fun h => ⟨rfl, h⟩, ?_,
      fun h => nomatch h⟩
    rintro i ⟨⟩
    refine ⟨id, cell, hplaced, hcell, fun heq => ?_, fun hclean => ?_⟩
    · rintro id' hid' cell' hcell' -
      obtain rfl := Option.some.inj (hlookup.symm.trans hid')
      obtain rfl := Option.some.inj (hcell.symm.trans hcell')
      rw [heq]
    · exact constant_eq_of_key hkey (hclean id hlookup cell hcell (by rw [hindex]; rfl))
  | none =>
    rw [hindex] at hplaced
    have hnone : njsScopeIndex vm.scopeAbsolute.length = none := by
      rw [njsScopeIndex, if_pos hplaced]
    simp only [hnone]
    have hok := VmOk.place hcell ok.bounded fun id' _ hid' => ok.placed id' hid'
    rw [hnone] at hok
    refine ⟨hok, ?_, fun _ => rfl, List.prefix_append _ _, fun h => (nomatch h),
      fun i hi => (nomatch hi), fun _ => ?_⟩
    · refine extends_modify id none fun cell' hcell' => ?_
      obtain rfl := Option.some.inj (hcell.symm.trans hcell')
      exact hindex
    · intro id' hid' cell' hcell' hsome
      obtain rfl := Option.some.inj (hlookup.symm.trans hid')
      obtain rfl := Option.some.inj (hcell.symm.trans hcell')
      rw [hindex] at hsome
      cases hsome

theorem place_new (ok : VmOk m vm) (src : Value) (shared values : List ℕ)
    (hshared : ∀ id ∈ shared, id ∈ m.shared ∨ id = m.cells.length)
    (hvalues : ∀ id ∈ values, id ∈ vm.valuesHash ∨ id = m.cells.length) {m' : Memory} {vm' : Vm}
    (hm : m' = ⟨(m.cells ++ [(⟨src, Atom.njsDjbHash src.key, none⟩ : Cell)]).modify m.cells.length
      fun cell => { cell with index := njsScopeIndex vm.scopeAbsolute.length }, shared⟩)
    (hvm : vm' = ⟨values, vm.scopeAbsolute ++ [m.cells.length], true⟩) :
    VmOk m' vm' ∧ Extends m m' ∧ m'.cells[m.cells.length]? =
      some ⟨src, Atom.njsDjbHash src.key, njsScopeIndex vm.scopeAbsolute.length⟩ := by
  have hold : ∀ id, id ∈ shared ∨ id ∈ values → id ≠ m.cells.length →
      id ∈ m.shared ∨ id ∈ vm.valuesHash := by
    rintro id (hid | hid) hne
    · exact .inl ((hshared id hid).resolve_right hne)
    · exact .inr ((hvalues id hid).resolve_right hne)
  have hplace := @VmOk.place ⟨m.cells ++ [⟨src, Atom.njsDjbHash src.key, none⟩], shared⟩
    ⟨values, vm.scopeAbsolute, vm.ownLevel⟩ m.cells.length _ List.getElem?_concat_length
    (by
      intro id hid
      rw [List.length_append, List.length_singleton]
      by_cases hne : id = m.cells.length
      · omega
      have hlt := ok.bounded id (by
        rcases hid with hid | hid | hid
        · exact (hold id (.inl hid) hne).imp_right .inl
        · exact (hold id (.inr hid) hne).imp_right .inl
        · exact .inr (.inr hid))
      omega)
    (by
      intro id hne hid cell hcell
      have hid' := hold id hid hne
      have hlt := ok.bounded id (hid'.imp_right .inl)
      rw [List.getElem?_append_left hlt] at hcell
      exact ok.placed id hid' cell hcell)
  subst hm hvm
  refine ⟨hplace, fun id cell hcell => ⟨cell, ?_, rfl, rfl⟩, ?_⟩
  · have hlt := (List.getElem?_eq_some_iff.mp hcell).1
    show ((m.cells ++ [(⟨src, Atom.njsDjbHash src.key, none⟩ :
      Cell)]).modify m.cells.length _)[id]? = _
    rw [List.getElem?_modify, List.getElem?_append_left hlt, hcell]
    simp [Nat.ne_of_gt hlt]
  · show ((m.cells ++ [(⟨src, Atom.njsDjbHash src.key, none⟩ :
      Cell)]).modify m.cells.length _)[_]? = _
    rw [List.getElem?_modify, List.getElem?_concat_length]
    simp

theorem globalIndex_new (ok : VmOk m vm) {src : Value} {runtime : Bool}
    (hlookup : lookup m vm src runtime = none) :
    Interned m vm src runtime (njsScopeGlobalIndex m vm src runtime).1.1
      (njsScopeGlobalIndex m vm src runtime).1.2 (njsScopeGlobalIndex m vm src runtime).2 := by
  have hclean : Clean m vm src runtime := fun id hid => by
    rw [hlookup] at hid
    cases hid
  rw [njsScopeGlobalIndex, njsScopeValueIndex, hlookup]
  cases runtime with
  | true =>
    simp only [if_true, List.getElem?_concat_length, Option.bind_some]
    obtain ⟨hok, hext, hcell⟩ := place_new ok src m.shared (m.cells.length :: vm.valuesHash)
      (fun _ h => .inl h) (fun id hid => (List.mem_cons.mp hid).symm) rfl rfl
    refine ⟨hok, hext, fun _ => rfl, List.prefix_append _ _, fun h => (nomatch h), fun i hi => ?_,
      fun _ => hclean⟩
    refine ⟨m.cells.length, _, ?_, hcell, iff_of_true rfl hclean⟩
    rw [scopeIndexValue hi, List.getElem?_concat_length]
  | false =>
    simp only [Bool.false_eq_true, if_false, List.getElem?_concat_length, Option.bind_some]
    obtain ⟨hok, hext, hcell⟩ := place_new ok src (m.cells.length :: m.shared) vm.valuesHash
      (fun id hid => (List.mem_cons.mp hid).symm) (fun _ h => .inl h) rfl rfl
    refine ⟨hok, hext, fun h => (nomatch h), List.prefix_append _ _, fun h => (nomatch h),
      fun i hi => ?_, fun _ => hclean⟩
    refine ⟨m.cells.length, _, ?_, hcell, iff_of_true rfl hclean⟩
    rw [scopeIndexValue hi, List.getElem?_concat_length]

theorem globalIndex_spec (ok : VmOk m vm) (src : Value) (runtime : Bool) :
    Interned m vm src runtime (njsScopeGlobalIndex m vm src runtime).1.1
      (njsScopeGlobalIndex m vm src runtime).1.2 (njsScopeGlobalIndex m vm src runtime).2 := by
  cases hlookup : lookup m vm src runtime with
  | none => exact globalIndex_new ok hlookup
  | some id => exact globalIndex_found ok hlookup

/-! ### A VM and its clones -/

def readIn (m : Memory) (absolute : List ℕ) (index : ℕ) : Option Constant :=
  absolute[njsScopeIndexValue index]?.bind fun id => m.cells[id]?.map fun cell =>
    cell.value.constant

theorem readIn_mono (hext : Extends m m') {l l' : List ℕ} (hl : l <+: l') {index : ℕ}
    {c : Constant} (h : readIn m l index = some c) : readIn m' l' index = some c := by
  obtain ⟨id, hid, hcell⟩ := Option.bind_eq_some_iff.mp h
  obtain ⟨cell, hget, rfl⟩ := Option.map_eq_some_iff.mp hcell
  obtain ⟨t, rfl⟩ := hl
  obtain ⟨cell', hcell', -, hconst⟩ := hext id cell hget
  rw [readIn, List.getElem?_append_left (List.getElem?_eq_some_iff.mp hid).1, hid, Option.bind_some,
    hcell', Option.map_some, hconst]

theorem readIn_eq {l : List ℕ} {index id : ℕ} {cell : Cell}
    (hid : l[njsScopeIndexValue index]? = some id) (hcell : m.cells[id]? = some cell) :
    readIn m l index = some cell.value.constant := by
  rw [readIn, hid, Option.bind_some, hcell, Option.map_some]

namespace World

def vmOf (w : World) : Option ℕ → Option Vm
  | none => some w.vm
  | some k => w.clones[k]?

/-- The hashes of all VMs lead to cells that stand in their arrays, the arrays of clones begin like
that of the VM, and every index that has been handed out leads to a constant. -/
structure Ok (w : World) : Prop where
  vm : VmOk w.memory w.vm
  clones : ∀ vm ∈ w.clones, VmOk w.memory vm ∧ w.vm.scopeAbsolute <+: vm.scopeAbsolute ∧
    (vm.ownLevel = false → vm.scopeAbsolute = w.vm.scopeAbsolute)
  events : ∀ e ∈ w.events, ∃ c, w.read e.who e.index = some c

def Good (w : World) : Prop := ∀ e ∈ w.events, w.read e.who e.index = some e.constant

variable {w w' : World}

theorem read_some {k : ℕ} {vm : Vm} (hget : w.clones[k]? = some vm)
    (hown : vm.ownLevel = false → vm.scopeAbsolute = w.vm.scopeAbsolute) (index : ℕ) :
    w.read (some k) index = readIn w.memory vm.scopeAbsolute index := by
  rw [read, cellAt, level, hget, Option.map_some, Option.bind_some]
  cases hlevel : vm.ownLevel with
  | true => rfl
  | false =>
    rw [hown hlevel]
    rfl

theorem Ok.read_eq (ok : w.Ok) {who : Option ℕ} {vm : Vm} (hvm : w.vmOf who = some vm)
    (index : ℕ) : w.read who index = readIn w.memory vm.scopeAbsolute index := by
  cases who with
  | none =>
    cases hvm
    rfl
  | some k =>
    have hget : w.clones[k]? = some vm := hvm
    exact read_some hget (ok.clones vm (List.mem_of_getElem? hget)).2.2 index

theorem vmOf_of_read {who : Option ℕ} {index : ℕ} {c : Constant} (h : w.read who index = some c) :
    ∃ vm, w.vmOf who = some vm := by
  cases who with
  | none => exact ⟨w.vm, rfl⟩
  | some k =>
    rw [read, cellAt, level] at h
    cases hget : w.clones[k]? with
    | none =>
      rw [hget] at h
      cases h
    | some vm => exact ⟨vm, hget⟩

/-- What a step keeps: cells, and the beginnings of all arrays. -/
def Keeps (w w' : World) : Prop :=
  Extends w.memory w'.memory ∧ ∀ who vm, w.vmOf who = some vm →
    ∃ vm', w'.vmOf who = some vm' ∧ vm.scopeAbsolute <+: vm'.scopeAbsolute

theorem Keeps.read (hkeeps : Keeps w w') (ok : w.Ok) (ok' : ∀ vm ∈ w'.clones,
      vm.ownLevel = false → vm.scopeAbsolute = w'.vm.scopeAbsolute) {who : Option ℕ} {index : ℕ}
    {c : Constant} (h : w.read who index = some c) : w'.read who index = some c := by
  obtain ⟨vm, hvm⟩ := vmOf_of_read h
  obtain ⟨vm', hvm', hprefix⟩ := hkeeps.2 who vm hvm
  rw [ok.read_eq hvm] at h
  have hread := readIn_mono hkeeps.1 hprefix h
  cases who with
  | none =>
    cases hvm'
    exact hread
  | some k =>
    have hget : w'.clones[k]? = some vm' := hvm'
    rwa [read_some hget (ok' vm' (List.mem_of_getElem? hget))]

theorem good_record (ok : w.Ok) (hread : ∀ who index c, w.read who index = some c →
      w'.read who index = some c) (who : Option ℕ) (constant : Constant) {r : Option ℕ}
    (hevents : w'.events = record w.events who constant r) {clean : Prop}
    (hindex : ∀ i ∈ r, ∃ c, w'.read who i = some c ∧ (c = constant ↔ clean))
    (hnone : r = none → clean) :
    (∀ e ∈ w'.events, ∃ c, w'.read e.who e.index = some c) ∧ (w'.Good ↔ w.Good ∧ clean) := by
  have hold : (∀ e ∈ w.events, w'.read e.who e.index = some e.constant) ↔ w.Good := by
    refine forall₂_congr fun e he => ⟨fun h => ?_, hread _ _ _⟩
    obtain ⟨c, hc⟩ := ok.events e he
    rw [hread _ _ _ hc] at h
    rw [hc, h]
  have hall : ∀ e ∈ w.events, ∃ c, w'.read e.who e.index = some c := fun e he => by
    obtain ⟨c, hc⟩ := ok.events e he
    exact ⟨c, hread _ _ _ hc⟩
  rw [Good, hevents]
  cases r with
  | none => exact ⟨hall, by rw [record, hold, and_iff_left (hnone rfl)]⟩
  | some i =>
    obtain ⟨c, hc, hiff⟩ := hindex i rfl
    rw [record]
    constructor
    · intro e he
      obtain he | he := List.mem_append.mp he
      · exact hall e he
      · exact List.mem_singleton.mp he ▸ ⟨c, hc⟩
    · rw [List.forall_mem_append, hold, List.forall_mem_singleton, hc, Option.some.injEq, hiff]

theorem intern_step (ok : w.Ok) (hclones : w.clones = []) (src : Value) (runtime : Bool) :
    (w.intern src runtime).Ok ∧
      ((w.intern src runtime).Good ↔ w.Good ∧ Clean w.memory w.vm src runtime) := by
  have hint := globalIndex_spec ok.vm src runtime
  have heq : w.intern src runtime = { w with
        memory := (njsScopeGlobalIndex w.memory w.vm src runtime).1.1
        vm := (njsScopeGlobalIndex w.memory w.vm src runtime).1.2
        events := record w.events none src.constant
          (njsScopeGlobalIndex w.memory w.vm src runtime).2 } := rfl
  generalize njsScopeGlobalIndex w.memory w.vm src runtime = r at hint heq
  obtain ⟨⟨m', vm'⟩, index⟩ := r
  generalize w.intern src runtime = w' at heq
  subst heq
  simp only at hint
  have hnone : ∀ vm ∈ w.clones, ∀ p : Prop, p := fun vm hvm => by
    rw [hclones] at hvm
    cases hvm
  have hkeeps : ∀ events, Keeps w ⟨m', vm', w.clones, events⟩ := by
    refine fun _ => ⟨hint.extends_memory, fun who vm hvm => ?_⟩
    cases who with
    | none =>
      cases hvm
      exact ⟨_, rfl, hint.level⟩
    | some k => exact hnone vm (List.mem_of_getElem? hvm) _
  obtain ⟨hevents, hgood⟩ := good_record ok
    (fun _ _ _ => (hkeeps _).read ok fun vm hvm => hnone vm hvm _) none src.constant rfl
    (fun i hi => by
      obtain ⟨id, cell, hid, hcell, hiff⟩ := hint.index i hi
      exact ⟨_, readIn_eq hid hcell, hiff⟩)
    hint.none
  exact ⟨⟨hint.ok, fun vm hvm => hnone vm hvm _, hevents⟩, hgood⟩

theorem internClone_step (ok : w.Ok) (k : ℕ) (src : Value) : (w.internClone k src).Ok ∧
      ((w.internClone k src).Good ↔ w.Good ∧ ∀ vm ∈ w.clones[k]?, Clean w.memory vm src true) := by
  cases hget : w.clones[k]? with
  | none =>
    rw [internClone, hget]
    exact ⟨ok, (and_iff_left fun _ h => nomatch h).symm⟩
  | some vm =>
    obtain ⟨hvm, hprefix, hown⟩ := ok.clones vm (List.mem_of_getElem? hget)
    have hint := globalIndex_spec hvm src true
    have hk := (List.getElem?_eq_some_iff.mp hget).1
    have heq : w.internClone k src = { w with
          memory := (njsScopeGlobalIndex w.memory vm src true).1.1
          clones := w.clones.set k (njsScopeGlobalIndex w.memory vm src true).1.2
          events := record w.events (some k) src.constant
            (njsScopeGlobalIndex w.memory vm src true).2 } := by
      rw [internClone, hget]
    generalize njsScopeGlobalIndex w.memory vm src true = r at hint heq
    obtain ⟨⟨m', vm'⟩, index⟩ := r
    generalize w.internClone k src = w' at heq
    subst heq
    simp only at hint
    have hclones : ∀ vm₁ ∈ w.clones.set k vm', VmOk m' vm₁ ∧
        w.vm.scopeAbsolute <+: vm₁.scopeAbsolute ∧
          (vm₁.ownLevel = false → vm₁.scopeAbsolute = w.vm.scopeAbsolute) := by
      intro vm₁ hvm₁
      obtain hvm₁ | rfl := List.mem_or_eq_of_mem_set hvm₁
      · obtain ⟨hvm₁, hrest⟩ := ok.clones vm₁ hvm₁
        exact ⟨hvm₁.of_extends hint.extends_memory (hint.shared rfl), hrest⟩
      · refine ⟨hint.ok, hprefix.trans hint.level, fun hfalse => ?_⟩
        obtain ⟨hsame, hfalse⟩ := hint.own hfalse
        rw [hsame, hown hfalse]
    have hkeeps : ∀ events, Keeps w ⟨m', w.vm, w.clones.set k vm', events⟩ := by
      refine fun _ => ⟨hint.extends_memory, fun who vm₁ hvm₁ => ?_⟩
      cases who with
      | none =>
        cases hvm₁
        exact ⟨_, rfl, List.prefix_rfl⟩
      | some j =>
        have hj : w.clones[j]? = some vm₁ := hvm₁
        by_cases hkj : k = j
        · subst hkj
          obtain rfl := Option.some.inj (hget.symm.trans hj)
          exact ⟨vm', List.getElem?_set_self hk, hint.level⟩
        · exact ⟨vm₁, (List.getElem?_set_ne hkj).trans hj, List.prefix_rfl⟩
    have hset : (w.clones.set k vm')[k]? = some vm' := List.getElem?_set_self hk
    have hown' := (hclones vm' (List.mem_of_getElem? hset)).2.2
    have hread : ∀ events i, World.read ⟨m', w.vm, w.clones.set k vm', events⟩ (some k) i =
        readIn m' vm'.scopeAbsolute i := fun events i =>
      read_some (w := ⟨m', w.vm, w.clones.set k vm', events⟩) hset hown' i
    obtain ⟨hevents, hgood⟩ := good_record ok
      (fun _ _ _ => (hkeeps (record w.events (some k) src.constant index)).read ok
        fun vm₁ h => (hclones vm₁ h).2.2) (some k) src.constant rfl
      (fun i hi => by
        obtain ⟨id, cell, hid, hcell, hiff⟩ := hint.index i hi
        exact ⟨_, (hread _ i).trans (readIn_eq hid hcell), hiff⟩)
      hint.none
    refine ⟨⟨ok.vm.of_extends hint.extends_memory (hint.shared rfl), hclones, hevents⟩,
      hgood.trans (and_congr_right fun _ => ?_)⟩
    exact ⟨fun h vm₁ hvm₁ => Option.some.inj hvm₁ ▸ h, fun h => h vm rfl⟩

theorem atomize_step (ok : w.Ok) (who : Option ℕ) (index : ℕ) (atomId : UInt32) :
    (w.atomize who index atomId).Ok ∧ ((w.atomize who index atomId).Good ↔ w.Good) ∧
      (w.atomize who index atomId).clones = w.clones := by
  rw [atomize]
  cases w.cellAt who index with
  | none => exact ⟨ok, Iff.rfl, rfl⟩
  | some id =>
    have hcell : ∀ cell : Cell, (cell.atomize atomId).index = cell.index ∧
        (cell.atomize atomId).value.constant = cell.value.constant := by
      intro cell
      rw [Cell.atomize]
      split <;> exact ⟨rfl, rfl⟩
    have hext : Extends w.memory
        { w.memory with cells := w.memory.cells.modify id (Cell.atomize atomId) } := by
      intro id' cell hid'
      rw [List.getElem?_modify, hid']
      by_cases heq : id = id'
      · exact ⟨_, rfl, by simp [heq, hcell cell], by simp [heq, hcell cell]⟩
      · exact ⟨cell, by simp [heq], rfl, rfl⟩
    have hkeeps : Keeps w { w with
        memory := { w.memory with cells := w.memory.cells.modify id (Cell.atomize atomId) } } :=
      ⟨hext, fun who vm hvm => ⟨vm, by cases who <;> exact hvm, List.prefix_rfl⟩⟩
    obtain ⟨hevents, hgood⟩ := good_record (r := none) ok
      (fun _ _ _ => hkeeps.read ok fun vm h => (ok.clones vm h).2.2) none .null rfl
      (fun _ h => nomatch h)
      (fun _ => trivial)
    refine ⟨⟨ok.vm.of_extends hext rfl, fun vm hvm => ?_, hevents⟩,
      hgood.trans (and_iff_left trivial), rfl⟩
    obtain ⟨hvm, hrest⟩ := ok.clones vm hvm
    exact ⟨hvm.of_extends hext rfl, hrest⟩

theorem clone_step (ok : w.Ok) : (w.after .clone).Ok ∧ ((w.after .clone).Good ↔ w.Good) := by
  have hclone : VmOk w.memory (njsVmClone w.vm) := by
    refine ⟨fun id hid => ok.vm.bounded id ?_, fun id hid => ok.vm.placed id ?_⟩
    · rcases hid with hid | hid | hid
      · exact .inl hid
      · cases hid
      · exact .inr (.inr hid)
    · exact .inl (hid.resolve_right fun h => nomatch h)
  have hclones : ∀ vm ∈ w.clones ++ [njsVmClone w.vm], VmOk w.memory vm ∧
      w.vm.scopeAbsolute <+: vm.scopeAbsolute ∧
        (vm.ownLevel = false → vm.scopeAbsolute = w.vm.scopeAbsolute) := by
    intro vm hvm
    obtain hvm | hvm := List.mem_append.mp hvm
    · exact ok.clones vm hvm
    · obtain rfl := List.mem_singleton.mp hvm
      exact ⟨hclone, List.prefix_rfl, fun _ => rfl⟩
  have hkeeps : Keeps w (w.after .clone) := by
    refine ⟨Extends.refl _, fun who vm hvm => ⟨vm, ?_, List.prefix_rfl⟩⟩
    cases who with
    | none => exact hvm
    | some k =>
      have hget : w.clones[k]? = some vm := hvm
      exact (List.getElem?_append_left (List.getElem?_eq_some_iff.mp hget).1).trans hget
  obtain ⟨hevents, hgood⟩ := good_record (r := none) ok
    (fun _ _ _ => hkeeps.read ok fun vm h => (hclones vm h).2.2) none .null rfl
    (fun _ h => nomatch h)
    (fun _ => trivial)
  exact ⟨⟨ok.vm, hclones, hevents⟩, hgood.trans (and_iff_left trivial)⟩

/-! ### Runs -/

/-- Every index leads to its constant, at any later time, in the VM that it has been handed out by
and, if that is the VM that is cloned, in all clones; and indices of one VM are the same only for
the same constant. -/
def Faithful (w : World) : Prop :=
  ∀ e ∈ w.events, ∀ who, (e.who = none ∨ e.who = who) → (w.vmOf who).isSome = true →
    w.read who e.index = some e.constant ∧
    ∀ e' ∈ w.events, (e'.who = none ∨ e'.who = who) → e'.index = e.index → e'.constant = e.constant

/-- The condition on a step before the VM is cloned. -/
def CleanBefore (w : World) : Before → Prop
  | .intern src runtime => Clean w.memory w.vm src runtime
  | .atomize _ _ => True

/-- The condition on a step from the first clone on. -/
def CleanAfter (w : World) : After → Prop
  | .intern k src => ∀ vm ∈ w.clones[k]?, Clean w.memory vm src true
  | .clone => True
  | .atomize _ _ _ => True

def CleanRun (before : List Before) (after : List After) : Prop :=
  Runs.AllSteps World.before CleanBefore create before ∧
    Runs.AllSteps World.after CleanAfter (before.foldl World.before create) after

theorem before_step (ok : w.Ok ∧ w.clones = []) (a : Before) :
    ((w.before a).Ok ∧ (w.before a).clones = []) ∧
      ((w.before a).Good ↔ w.Good ∧ w.CleanBefore a) := by
  cases a with
  | intern src runtime =>
    obtain ⟨hok, hgood⟩ := intern_step ok.1 ok.2 src runtime
    exact ⟨⟨hok, ok.2⟩, hgood⟩
  | atomize index atomId =>
    obtain ⟨hok, hgood, hclones⟩ := atomize_step ok.1 none index atomId
    exact ⟨⟨hok, hclones.trans ok.2⟩, hgood.trans (and_iff_left trivial).symm⟩

theorem after_step (ok : w.Ok) (a : After) :
    (w.after a).Ok ∧ ((w.after a).Good ↔ w.Good ∧ w.CleanAfter a) := by
  cases a with
  | clone =>
    obtain ⟨hok, hgood⟩ := clone_step ok
    exact ⟨hok, hgood.trans (and_iff_left trivial).symm⟩
  | intern k src => exact internClone_step ok k src
  | atomize who index atomId =>
    obtain ⟨hok, hgood, -⟩ := atomize_step ok who index atomId
    exact ⟨hok, hgood.trans (and_iff_left trivial).symm⟩

theorem empty_ok : World.Ok {} where
  vm := ⟨fun _ h => (by simp at h), fun _ h => (by simp at h)⟩
  clones := fun _ h => nomatch h
  events := fun _ h => nomatch h

theorem create_ok : (World.create.Ok ∧ World.create.clones = []) ∧ World.create.Good := by
  obtain ⟨hok, hgood⟩ := intern_step empty_ok rfl { constant := .undefined } false
  refine ⟨⟨hok, rfl⟩, hgood.mpr ⟨fun _ h => (nomatch h), fun id hid => ?_⟩⟩
  cases hid

theorem Ok.faithful_iff (ok : w.Ok) : w.Faithful ↔ w.Good := by
  constructor
  · intro h e he
    obtain ⟨c, hc⟩ := ok.events e he
    obtain ⟨vm, hvm⟩ := vmOf_of_read hc
    exact (h e he e.who (.inr rfl) (by rw [hvm]; rfl)).1
  intro h
  have hread : ∀ e ∈ w.events, ∀ who, (e.who = none ∨ e.who = who) →
      (w.vmOf who).isSome = true → w.read who e.index = some e.constant := by
    intro e he who hwho hsome
    have hgood := h e he
    rcases hwho with hnone | rfl
    · cases who with
      | none => rwa [hnone] at hgood
      | some k =>
        obtain ⟨vm, hvm⟩ := Option.isSome_iff_exists.mp hsome
        have hget : w.clones[k]? = some vm := hvm
        rw [hnone] at hgood
        rw [ok.read_eq hvm]
        exact readIn_mono (Extends.refl _) (ok.clones vm (List.mem_of_getElem? hget)).2.1 hgood
    · exact hgood
  intro e he who hwho hsome
  refine ⟨hread e he who hwho hsome, fun e' he' hwho' hindex => ?_⟩
  have heq := hread e' he' who hwho' hsome
  rw [hindex, hread e he who hwho hsome] at heq
  exact (Option.some.inj heq).symm

end World

end Njs.Scope
