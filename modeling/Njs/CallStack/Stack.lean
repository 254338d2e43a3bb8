import Njs.CallStack.Run

/-!
# What becomes of the frames
-/

namespace Njs.CallStack

open BumpStack

variable {mpAlign : List (ℕ × ℕ) → ℕ → Option ℕ} {max : ℕ} {vm vm' : Vm} {F : Frame}
  {below : List Frame}

/-- The pool gives memory that is free. -/
def Fresh (mpAlign : List (ℕ × ℕ) → ℕ → Option ℕ) : Prop :=
  ∀ chunks size address, mpAlign chunks size = some address →
    ∀ c ∈ chunks, address + size ≤ c.1 ∨ c.1 + c.2 ≤ address

/-- The stack is in order: the frames are in chunks, the pool has given just these, and the rest
of the stack is spare. -/
structure Laid (max : ℕ) (vm : Vm) : Prop where
  nested : Nested (vm.frames.map Frame.toCell)
  pool : vm.pool = chunks (vm.frames.map Frame.toCell)
  account : vm.spare + total (vm.frames.map Frame.toCell) = max

namespace Laid

theorem accounted (h : Laid max vm) : vm.Accounted max := ⟨h.nested.pairwise_apart, h.account⟩

theorem ext (h : Laid max vm) (h' : Laid max vm') (hframes : vm.frames = vm'.frames)
    (hactive : vm.active = vm'.active) (hlevels : vm.levels = vm'.levels) : vm = vm' := by
  obtain ⟨frames, active, levels, spare, pool⟩ := vm
  obtain ⟨frames', active', levels', spare', pool'⟩ := vm'
  obtain rfl : frames = frames' := hframes
  obtain rfl : active = active' := hactive
  obtain rfl : levels = levels' := hlevels
  obtain rfl : pool = pool' := h.pool.trans h'.pool.symm
  obtain rfl : spare = spare' := Nat.add_right_cancel (h.account.trans h'.account.symm)
  rfl

theorem of_cells (h : Laid max vm)
    (hcells : vm'.frames.map Frame.toCell = vm.frames.map Frame.toCell)
    (hspare : vm'.spare = vm.spare) (hpool : vm'.pool = vm.pool) : Laid max vm' where
  nested := hcells ▸ h.nested
  pool := by rw [hcells, hpool, h.pool]
  account := by rw [hcells, hspare, h.account]

theorem with_levels (h : Laid max vm) (levels : ℕ × ℕ) : Laid max { vm with levels := levels } :=
  h.of_cells rfl rfl rfl

theorem leave (h : Laid max vm) (hframes : vm.frames = F :: below) :
    Laid max (leave F vm) ∧ (CallStack.leave F vm).frames = below ∧
      (CallStack.leave F vm).active = (if F.native then vm.active else F.previousActive) ∧
      (CallStack.leave F vm).levels = vm.levels := by
  obtain ⟨hnested, hpool, haccount⟩ := h
  rw [hframes, List.map_cons] at hnested hpool haccount
  have htail : (njsVmScopesRestore F vm).frames = below := by
    rw [njsVmScopesRestore, hframes, List.dropWhile_cons_of_neg (by simp), List.tail_cons]
  rw [total_cons] at haccount
  by_cases hsize : F.size ≠ 0
  · have hleave : CallStack.leave F vm = { njsVmScopesRestore F vm with
        spare := vm.spare + F.size
        pool := vm.pool.eraseP fun chunk => chunk.1 = F.address } := if_pos hsize
    rw [chunks_cons_of_pos hsize] at hpool
    rw [hleave]
    refine ⟨⟨?_, ?_, ?_⟩, htail, rfl, rfl⟩
    · dsimp only
      rw [htail]
      exact hnested.tail
    · dsimp only
      rw [htail, hpool, List.eraseP_cons_of_pos (by simp)]
    · dsimp only
      rw [htail]
      omega
  · have hleave : CallStack.leave F vm = njsVmScopesRestore F vm := if_neg hsize
    have hzero := not_not.1 hsize
    rw [chunks_cons_of_zero hzero] at hpool
    rw [hleave]
    refine ⟨⟨?_, ?_, ?_⟩, htail, rfl, rfl⟩
    · rw [htail]
      exact hnested.tail
    · rw [htail]
      exact hpool
    · rw [htail]
      exact haccount ▸ (by rw [hzero, Nat.zero_add]; rfl)

end Laid

/-! ### New frames -/

theorem openChunk_spec (hfresh : Fresh mpAlign) (h : Laid max vm) {size : ℕ} (hsize : 0 < size)
    (halloc : njsFunctionFrameAlloc.openChunk mpAlign vm size = some vm') :
    Laid max vm' ∧ (∃ cell, vm'.frames = Frame.zero cell :: vm.frames) ∧
      vm'.active = vm.active ∧ vm'.levels = vm.levels := by
  obtain ⟨hnested, hpool, haccount⟩ := h
  rw [njsFunctionFrameAlloc.openChunk] at halloc
  generalize hspare : njsAlignSize (size + njsFrameSpareSize) njsFrameSpareSize = n at halloc
  have hn : size ≤ n := by
    rw [← hspare, njsAlignSize, njsFrameSpareSize]
    omega
  by_cases hlarge : vm.spare < n
  · rw [if_pos hlarge] at halloc
    exact absurd halloc.symm (Option.some_ne_none _)
  rw [if_neg hlarge] at halloc
  rcases hgiven : mpAlign vm.pool n with _ | address
  · rw [hgiven] at halloc
    exact absurd halloc.symm (Option.some_ne_none _)
  rw [hgiven] at halloc
  obtain rfl := Option.some.inj halloc
  refine ⟨⟨?_, ?_, ?_⟩, ⟨_, rfl⟩, rfl, rfl⟩
  · exact hnested.chunk hsize hn (hpool ▸ hfresh _ _ _ hgiven)
  · dsimp only [Vm.push]
    rw [List.map_cons, chunks_cons_of_pos (by dsimp only [Frame.zero]; omega), hpool]
    rfl
  · dsimp only [Vm.push]
    rw [List.map_cons, total_cons]
    dsimp only [Frame.zero]
    omega

theorem njsFunctionFrameAlloc_spec (hfresh : Fresh mpAlign) (h : Laid max vm) {size : ℕ}
    (hsize : 0 < size) (halloc : njsFunctionFrameAlloc mpAlign vm size = some vm') :
    Laid max vm' ∧ (∃ cell, vm'.frames = Frame.zero cell :: vm.frames) ∧
      vm'.active = vm.active ∧ vm'.levels = vm.levels := by
  rw [njsFunctionFrameAlloc] at halloc
  rcases hframes : vm.frames with _ | ⟨top, frames⟩
  · rw [hframes] at halloc
    rw [← hframes]
    exact openChunk_spec hfresh h hsize halloc
  rw [hframes] at halloc
  rw [← hframes]
  dsimp only at halloc
  by_cases hroom : size ≤ top.freeSize
  · rw [if_pos hroom] at halloc
    obtain rfl := Option.some.inj halloc
    obtain ⟨hnested, hpool, haccount⟩ := h
    refine ⟨⟨?_, ?_, ?_⟩, ⟨_, rfl⟩, rfl, rfl⟩
    · dsimp only [Vm.push]
      rw [hframes] at hnested ⊢
      exact hnested.bump hsize hroom
    · exact hpool.trans (chunks_cons_of_zero rfl).symm
    · dsimp only [Vm.push]
      rw [List.map_cons, total_cons]
      dsimp only [Frame.zero]
      omega
  · rw [if_neg hroom] at halloc
    exact openChunk_spec hfresh h hsize halloc

/-- A frame that is passed over after an exception, while that of another function is active. -/
def Skipped (active : Option ℕ) (f : Frame) : Prop :=
  some f.address ≠ active ∧ (f.native = true ∨ (f.tries = 0 ∧ f.previousActive = active))

/-- The stack is in order, and the active frame is on it. -/
structure Good (max : ℕ) (vm : Vm) : Prop extends Laid max vm where
  active : ∃ F ∈ vm.frames, vm.active = some F.address

theorem address_ne_of_cons (h : Laid max vm) (hframes : vm.frames = F :: below) :
    ∀ f ∈ below, F.address ≠ f.address := by
  have hne := h.nested.pairwise_ne
  rw [hframes, List.map_cons, List.pairwise_cons] at hne
  exact fun f hf => hne.1 f.toCell (List.mem_map_of_mem hf)

theorem njsFunctionFrameAlloc_mapTop (hfresh : Fresh mpAlign) (h : Good max vm) {size : ℕ}
    (hsize : 0 < size) (halloc : njsFunctionFrameAlloc mpAlign vm size = some vm')
    (g : Frame → Frame) (hg : ∀ f, (g f).toCell = f.toCell) :
    Good max (vm'.mapTop g) ∧ (vm'.mapTop g).active = vm.active ∧
      (vm'.mapTop g).levels = vm.levels ∧
      ∃ cell, some cell.address ≠ vm.active ∧
        (vm'.mapTop g).frames = g (Frame.zero cell) :: vm.frames := by
  obtain ⟨F, hF, hF'⟩ := h.active
  obtain ⟨hlaid, ⟨cell, hframes⟩, hactive, hlevels⟩ :=
    njsFunctionFrameAlloc_spec hfresh h.toLaid hsize halloc
  have hmap : vm'.mapTop g = { vm' with frames := g (Frame.zero cell) :: vm.frames } := by
    rw [Vm.mapTop, hframes]
  have hlaid' : Laid max (vm'.mapTop g) := by
    refine hlaid.of_cells ?_ (by rw [hmap]) (by rw [hmap])
    rw [hmap, hframes, List.map_cons, List.map_cons, hg]
  have hne := address_ne_of_cons hlaid hframes F hF
  rw [hmap] at hlaid' ⊢
  refine ⟨⟨hlaid', F, List.mem_cons_of_mem _ hF, hactive.trans hF'⟩, hactive, hlevels, cell, ?_,
    rfl⟩
  rw [hF']
  exact fun heq => hne (Option.some.inj heq)

theorem njsFunctionFrame_spec (hfresh : Fresh mpAlign) (h : Good max vm) {f : Code .function}
    (hframe : njsFunctionFrame mpAlign vm f = some vm') :
    Good max vm' ∧ vm'.active = vm.active ∧ vm'.levels = vm.levels ∧
      ∃ P, vm'.frames = P :: vm.frames ∧ Skipped vm.active P ∧ P.native = f.isNative ∧
        (f.isNative = false → P.tries = 0 ∧ P.previousActive = vm.active) := by
  have hpos {m n : ℕ} (hm : 0 < m) : 0 < m + n := Nat.add_pos_left hm n
  cases f with
  | nativeFunction nargs code =>
    obtain ⟨vm₁, halloc, rfl⟩ := Option.map_eq_some_iff.1 hframe
    obtain ⟨hgood, hactive, hlevels, cell, hne, hframes⟩ :=
      njsFunctionFrameAlloc_mapTop hfresh h (hpos (by decide)) halloc
        (fun frame => { frame with native := true }) fun _ => rfl
    exact ⟨hgood, hactive, hlevels, _, hframes, ⟨hne, Or.inl rfl⟩, rfl,
      fun h => absurd h Bool.noConfusion⟩
  | lambdaFunction lambda nargs body =>
    obtain ⟨vm₁, halloc, rfl⟩ := Option.map_eq_some_iff.1 hframe
    obtain ⟨hgood, hactive, hlevels, cell, hne, hframes⟩ :=
      njsFunctionFrameAlloc_mapTop hfresh h (hpos (by decide)) halloc
        (fun frame => { frame with
          native := false
          locals := frame.address + njsFrameSize + (Nat.max nargs lambda.nargs) * pointerSize
          closures := lambda.closures
          tries := 0
          previousActive := vm.active }) fun _ => rfl
    exact ⟨hgood, hactive, hlevels, _, hframes, ⟨hne, Or.inr ⟨rfl, rfl⟩⟩, rfl, fun _ => ⟨rfl, rfl⟩⟩

/-! ### Exceptions -/

/-- What the interpreter leaves after an exception, when the frame of the running function is `F`:
it is the top frame, if it has a handler or is that of the global code; else it is taken off. -/
structure Unwound (max : ℕ) (vm : Vm) (F : Frame) (below : List Frame) (caught : Bool)
    (vm' : Vm) : Prop where
  laid : Laid max vm'
  levels : vm'.levels = vm.levels
  frames : (caught = true ∧ F.tries ≠ 0 ∧ vm'.frames = F :: below ∧ vm'.active = vm.active) ∨
    (caught = false ∧ F.tries = 0 ∧ below = [] ∧ vm'.frames = [F] ∧ vm'.active = vm.active) ∨
    (caught = false ∧ F.tries = 0 ∧ below ≠ [] ∧ vm'.frames = below ∧ vm'.active = F.previousActive)

theorem errorLoop_spec {above : List Frame} (h : Laid max vm)
    (hframes : vm.frames = above ++ F :: below) (hactive : vm.active = some F.address)
    (hnative : F.native = false) (habove : ∀ f ∈ above, Skipped vm.active f) :
    Unwound max vm F below (errorLoop vm vm.frames).1 (errorLoop vm vm.frames).2 := by
  induction above generalizing vm with
  | nil =>
    rw [hframes, List.nil_append, errorLoop]
    by_cases htries : F.tries ≠ 0
    · rw [if_pos ⟨hnative, htries⟩]
      exact ⟨h, rfl, Or.inl ⟨rfl, htries, hframes, rfl⟩⟩
    rw [if_neg fun hcatch => htries hcatch.2]
    have hzero := not_not.1 htries
    by_cases hbelow : below = []
    · rw [if_pos (List.isEmpty_iff.2 hbelow)]
      exact ⟨h, rfl, Or.inr (Or.inl ⟨rfl, hzero, hbelow, hbelow ▸ hframes, rfl⟩)⟩
    obtain ⟨hlaid, hrest, hprevious, hlevels⟩ := h.leave hframes
    rw [if_neg fun hempty => hbelow (List.isEmpty_iff.1 hempty)]
    dsimp only
    rw [decide_eq_true hactive, if_pos rfl]
    rw [hnative, if_neg Bool.false_ne_true] at hprevious
    exact ⟨hlaid, hlevels, Or.inr (Or.inr ⟨rfl, hzero, hbelow, hrest, hprevious⟩)⟩
  | cons f above ih =>
    obtain ⟨⟨hne, hskip⟩, habove⟩ := List.forall_mem_cons.1 habove
    rw [List.cons_append] at hframes
    obtain ⟨hlaid, hrest, hprevious, hlevels⟩ := h.leave hframes
    have hsame : (leave f vm).active = vm.active := by
      rw [hprevious]
      obtain hf | ⟨-, hf⟩ := hskip
      · rw [hf, if_pos rfl]
      · rw [hf, ite_self]
    have hno : ¬(f.native = false ∧ f.tries ≠ 0) := by
      rintro ⟨hf, htries⟩
      obtain hf' | ⟨hf', -⟩ := hskip
      · exact Bool.false_ne_true (hf.symm.trans hf')
      · exact htries hf'
    have hempty : ¬(above ++ F :: below).isEmpty = true := by
      rw [List.isEmpty_iff, List.append_eq_nil_iff]
      exact fun hnil => List.cons_ne_nil _ _ hnil.2
    have hrec := ih hlaid hrest (hsame.trans hactive) (hsame ▸ habove)
    rw [hframes, errorLoop, if_neg hno, if_neg hempty]
    dsimp only
    rw [decide_eq_false fun heq => hne heq.symm, if_neg Bool.false_ne_true, ← hrest]
    obtain ⟨hlaid', hlevels', hends⟩ := hrec
    rw [hsame] at hends
    exact ⟨hlaid', hlevels'.trans hlevels, hends⟩

end Njs.CallStack
