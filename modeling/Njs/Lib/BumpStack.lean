import Mathlib.Algebra.BigOperators.Group.List.Basic
import Mathlib.Algebra.GroupWithZero.Nat

/-!
# Stacks in chunks of memory

Cells are put behind each other in a chunk as long as there is room; then another chunk is opened.
-/

namespace BumpStack

structure Cell where
  address : ℕ
  /-- The first address behind the cell. -/
  free : ℕ
  /-- What is left of the chunk. -/
  freeSize : ℕ
  /-- The size of the chunk if the cell is its first one. -/
  size : ℕ

/-- The end of the chunk. -/
def Cell.stop (c : Cell) : ℕ := c.free + c.freeSize

/-- The chunks that have been opened, each with its address and its size. -/
def chunks (cells : List Cell) : List (ℕ × ℕ) :=
  (cells.filter fun c => c.size ≠ 0).map fun c => (c.address, c.size)

/-- The memory that the chunks take. -/
def total (cells : List Cell) : ℕ := (cells.map Cell.size).sum

def Apart (c d : Cell) : Prop := c.free ≤ d.address ∨ d.free ≤ c.address

/-- The stacks, of which the top is the first cell. -/
inductive Nested : List Cell → Prop
  | nil : Nested []
  | bump {top : Cell} {cells : List Cell} {n : ℕ} (h : Nested (top :: cells)) (hpos : 0 < n)
      (hn : n ≤ top.freeSize) :
      Nested (⟨top.free, top.free + n, top.freeSize - n, 0⟩ :: top :: cells)
  /-- A chunk is opened in free memory. -/
  | chunk {cells : List Cell} {address size n : ℕ} (h : Nested cells) (hpos : 0 < n)
      (hn : n ≤ size)
      (hfree : ∀ c ∈ chunks cells, address + size ≤ c.1 ∨ c.1 + c.2 ≤ address) :
      Nested (⟨address, address + n, size - n, size⟩ :: cells)

variable {c top : Cell} {cells : List Cell}

theorem chunks_cons_of_pos (hsize : c.size ≠ 0) :
    chunks (c :: cells) = (c.address, c.size) :: chunks cells := by
  rw [chunks, List.filter_cons_of_pos (by simpa using hsize)]
  rfl

theorem chunks_cons_of_zero (hsize : c.size = 0) : chunks (c :: cells) = chunks cells := by
  rw [chunks, List.filter_cons_of_neg (by simpa using hsize)]
  rfl

theorem total_cons (c : Cell) (cells : List Cell) : total (c :: cells) = c.size + total cells :=
  List.sum_cons

namespace Nested

theorem tail (h : Nested (c :: cells)) : Nested cells := by
  cases h with
  | bump h => exact h
  | chunk h => exact h

theorem nonempty (h : Nested (c :: cells)) : c.address < c.free := by
  cases h with
  | bump h hpos => exact Nat.lt_add_of_pos_right hpos
  | chunk h hpos => exact Nat.lt_add_of_pos_right hpos

theorem in_chunk (h : Nested cells) :
    ∀ c ∈ cells, ∃ chunk ∈ chunks cells, chunk.1 ≤ c.address ∧ c.stop ≤ chunk.1 + chunk.2 := by
  induction h with
  | nil => exact fun c hc => absurd hc List.not_mem_nil
  | @bump top cells n h hpos hn ih =>
    rw [chunks_cons_of_zero rfl]
    intro c hc
    obtain rfl | hc := List.mem_cons.1 hc
    · obtain ⟨chunk, hchunk, hlow, hhigh⟩ := ih top List.mem_cons_self
      have hpos := h.nonempty
      refine ⟨chunk, hchunk, ?_, ?_⟩
      · dsimp only
        omega
      · rw [Cell.stop] at hhigh ⊢
        dsimp only
        omega
    · exact ih c hc
  | @chunk cells address size n h hpos hn hfree ih =>
    intro c hc
    rw [chunks_cons_of_pos (by dsimp only; omega)]
    obtain rfl | hc := List.mem_cons.1 hc
    · refine ⟨_, List.mem_cons_self, Nat.le_refl _, ?_⟩
      rw [Cell.stop]
      dsimp only
      omega
    · obtain ⟨chunk, hchunk, hin⟩ := ih c hc
      exact ⟨chunk, List.mem_cons_of_mem _ hchunk, hin⟩

theorem pairwise_beyond (h : Nested cells) :
    cells.Pairwise fun c d => c.stop ≤ d.address ∨ d.free ≤ c.address := by
  induction h with
  | nil => exact List.Pairwise.nil
  | @bump top cells n h hpos hn ih =>
    refine List.pairwise_cons.2 ⟨fun d hd => ?_, ih⟩
    have hbelow := (List.pairwise_cons.1 ih).1
    have htop := h.nonempty
    obtain rfl | hd := List.mem_cons.1 hd
    · exact Or.inr (Nat.le_refl _)
    · have hbeyond := hbelow d hd
      rw [Cell.stop] at hbeyond ⊢
      dsimp only
      omega
  | @chunk cells address size n h hpos hn hfree ih =>
    refine List.pairwise_cons.2 ⟨fun d hd => ?_, ih⟩
    obtain ⟨chunk, hchunk, hlow, hhigh⟩ := h.in_chunk d hd
    have hapart := hfree chunk hchunk
    rw [Cell.stop] at hhigh ⊢
    dsimp only
    omega

theorem pairwise_apart (h : Nested cells) : cells.Pairwise Apart :=
  h.pairwise_beyond.imp fun hbeyond =>
    hbeyond.imp_left fun hle => Nat.le_trans (Nat.le_add_right _ _) hle

theorem nonempty_of_mem (h : Nested cells) : ∀ c ∈ cells, c.address < c.free := by
  induction cells with
  | nil => exact fun c hc => absurd hc List.not_mem_nil
  | cons c cells ih => exact List.forall_mem_cons.2 ⟨h.nonempty, ih h.tail⟩

theorem pairwise_ne (h : Nested cells) : cells.Pairwise fun c d => c.address ≠ d.address := by
  refine h.pairwise_apart.imp_of_mem fun hc hd hapart heq => ?_
  have hcpos := h.nonempty_of_mem _ hc
  have hdpos := h.nonempty_of_mem _ hd
  rw [Apart] at hapart
  omega

end Nested

end BumpStack
