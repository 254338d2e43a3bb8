import Mathlib.Data.List.GetD
import Njs.Lib.Text

/-!
# Memory

A block of memory has a byte at each place. Copies and fills are writes of lists of bytes.
-/

abbrev Memory : Type := ℕ → UInt8

namespace Memory

/-- One byte is stored. -/
def set (m : Memory) (p : ℕ) (b : UInt8) : Memory := fun q => if q = p then b else m q

def write (m : Memory) (p : ℕ) (l : Bytes) : Memory :=
  fun q => if p ≤ q then l.getD (q - p) (m q) else m q

def read (m : Memory) (p n : ℕ) : Bytes := (List.range n).map fun i => m (p + i)

variable {m m' : Memory} {p q : ℕ} {l : Bytes}

@[simp] theorem length_read (m : Memory) (p n : ℕ) : (m.read p n).length = n := by
  rw [read, List.length_map, List.length_range]

theorem getElem_read {n i : ℕ} (hi : i < (m.read p n).length) : (m.read p n)[i] = m (p + i) := by
  simp only [read, List.getElem_map, List.getElem_range]

theorem getD_read {n i : ℕ} (hi : i < n) (b : UInt8) : (m.read p n).getD i b = m (p + i) := by
  rw [List.getD_eq_getElem _ _ (by rwa [length_read]), getElem_read]

theorem write_add {i : ℕ} (hi : i < l.length) : m.write p l (p + i) = l[i] := by
  rw [write, if_pos (Nat.le_add_right p i), Nat.add_sub_cancel_left, List.getD_eq_getElem _ _ hi]

theorem write_outside (h : q < p ∨ p + l.length ≤ q) : m.write p l q = m q := by
  rw [write]
  split_ifs with hle
  · exact List.getD_eq_default _ _ (by omega)
  · rfl

theorem read_write (m : Memory) (p : ℕ) (l : Bytes) : (m.write p l).read p l.length = l := by
  refine List.ext_getElem (length_read _ _ _) fun i _ hi => ?_
  rw [getElem_read, write_add hi]

theorem eq_write_read {n : ℕ} (h : ∀ q, q < p ∨ p + n ≤ q → m' q = m q) :
    m' = m.write p (m'.read p n) := by
  funext q
  by_cases hq : q < p ∨ p + n ≤ q
  · rw [h q hq, write_outside (by rwa [length_read])]
  · obtain ⟨i, rfl⟩ := Nat.exists_eq_add_of_le (not_lt.1 fun hlt => hq (.inl hlt))
    rw [write_add (by rw [length_read]; omega), getElem_read]

theorem take_drop_read {n i k : ℕ} (h : i + k ≤ n) :
    ((m.read p n).drop i).take k = m.read (p + i) k := by
  refine List.ext_getElem (by simp; omega) fun j hj hj' => ?_
  rw [List.getElem_take, List.getElem_drop, getElem_read, getElem_read, Nat.add_assoc]

theorem read_congr {n : ℕ} (h : ∀ i < n, m (p + i) = m' (q + i)) : m.read p n = m'.read q n :=
  List.map_congr_left fun i hi => h i (List.mem_range.1 hi)

@[simp] theorem write_nil (m : Memory) (p : ℕ) : m.write p [] = m := by
  funext q
  exact write_outside (by rw [List.length_nil]; omega)

theorem write_cons (m : Memory) (p : ℕ) (b : UInt8) (l : Bytes) :
    m.write p (b :: l) = (m.set p b).write (p + 1) l := by
  funext q
  obtain hlt | rfl | hgt := Nat.lt_trichotomy q p
  · rw [write_outside (.inl hlt), write_outside (.inl (by omega)), set, if_neg (by omega)]
  · rw [write_outside (.inl (Nat.lt_succ_self q)), set, if_pos rfl, write, if_pos (Nat.le_refl q),
      Nat.sub_self, List.getD_cons_zero]
  · obtain ⟨i, rfl⟩ := Nat.exists_eq_add_of_lt hgt
    rw [write, write, if_pos (by omega), if_pos (by omega),
      show p + i + 1 - p = i + 1 by omega, show p + i + 1 - (p + 1) = i by omega,
      List.getD_cons_succ, set, if_neg (by omega)]

theorem write_concat (m : Memory) (p : ℕ) (l : Bytes) (b : UInt8) :
    m.write p (l ++ [b]) = (m.set (p + l.length) b).write p l := by
  induction l generalizing m p with
  | nil => rw [List.nil_append, write_cons, write_nil, write_nil, List.length_nil, Nat.add_zero]
  | cons a l ih =>
    rw [List.cons_append, write_cons, ih, write_cons, List.length_cons, ← Nat.add_assoc,
      Nat.add_right_comm]
    congr 1
    funext q
    simp only [set]
    split_ifs <;> first | rfl | omega

theorem write_read_self (m : Memory) (p n : ℕ) : m.write p (m.read p n) = m :=
  (eq_write_read fun _ _ => rfl).symm

theorem write_comm {l' : Bytes} (h : p + l.length ≤ q ∨ q + l'.length ≤ p) :
    (m.write p l).write q l' = (m.write q l').write p l := by
  funext i
  by_cases hp : i < p ∨ p + l.length ≤ i
  · rw [write_outside (l := l) hp]
    by_cases hq : i < q ∨ q + l'.length ≤ i
    · rw [write_outside hq, write_outside hp, write_outside hq]
    · obtain ⟨k, rfl⟩ := Nat.exists_eq_add_of_le (not_lt.1 fun hlt => hq (.inl hlt))
      rw [write_add (by omega), write_add (by omega)]
  · obtain ⟨k, rfl⟩ := Nat.exists_eq_add_of_le (not_lt.1 fun hlt => hp (.inl hlt))
    rw [write_outside (by omega), write_add (by omega), write_add (by omega)]

/-! ### Exchanges -/

/-- The bytes of two places are exchanged. -/
def exchange (m : Memory) (a b n : ℕ) : Memory := fun q =>
  if a ≤ q ∧ q < a + n then m (b + (q - a))
  else if b ≤ q ∧ q < b + n then m (a + (q - b))
  else m q

/-- Two ranges are one or have no byte in common. -/
def Apart (a b n : ℕ) : Prop := a = b ∨ a + n ≤ b ∨ b + n ≤ a

variable {a b k n : ℕ}

theorem Apart.left (h : Apart a b (k + n)) : Apart a b k := by
  rw [Apart] at h ⊢
  omega

theorem Apart.right (h : Apart a b (k + n)) : Apart (a + k) (b + k) n := by
  rw [Apart] at h ⊢
  omega

@[simp] theorem exchange_zero (m : Memory) (a b : ℕ) : m.exchange a b 0 = m := by
  funext q
  rw [exchange, if_neg (by omega), if_neg (by omega)]

theorem write_write_read (h : Apart a b n) :
    (m.write a (m.read b n)).write b (m.read a n) = m.exchange a b n := by
  funext q
  rw [Apart] at h
  rw [exchange]
  split_ifs with hqa hqb
  · obtain ⟨i, rfl⟩ := Nat.exists_eq_add_of_le hqa.1
    rw [Nat.add_sub_cancel_left]
    obtain rfl | hab := h
    · rw [write_add (by rw [length_read]; omega), getElem_read]
    · rw [write_outside (by rw [length_read]; omega), write_add (by rw [length_read]; omega),
        getElem_read]
  · obtain ⟨i, rfl⟩ := Nat.exists_eq_add_of_le hqb.1
    rw [Nat.add_sub_cancel_left, write_add (by rw [length_read]; omega), getElem_read]
  · rw [write_outside (by rw [length_read]; omega), write_outside (by rw [length_read]; omega)]

theorem exchange_exchange (h : Apart a b (k + n)) :
    (m.exchange a b k).exchange (a + k) (b + k) n = m.exchange a b (k + n) := by
  funext q
  rw [Apart] at h
  simp only [exchange]
  split_ifs <;> first | omega | exact congrArg m (by omega)

theorem exchange_self (m : Memory) (a n : ℕ) : m.exchange a a n = m := by
  rw [← write_write_read (.inl rfl), write_read_self, write_read_self]

end Memory
