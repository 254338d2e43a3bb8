import Njs.Lib.Utf8

/-!
# The byte order mark in UTF-8

What happens to the code points of a byte string when the mark is removed at some places.
-/

namespace Utf8

/-- U+FEFF. -/
def markCode : ℕ := 0xfeff

def mark : Bytes := [0xef, 0xbb, 0xbf]

/-- The ranges of what is missing are among the bytes that follow a first one. -/
def Sound : Option Pending → Prop
  | none => True
  | some p => ∀ r ∈ p.next :: p.others, tail.1 ≤ r.1 ∧ r.2 ≤ tail.2

theorem sound_of_row {b : UInt8} {bits : ℕ} {r : Range} {rs : List Range}
    (h : row b = some (bits, r :: rs)) : Sound (some ⟨bits, r, rs⟩) := by
  have hrs : ∀ {n : ℕ} {rs' : List Range}, some (n, rs') = some (bits, r :: rs) → rs' = r :: rs :=
    fun h => (Prod.mk.inj (Option.some.inj h)).2
  rw [row] at h
  rw [Sound]
  split_ifs at h <;> rw [← hrs h] <;> simp [tail]

theorem sound_first (b : UInt8) : Sound (first b).2 := by
  rw [first]
  split
  · exact trivial
  · exact trivial
  · next hrow => exact sound_of_row hrow

variable {s : Option Pending}

theorem sound_step (hs : Sound s) (b : UInt8) : Sound (step s b).2 := by
  cases s with
  | none => exact sound_first b
  | some p =>
    obtain ⟨bits, r, rs⟩ := p
    by_cases hb : InRange r b
    · cases rs with
      | nil =>
        have hstep : step (some ⟨bits, r, []⟩) b = ([addBits bits b], none) := if_pos hb
        rw [hstep]
        exact trivial
      | cons r' rs =>
        have hstep : step (some ⟨bits, r, r' :: rs⟩) b = ([], some ⟨addBits bits b, r', rs⟩) :=
          if_pos hb
        rw [hstep]
        exact fun r'' hr'' => hs r'' (List.mem_cons_of_mem r hr'')
    · have hstep : step (some ⟨bits, r, rs⟩) b = (replacement :: (first b).1, (first b).2) :=
        if_neg hb
      rw [hstep]
      exact sound_first b

theorem sound_run {s : Option Pending} (hs : Sound s) (l : Bytes) : Sound (run s l).2 := by
  induction l generalizing s with
  | nil => exact hs
  | cons b l ih => exact ih (sound_step hs b)

theorem run_mark (hs : Sound s) (l : Bytes) :
    run s (mark ++ l) = (finish s ++ markCode :: (run none l).1, (run none l).2) := by
  have hnone : run none (mark ++ l) = (markCode :: (run none l).1, (run none l).2) := rfl
  cases s with
  | none => exact hnone
  | some p =>
    obtain ⟨bits, r, rs⟩ := p
    obtain ⟨-, hhigh⟩ := hs r List.mem_cons_self
    have hb : ¬InRange r 0xef := by
      rintro ⟨-, hle⟩
      exact absurd (hle.trans hhigh) (by decide)
    have hstep : step (some ⟨bits, r, rs⟩) 0xef =
        (replacement :: (step none 0xef).1, (step none 0xef).2) := if_neg hb
    have hrun : run (some ⟨bits, r, rs⟩) (mark ++ l) =
        (replacement :: (run none (mark ++ l)).1, (run none (mark ++ l)).2) := by
      rw [mark, List.cons_append, run, hstep]
      rfl
    rw [hrun, hnone]
    rfl

theorem decode_mark (u v : Bytes) : decode (u ++ mark ++ v) = decode u ++ markCode :: decode v := by
  rw [List.append_assoc, decode, decode, decode, run_append,
    run_mark (sound_run (s := none) trivial u)]
  simp only [List.append_assoc, List.cons_append]

/-- The number of code points from a state on. -/
def count (s : Option Pending) (l : Bytes) : ℕ := (run s l).1.length + (finish (run s l).2).length

theorem count_append (s : Option Pending) (l l' : Bytes) :
    count s (l ++ l') = (run s l).1.length + count (run s l).2 l' := by
  rw [count, count, run_append, List.length_append, Nat.add_assoc]

theorem count_cons (s : Option Pending) (b : UInt8) (l : Bytes) :
    count s (b :: l) = (step s b).1.length + count (step s b).2 l := by
  rw [count, count, run, List.length_append, Nat.add_assoc]

theorem count_le (hs : Sound s) (l : Bytes) : count s l ≤ count none l + (finish s).length := by
  induction l generalizing s with
  | nil => exact Nat.le_refl _
  | cons b l ih =>
    cases s with
    | none => exact Nat.le_add_right _ _
    | some p =>
      obtain ⟨bits, r, rs⟩ := p
      by_cases hb : InRange r b
      · obtain ⟨hlow, hhigh⟩ := hs r List.mem_cons_self
        have hrow : row b = none := by
          refine row_none (.inl ?_)
          simp only [tail] at hlow hhigh
          rw [InRange] at hb
          omega
        have hfirst : step none b = ([replacement], none) := by rw [step, first, hrow]
        have hsound := sound_step hs b
        have hle := ih hsound
        rw [count_cons, count_cons none, hfirst]
        have hone : (step (some ⟨bits, r, rs⟩) b).1.length +
            (finish (step (some ⟨bits, r, rs⟩) b).2).length = 1 := by
          cases rs with
          | nil =>
            have hstep : step (some ⟨bits, r, []⟩) b = ([addBits bits b], none) := if_pos hb
            rw [hstep]
            rfl
          | cons r' rs =>
            have hstep : step (some ⟨bits, r, r' :: rs⟩) b =
                ([], some ⟨addBits bits b, r', rs⟩) := if_pos hb
            rw [hstep]
            rfl
        show _ ≤ 1 + count none l + 1
        omega
      · have hstep : step (some ⟨bits, r, rs⟩) b = (replacement :: (step none b).1,
            (step none b).2) := if_neg hb
        rw [count_cons, count_cons none, hstep, List.length_cons]
        show _ + 1 + count (step none b).2 l ≤ _ + count (step none b).2 l + 1
        omega

theorem count_mark (hs : Sound s) (l : Bytes) :
    count s (mark ++ l) = (finish s).length + 1 + count none l := by
  rw [count, count, run_mark hs, List.length_append, List.length_cons]
  dsimp only
  omega

theorem length_decode (l : Bytes) : (decode l).length = count none l := List.length_append

/-! ### Marks that are removed -/

theorem Decodes.eq_encode {l : Bytes} {ns : List ℕ} (h : Decodes l ns) (hns : replacement ∉ ns) :
    l = encode ns := by
  induction h with
  | nil => rfl
  | @char l rest n ns h hrest ih =>
    rw [ih fun hn => hns (List.mem_cons_of_mem n hn), (sequence_iff.1 h).2]
    rfl
  | subpart h hrest ih => exact absurd List.mem_cons_self hns

theorem decodes_encode {ns : List ℕ} (h : ∀ n ∈ ns, n.isValidChar) : Decodes (encode ns) ns := by
  induction ns with
  | nil => exact .nil
  | cons n ns ih =>
    obtain ⟨hn, hns⟩ := List.forall_mem_cons.1 h
    exact .char (sequence_iff.2 ⟨hn, rfl⟩) (ih hns)

theorem forall_eq_of_cons_eq {α : Type*} {a b : α} {l : List α} (h : a :: l = l ++ [b]) :
    (∀ c ∈ l, c = a) ∧ b = a := by
  induction l with
  | nil => exact ⟨fun c hc => (nomatch hc), (List.cons.inj h).1.symm⟩
  | cons c l ih =>
    obtain ⟨rfl, htail⟩ := List.cons.inj h
    obtain ⟨hl, hb⟩ := ih htail
    exact ⟨List.forall_mem_cons.2 ⟨rfl, hl⟩, hb⟩

theorem encode_mark : encode [markCode] = mark := by decide

theorem eq_of_decode_mark {u v w : Bytes} (hmark : mark ++ w = u ++ mark ++ v)
    (h : decode (u ++ v) = decode w) : u ++ v = w := by
  have hcodes : markCode :: decode (u ++ v) = decode u ++ markCode :: decode v := by
    rw [h, ← decode_mark u v, ← hmark]
    exact (decode_mark [] w).symm
  have hleft : decode (u ++ v) = (run none u).1 ++ ((run (run none u).2 v).1 ++
      finish (run (run none u).2 v).2) := by
    rw [decode, run_append, List.append_assoc]
  rw [hleft, decode, List.append_assoc, ← List.cons_append] at hcodes
  generalize hs : (run none u).2 = s at hcodes
  cases s with
  | none =>
    have hsplit : (markCode :: (run none u).1) ++ ((run none v).1 ++ finish (run none v).2) =
        ((run none u).1 ++ [markCode]) ++ decode v := by
      rw [hcodes, List.append_assoc]
      rfl
    have hrotated := (List.append_inj hsplit (by
      rw [List.length_cons, List.length_append]
      rfl)).1
    have hall := (forall_eq_of_cons_eq hrotated).1
    have hu : u = encode (run none u).1 := by
      have hdecodes := decodes_decode u
      rw [decode, hs, finish, List.append_nil] at hdecodes
      exact hdecodes.eq_encode fun hmem => absurd (hall _ hmem) (by decide)
    have hcomm : mark ++ u = u ++ mark := by
      rw [hu, ← encode_mark, ← encode_append, ← encode_append, ← hrotated]
      rfl
    rw [← hcomm, List.append_assoc] at hmark
    exact (List.append_cancel_left hmark).symm
  | some p =>
    have hsplit : (markCode :: (run none u).1) ++ ((run (some p) v).1 ++
        finish (run (some p) v).2) = ((run none u).1 ++ [replacement]) ++ markCode :: decode v := by
      rw [hcodes, List.append_assoc]
      rfl
    have hrotated := (List.append_inj hsplit (by
      rw [List.length_cons, List.length_append]
      rfl)).1
    exact absurd (forall_eq_of_cons_eq hrotated).2 (by decide)

end Utf8
