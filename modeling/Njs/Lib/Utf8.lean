import Njs.Lib.Text

/-!
# UTF-8

Well-formed sequences are those of Table 3-7 of the Unicode standard. In other text every maximal
subpart of a well-formed sequence is replaced by U+FFFD.
-/

namespace Utf8

open Text

abbrev Range : Type := ℕ × ℕ

def InRange (r : Range) (b : UInt8) : Prop := r.1 ≤ b.toNat ∧ b.toNat ≤ r.2

instance (r : Range) (b : UInt8) : Decidable (InRange r b) :=
  inferInstanceAs (Decidable (r.1 ≤ b.toNat ∧ b.toNat ≤ r.2))

/-- The bytes that follow a first one, apart from some second bytes. -/
def tail : Range := (0x80, 0xbf)

/-- A row of Table 3-7: the bits of a first byte and the ranges of the bytes after it. -/
def row (b : UInt8) : Option (ℕ × List Range) :=
  if b.toNat ≤ 0x7f then some (b.toNat, [])
  else if 0xc2 ≤ b.toNat ∧ b.toNat ≤ 0xdf then some (b.toNat - 0xc0, [tail])
  else if b.toNat = 0xe0 then some (0x0, [(0xa0, 0xbf), tail])
  else if 0xe1 ≤ b.toNat ∧ b.toNat ≤ 0xec then some (b.toNat - 0xe0, [tail, tail])
  else if b.toNat = 0xed then some (0xd, [(0x80, 0x9f), tail])
  else if 0xee ≤ b.toNat ∧ b.toNat ≤ 0xef then some (b.toNat - 0xe0, [tail, tail])
  else if b.toNat = 0xf0 then some (0x0, [(0x90, 0xbf), tail, tail])
  else if 0xf1 ≤ b.toNat ∧ b.toNat ≤ 0xf3 then some (b.toNat - 0xf0, [tail, tail, tail])
  else if b.toNat = 0xf4 then some (0x4, [(0x80, 0x8f), tail, tail])
  else none

def addBits (bits : ℕ) (b : UInt8) : ℕ := bits * 64 + b.toNat % 64

def codePoint (bits : ℕ) (l : Bytes) : ℕ := l.foldl addBits bits

def Fits : List Range → Bytes → Prop
  | [], [] => True
  | r :: rs, b :: l => InRange r b ∧ Fits rs l
  | [], _ :: _ => False
  | _ :: _, [] => False

/-- A well-formed sequence and its code point. -/
inductive Sequence : Bytes → ℕ → Prop
  | intro {b : UInt8} {bits : ℕ} {rs : List Range} {l : Bytes} (hrow : row b = some (bits, rs))
      (hfits : Fits rs l) : Sequence (b :: l) (codePoint bits l)

/-- A part of a byte string that begins a well-formed sequence. -/
def Begins (l : Bytes) : Prop := ∃ m n, Sequence (l ++ m) n

/-- U+FFFD. -/
def replacement : ℕ := 0xfffd

/-- Where no well-formed sequence begins, the longest part that begins one, or one byte. -/
structure MaximalSubpart (l rest : Bytes) : Prop where
  ill_formed : ∀ m n, m <+: l ++ rest → ¬Sequence m n
  ne_nil : l ≠ []
  begins : Begins l ∨ l.length = 1
  maximal : ∀ m, m ≠ [] → m <+: rest → ¬Begins (l ++ m)

/-- The code points of a byte string. -/
inductive Decodes : Bytes → List ℕ → Prop
  | nil : Decodes [] []
  | char {l rest : Bytes} {n : ℕ} {ns : List ℕ} (h : Sequence l n) (hrest : Decodes rest ns) :
      Decodes (l ++ rest) (n :: ns)
  | subpart {l rest : Bytes} {ns : List ℕ} (h : MaximalSubpart l rest)
      (hrest : Decodes rest ns) : Decodes (l ++ rest) (replacement :: ns)

/-! ### The table -/

variable {b : UInt8} {rs : List Range} {l rest : Bytes}

theorem range_of_row {bits : ℕ} (h : row b = some (bits, rs)) :
    ∀ r ∈ rs, r.1 ≤ r.2 ∧ r.2 < 256 := by
  have hrs : ∀ {n : ℕ} {rs' : List Range}, some (n, rs') = some (bits, rs) → rs' = rs :=
    fun h => (Prod.mk.inj (Option.some.inj h)).2
  rw [row] at h
  split_ifs at h <;> rw [← hrs h] <;> simp [tail]

theorem tail_of_row {bits : ℕ} (h : row b = some (bits, rs)) :
    ∀ r ∈ rs, 0x80 ≤ r.1 ∧ r.2 ≤ 0xbf := by
  have hrs : ∀ {n : ℕ} {rs' : List Range}, some (n, rs') = some (bits, rs) → rs' = rs :=
    fun h => (Prod.mk.inj (Option.some.inj h)).2
  rw [row] at h
  split_ifs at h <;> rw [← hrs h] <;> simp [tail]

theorem Fits.length (h : Fits rs l) : l.length = rs.length := by
  induction rs generalizing l with
  | nil =>
    cases l with
    | nil => rfl
    | cons b l => exact h.elim
  | cons r rs ih =>
    cases l with
    | nil => exact h.elim
    | cons b l => exact congrArg (· + 1) (ih h.2)

theorem fits_append {rs' : List Range} {l' : Bytes} (hlength : l.length = rs.length) :
    Fits (rs ++ rs') (l ++ l') ↔ Fits rs l ∧ Fits rs' l' := by
  induction rs generalizing l with
  | nil =>
    obtain rfl := List.length_eq_zero_iff.1 hlength
    exact (iff_of_eq (true_and _)).symm
  | cons r rs ih =>
    cases l with
    | nil => exact nomatch hlength
    | cons b l =>
      have hlength : l.length = rs.length := Nat.succ.inj hlength
      exact (and_congr_right fun _ => ih hlength).trans and_assoc.symm

theorem exists_fits (h : ∀ r ∈ rs, r.1 ≤ r.2 ∧ r.2 < 256) : ∃ l, Fits rs l := by
  induction rs with
  | nil => exact ⟨[], trivial⟩
  | cons r rs ih =>
    obtain ⟨l, hl⟩ := ih fun r' hr' => h r' (List.mem_cons_of_mem r hr')
    obtain ⟨hle, hlt⟩ := h r List.mem_cons_self
    have hvalue : (UInt8.ofNat r.1).toNat = r.1 := UInt8.toNat_ofNat_of_lt (hle.trans_lt hlt)
    exact ⟨UInt8.ofNat r.1 :: l, ⟨by rw [hvalue], by rw [hvalue]; exact hle⟩, hl⟩

theorem begins_cons_iff : Begins (b :: l) ↔
    ∃ bits rs rs', row b = some (bits, rs ++ rs') ∧ Fits rs l := by
  constructor
  · rintro ⟨m, n, h⟩
    cases h with
    | @intro _ bits rs _ hrow hfits =>
      have hfits : Fits rs (l ++ m) := hfits
      have hlength := hfits.length
      rw [List.length_append] at hlength
      refine ⟨bits, rs.take l.length, rs.drop l.length, ?_, ?_⟩
      · rw [List.take_append_drop, hrow]
      · rw [← List.take_append_drop l.length rs] at hfits
        refine ((fits_append ?_).1 hfits).1
        rw [List.length_take]
        omega
  · rintro ⟨bits, rs, rs', hrow, hfits⟩
    obtain ⟨m, hm⟩ := exists_fits fun r hr => range_of_row hrow r (List.mem_append_right rs hr)
    exact ⟨m, _, .intro hrow ((fits_append hfits.length).2 ⟨hfits, hm⟩)⟩

theorem Sequence.ne_nil {n : ℕ} (h : Sequence l n) : l ≠ [] := by
  cases h with
  | intro hrow hfits => exact List.cons_ne_nil _ _

theorem Sequence.unique {l' rest' : Bytes} {n n' : ℕ} (h : Sequence l n) (h' : Sequence l' n')
    (heq : l ++ rest = l' ++ rest') : l = l' ∧ n = n' := by
  cases h with
  | @intro b bits rs l hrow hfits =>
    cases h' with
    | @intro b' bits' rs' l' hrow' hfits' =>
      have hcons : b :: (l ++ rest) = b' :: (l' ++ rest') := heq
      obtain ⟨rfl, htail⟩ := List.cons.inj hcons
      have hsame := hrow.symm.trans hrow'
      cases hsame
      obtain ⟨rfl, -⟩ := List.append_inj htail (hfits.length.trans hfits'.length.symm)
      exact ⟨rfl, rfl⟩

theorem Decodes.unique {ns ns' : List ℕ} (h : Decodes l ns) (h' : Decodes l ns') : ns = ns' := by
  induction h generalizing ns' with
  | nil =>
    generalize hl : ([] : Bytes) = l at h'
    cases h' with
    | nil => rfl
    | char h₂ _ => exact absurd (List.append_eq_nil_iff.1 hl.symm).1 h₂.ne_nil
    | subpart h₂ _ => exact absurd (List.append_eq_nil_iff.1 hl.symm).1 h₂.ne_nil
  | @char l rest n ns h hrest ih =>
    generalize hl : l ++ rest = whole at h'
    cases h' with
    | nil => exact absurd (List.append_eq_nil_iff.1 hl).1 h.ne_nil
    | @char l₂ rest₂ n₂ ns₂ h₂ hrest₂ =>
      obtain ⟨rfl, rfl⟩ := h.unique h₂ hl
      rw [ih (List.append_cancel_left hl ▸ hrest₂)]
    | @subpart l₂ rest₂ ns₂ h₂ hrest₂ =>
      exact absurd h (h₂.ill_formed l n (hl ▸ List.prefix_append l rest))
  | @subpart l rest ns h hrest ih =>
    generalize hl : l ++ rest = whole at h'
    cases h' with
    | nil => exact absurd (List.append_eq_nil_iff.1 hl).1 h.ne_nil
    | @char l₂ rest₂ n₂ ns₂ h₂ hrest₂ =>
      exact absurd h₂ (h.ill_formed l₂ n₂ (hl ▸ List.prefix_append l₂ rest₂))
    | @subpart l₂ rest₂ ns₂ h₂ hrest₂ =>
      -- neither of the two is longer
      have hle : ∀ {l rest l₂ rest₂ : Bytes}, MaximalSubpart l rest → MaximalSubpart l₂ rest₂ →
          l ++ rest = l₂ ++ rest₂ → l₂.length ≤ l.length := by
        intro l rest l₂ rest₂ h h₂ hl
        by_contra hlt
        rw [not_le] at hlt
        obtain ⟨m, rfl⟩ : l <+: l₂ :=
          List.prefix_of_prefix_length_le ⟨rest, hl⟩ ⟨rest₂, rfl⟩ hlt.le
        rw [List.append_assoc] at hl
        have hrest := List.append_cancel_left hl
        have hm : m ≠ [] := by
          rintro rfl
          rw [List.append_nil] at hlt
          exact absurd hlt (lt_irrefl _)
        have hpos := List.length_pos_iff.2 h.ne_nil
        rcases h₂.begins with hbegins | hone
        · exact h.maximal m hm (hrest ▸ List.prefix_append m rest₂) hbegins
        · omega
      have hlength := le_antisymm (hle h₂ h hl.symm) (hle h h₂ hl)
      obtain ⟨rfl, rfl⟩ := List.append_inj hl hlength
      rw [ih hrest₂]

/-- The second bytes after a first one of three. -/
def second₃ (b : UInt8) : Range :=
  if b.toNat = 0xe0 then (0xa0, 0xbf) else if b.toNat = 0xed then (0x80, 0x9f) else tail

/-- The second bytes after a first one of four. -/
def second₄ (b : UInt8) : Range :=
  if b.toNat = 0xf0 then (0x90, 0xbf) else if b.toNat = 0xf4 then (0x80, 0x8f) else tail

theorem row_one (h : b.toNat < 0x80) : row b = some (b.toNat, []) :=
  if_pos (Nat.le_of_lt_succ h)

theorem row_two (hlow : 0xc2 ≤ b.toNat) (hhigh : b.toNat ≤ 0xdf) :
    row b = some (b.toNat - 0xc0, [tail]) := by
  rw [row, if_neg (by omega), if_pos ⟨hlow, hhigh⟩]

theorem row_three (hlow : 0xe0 ≤ b.toNat) (hhigh : b.toNat < 0xf0) :
    row b = some (b.toNat - 0xe0, [second₃ b, tail]) := by
  rw [row, second₃, if_neg (by omega), if_neg (by omega)]
  split_ifs <;> first | omega | simp [*]

theorem row_four (hlow : 0xf0 ≤ b.toNat) (hhigh : b.toNat < 0xf5) :
    row b = some (b.toNat - 0xf0, [second₄ b, tail, tail]) := by
  rw [row, second₄, if_neg (by omega), if_neg (by omega), if_neg (by omega), if_neg (by omega),
    if_neg (by omega), if_neg (by omega)]
  split_ifs <;> first | omega | simp [*]

theorem row_none (h : 0x80 ≤ b.toNat ∧ b.toNat < 0xc2 ∨ 0xf5 ≤ b.toNat) : row b = none := by
  rw [row]
  split_ifs <;> first | rfl | omega

theorem inRange_second₃ {c : UInt8} : InRange (second₃ b) c ↔
    InRange tail c ∧ (b.toNat = 0xe0 → 0xa0 ≤ c.toNat) ∧ (b.toNat = 0xed → c.toNat ≤ 0x9f) := by
  rw [second₃]
  split_ifs <;> simp only [InRange, tail] <;> omega

theorem inRange_second₄ {c : UInt8} : InRange (second₄ b) c ↔
    InRange tail c ∧ (b.toNat = 0xf0 → 0x90 ≤ c.toNat) ∧ (b.toNat = 0xf4 → c.toNat ≤ 0x8f) := by
  rw [second₄]
  split_ifs <;> simp only [InRange, tail] <;> omega

theorem inRange_tail : InRange tail b ↔ 0x80 ≤ b.toNat ∧ b.toNat ≤ 0xbf := Iff.rfl

theorem fits_cons_iff {r : Range} :
    Fits (r :: rs) l ↔ ∃ b l', l = b :: l' ∧ InRange r b ∧ Fits rs l' := by
  constructor
  · intro h
    cases l with
    | nil => exact h.elim
    | cons b l => exact ⟨b, l, rfl, h⟩
  · rintro ⟨b, l, rfl, h⟩
    exact h

theorem fits_nil_iff : Fits [] l ↔ l = [] := by
  constructor
  · intro h
    exact List.length_eq_zero_iff.1 h.length
  · rintro rfl
    trivial

/-! ### Characters -/

/-- The bytes of a character. -/
def units (n : ℕ) : List ℕ :=
  if n < 0x80 then [n]
  else if n < 0x800 then [0xc0 + n / 64, 0x80 + n % 64]
  else if n < 0x10000 then [0xe0 + n / 4096, 0x80 + n / 64 % 64, 0x80 + n % 64]
  else [0xf0 + n / 262144, 0x80 + n / 4096 % 64, 0x80 + n / 64 % 64, 0x80 + n % 64]

variable {n x y z w : ℕ}

theorem units_two (hx : 0xc2 ≤ x ∧ x ≤ 0xdf) (hy : 0x80 ≤ y ∧ y ≤ 0xbf)
    (hn : n = (x - 0xc0) * 64 + y % 64) : n.isValidChar ∧ units n = [x, y] := by
  have hlow : 0x80 ≤ n := by omega
  have hhigh : n < 0x800 := by omega
  refine ⟨.inl (by omega), ?_⟩
  rw [units, if_neg (by omega), if_pos hhigh]
  simp only [List.cons.injEq, and_true]
  omega

theorem units_three (hx : 0xe0 ≤ x ∧ x < 0xf0) (hy : 0x80 ≤ y ∧ y ≤ 0xbf)
    (hlow : x = 0xe0 → 0xa0 ≤ y) (hhigh : x = 0xed → y ≤ 0x9f) (hz : 0x80 ≤ z ∧ z ≤ 0xbf)
    (hn : n = ((x - 0xe0) * 64 + y % 64) * 64 + z % 64) :
    n.isValidChar ∧ units n = [x, y, z] := by
  have h₁ : 0x800 ≤ n := by omega
  have h₂ : n < 0x10000 := by omega
  have h₃ : n < 0xd800 ∨ 0xdfff < n := by omega
  refine ⟨h₃.imp_right fun h => ⟨h, by omega⟩, ?_⟩
  rw [units, if_neg (by omega), if_neg (by omega), if_pos h₂]
  simp only [List.cons.injEq, and_true]
  omega

theorem units_four (hx : 0xf0 ≤ x ∧ x < 0xf5) (hy : 0x80 ≤ y ∧ y ≤ 0xbf)
    (hlow : x = 0xf0 → 0x90 ≤ y) (hhigh : x = 0xf4 → y ≤ 0x8f) (hz : 0x80 ≤ z ∧ z ≤ 0xbf)
    (hw : 0x80 ≤ w ∧ w ≤ 0xbf)
    (hn : n = (((x - 0xf0) * 64 + y % 64) * 64 + z % 64) * 64 + w % 64) :
    n.isValidChar ∧ units n = [x, y, z, w] := by
  have h₁ : 0x10000 ≤ n := by omega
  have h₂ : n < 0x110000 := by omega
  refine ⟨.inr ⟨by omega, h₂⟩, ?_⟩
  rw [units, if_neg (by omega), if_neg (by omega), if_neg (by omega)]
  simp only [List.cons.injEq, and_true]
  omega

theorem Sequence.units_eq (h : Sequence l n) : n.isValidChar ∧ units n = l.map UInt8.toNat := by
  cases h with
  | @intro b bits rs l hrow hfits =>
    have hinj : ∀ {n rs'}, row b = some (n, rs') → n = bits ∧ rs' = rs :=
      fun h => Prod.mk.inj (Option.some.inj (h.symm.trans hrow))
    by_cases h₁ : b.toNat < 0x80
    · obtain ⟨rfl, rfl⟩ := hinj (row_one h₁)
      obtain rfl := fits_nil_iff.1 hfits
      exact ⟨.inl (Nat.lt_trans h₁ (by decide)), if_pos h₁⟩
    by_cases h₂ : 0xc2 ≤ b.toNat ∧ b.toNat ≤ 0xdf
    · obtain ⟨rfl, rfl⟩ := hinj (row_two h₂.1 h₂.2)
      obtain ⟨c, l, rfl, hc, hfits⟩ := fits_cons_iff.1 hfits
      obtain rfl := fits_nil_iff.1 hfits
      exact units_two h₂ hc rfl
    by_cases h₃ : 0xe0 ≤ b.toNat ∧ b.toNat < 0xf0
    · obtain ⟨rfl, rfl⟩ := hinj (row_three h₃.1 h₃.2)
      obtain ⟨c, l, rfl, hc, hfits⟩ := fits_cons_iff.1 hfits
      obtain ⟨d, l, rfl, hd, hfits⟩ := fits_cons_iff.1 hfits
      obtain rfl := fits_nil_iff.1 hfits
      obtain ⟨hc, hlow, hhigh⟩ := inRange_second₃.1 hc
      exact units_three h₃ hc hlow hhigh hd rfl
    by_cases h₄ : 0xf0 ≤ b.toNat ∧ b.toNat < 0xf5
    · obtain ⟨rfl, rfl⟩ := hinj (row_four h₄.1 h₄.2)
      obtain ⟨c, l, rfl, hc, hfits⟩ := fits_cons_iff.1 hfits
      obtain ⟨d, l, rfl, hd, hfits⟩ := fits_cons_iff.1 hfits
      obtain ⟨e, l, rfl, he, hfits⟩ := fits_cons_iff.1 hfits
      obtain rfl := fits_nil_iff.1 hfits
      obtain ⟨hc, hlow, hhigh⟩ := inRange_second₄.1 hc
      exact units_four h₄ hc hlow hhigh hd he rfl
    · exact nomatch (row_none (by omega)).symm.trans hrow

theorem sequence_of_units (hn : n.isValidChar) (h : l.map UInt8.toNat = units n) :
    Sequence l n := by
  have hn : n < 0xd800 ∨ 0xdfff < n ∧ n < 0x110000 := hn
  have hcode : ∀ {b : UInt8} {bits : ℕ} {rs : List Range} {l : Bytes},
      row b = some (bits, rs) → Fits rs l → codePoint bits l = n → Sequence (b :: l) n := by
    rintro b bits rs l hrow hfits rfl
    exact .intro hrow hfits
  rw [units] at h
  split_ifs at h with h₁ h₂ h₃
  · obtain ⟨b, rfl, hb⟩ := List.map_eq_singleton_iff.1 h
    exact hcode (row_one (hb ▸ h₁)) trivial hb
  · obtain ⟨b, l, rfl, hb, hl⟩ := List.map_eq_cons_iff.1 h
    obtain ⟨c, rfl, hc⟩ := List.map_eq_singleton_iff.1 hl
    refine hcode (row_two (by omega) (by omega)) ⟨inRange_tail.2 (by omega), trivial⟩ ?_
    simp only [codePoint, List.foldl_cons, List.foldl_nil, addBits]
    omega
  · obtain ⟨b, l, rfl, hb, hl⟩ := List.map_eq_cons_iff.1 h
    obtain ⟨c, l, rfl, hc, hl⟩ := List.map_eq_cons_iff.1 hl
    obtain ⟨d, rfl, hd⟩ := List.map_eq_singleton_iff.1 hl
    have hsecond : InRange (second₃ b) c :=
      inRange_second₃.2 ⟨inRange_tail.2 (by omega), by omega, by omega⟩
    refine hcode (row_three (by omega) (by omega))
      ⟨hsecond, inRange_tail.2 (by omega), trivial⟩ ?_
    simp only [codePoint, List.foldl_cons, List.foldl_nil, addBits]
    omega
  · obtain ⟨b, l, rfl, hb, hl⟩ := List.map_eq_cons_iff.1 h
    obtain ⟨c, l, rfl, hc, hl⟩ := List.map_eq_cons_iff.1 hl
    obtain ⟨d, l, rfl, hd, hl⟩ := List.map_eq_cons_iff.1 hl
    obtain ⟨e, rfl, he⟩ := List.map_eq_singleton_iff.1 hl
    have hsecond : InRange (second₄ b) c :=
      inRange_second₄.2 ⟨inRange_tail.2 (by omega), by omega, by omega⟩
    refine hcode (row_four (by omega) (by omega))
      ⟨hsecond, inRange_tail.2 (by omega), inRange_tail.2 (by omega), trivial⟩ ?_
    simp only [codePoint, List.foldl_cons, List.foldl_nil, addBits]
    omega

def encode (ns : List ℕ) : Bytes := ns.flatMap fun n => String.utf8EncodeChar (Char.ofNat n)

theorem encode_append (ns ns' : List ℕ) : encode (ns ++ ns') = encode ns ++ encode ns' :=
  List.flatMap_append

theorem toNat_shifted (u : UInt32) {k : UInt32} {n : ℕ} (hk : k.toNat = n) (hn : n < 32) :
    ((u >>> k).toUInt8).toNat = u.toNat / 2 ^ n % 256 := by
  rw [UInt32.toNat_toUInt8, UInt32.toNat_shiftRight, hk, Nat.mod_eq_of_lt hn,
    Nat.shiftRight_eq_div_pow]

theorem toNat_and_mask (x : UInt8) {mask : UInt8} (k : ℕ) (hmask : mask.toNat = 2 ^ k - 1) :
    (x &&& mask).toNat = x.toNat % 2 ^ k := by
  rw [UInt8.toNat_and, hmask, Nat.and_two_pow_sub_one_eq_mod]

theorem and_mask_of_lt {x mask : UInt8} (k : ℕ) (hmask : mask.toNat = 2 ^ k - 1)
    (hx : x.toNat < 2 ^ k) : x &&& mask = x := by
  rw [← UInt8.toNat_inj, toNat_and_mask x k hmask, Nat.mod_eq_of_lt hx]

theorem toNat_marked (x : UInt8) {mask mark : UInt8} (k n : ℕ)
    (hmask : mask.toNat = 2 ^ k - 1) (hmark : mark.toNat = n <<< k) :
    ((x &&& mask) ||| mark).toNat = mark.toNat + x.toNat % 2 ^ k := by
  rw [UInt8.toNat_or, toNat_and_mask x k hmask, hmark, Nat.or_comm,
    ← Nat.shiftLeft_add_eq_or_of_lt (Nat.mod_lt _ (Nat.two_pow_pos k))]

theorem toNat_continuation (x : UInt8) : ((x &&& 0x3f) ||| 0x80).toNat = 0x80 + x.toNat % 64 :=
  toNat_marked x 6 2 rfl rfl

theorem toNat_two (x : UInt8) : ((x &&& 0x1f) ||| 0xc0).toNat = 0xc0 + x.toNat % 32 ∧
    (((x &&& 0x1f) ||| 0xc0) &&& 0x1f).toNat = x.toNat % 32 := by
  have h : ((x &&& 0x1f) ||| 0xc0).toNat = 0xc0 + x.toNat % 32 :=
    toNat_marked x 5 6 rfl rfl
  refine ⟨h, ?_⟩
  rw [toNat_and_mask _ 5 rfl, h]
  omega

theorem toNat_three (x : UInt8) : ((x &&& 0x0f) ||| 0xe0).toNat = 0xe0 + x.toNat % 16 ∧
    (((x &&& 0x0f) ||| 0xe0) &&& 0x0f).toNat = x.toNat % 16 := by
  have h : ((x &&& 0x0f) ||| 0xe0).toNat = 0xe0 + x.toNat % 16 :=
    toNat_marked x 4 14 rfl rfl
  refine ⟨h, ?_⟩
  rw [toNat_and_mask _ 4 rfl, h]
  omega

theorem toNat_four (x : UInt8) : ((x &&& 0x07) ||| 0xf0).toNat = 0xf0 + x.toNat % 8 ∧
    (((x &&& 0x07) ||| 0xf0) &&& 0x07).toNat = x.toNat % 8 := by
  have h : ((x &&& 0x07) ||| 0xf0).toNat = 0xf0 + x.toNat % 8 :=
    toNat_marked x 3 30 rfl rfl
  refine ⟨h, ?_⟩
  rw [toNat_and_mask _ 3 rfl, h]
  omega

theorem map_toNat_utf8EncodeChar (c : Char) :
    (String.utf8EncodeChar c).map UInt8.toNat = units c.val.toNat := by
  have h0 : c.val.toUInt8.toNat = c.val.toNat % 256 := UInt32.toNat_toUInt8 _
  have h6 := toNat_shifted c.val (show (6 : UInt32).toNat = 6 from rfl) (by omega)
  have h12 := toNat_shifted c.val (show (12 : UInt32).toNat = 12 from rfl) (by omega)
  have h18 := toNat_shifted c.val (show (18 : UInt32).toNat = 18 from rfl) (by omega)
  have hmax : c.val.toNat < 0xd800 ∨ 0xdfff < c.val.toNat ∧ c.val.toNat < 0x110000 := c.valid
  rw [units]
  obtain h | h | h | h := c.utf8Size_eq
  · have hle : c.val.toNat ≤ 0x7f := UInt32.le_iff_toNat_le.mp (Char.utf8Size_eq_one_iff.mp h)
    rw [String.utf8EncodeChar_eq_singleton h, if_pos (by omega)]
    simp only [List.map_cons, List.map_nil, h0, List.cons.injEq, and_true]
    omega
  · obtain ⟨hgt, hle⟩ := Char.utf8Size_eq_two_iff.mp h
    have hgt : 0x7f < c.val.toNat := hgt
    have hle : c.val.toNat ≤ 0x7ff := hle
    rw [String.utf8EncodeChar_eq_cons_cons h, if_neg (by omega), if_pos (by omega)]
    simp only [List.map_cons, List.map_nil, (toNat_two _).1, toNat_continuation, h0, h6,
      List.cons.injEq, and_true]
    omega
  · obtain ⟨hgt, hle⟩ := Char.utf8Size_eq_three_iff.mp h
    have hgt : 0x7ff < c.val.toNat := hgt
    have hle : c.val.toNat ≤ 0xffff := hle
    rw [String.utf8EncodeChar_eq_cons_cons_cons h, if_neg (by omega), if_neg (by omega),
      if_pos (by omega)]
    simp only [List.map_cons, List.map_nil, (toNat_three _).1, toNat_continuation, h0, h6, h12,
      List.cons.injEq, and_true]
    omega
  · have hgt : 0xffff < c.val.toNat := Char.utf8Size_eq_four_iff.mp h
    rw [String.utf8EncodeChar_eq_cons_cons_cons_cons h, if_neg (by omega), if_neg (by omega),
      if_neg (by omega)]
    simp only [List.map_cons, List.map_nil, (toNat_four _).1, toNat_continuation, h0, h6, h12, h18,
      List.cons.injEq, and_true]
    omega

theorem sequence_iff : Sequence l n ↔ n.isValidChar ∧ l = String.utf8EncodeChar (Char.ofNat n) := by
  have hchar : ∀ hn : n.isValidChar, (Char.ofNat n).val.toNat = n := by
    intro hn
    rw [Char.ofNat, dif_pos hn]
    rfl
  constructor
  · intro h
    obtain ⟨hn, hunits⟩ := h.units_eq
    refine ⟨hn, List.map_injective_iff.2 (fun _ _ => UInt8.toNat_inj.1) ?_⟩
    rw [map_toNat_utf8EncodeChar, hchar hn, hunits]
  · rintro ⟨hn, rfl⟩
    refine sequence_of_units hn ?_
    rw [map_toNat_utf8EncodeChar, hchar hn]

theorem lt_of_isValidChar (hn : n.isValidChar) : n < 0x110000 := by
  rcases hn with h | ⟨-, h⟩
  · exact h.trans (by decide)
  · exact h

theorem isValidChar_replacement : replacement.isValidChar := .inr ⟨by decide, by decide⟩

theorem Decodes.isValidChar {ns : List ℕ} (h : Decodes l ns) : ∀ n ∈ ns, n.isValidChar := by
  induction h with
  | nil => exact fun _ hn => nomatch hn
  | char h _ ih => exact List.forall_mem_cons.2 ⟨h.units_eq.1, ih⟩
  | subpart _ _ ih => exact List.forall_mem_cons.2 ⟨isValidChar_replacement, ih⟩

/-- Sequences one after the other. -/
inductive WellFormed : Bytes → Prop
  | nil : WellFormed []
  | append {s rest : Bytes} {n : ℕ} (h : Sequence s n) (hrest : WellFormed rest) :
      WellFormed (s ++ rest)

/-! ### The decoder -/

/-- What is still missing of a sequence: the bits that have been read and the ranges of the next
byte and of the others. -/
structure Pending where
  bits : ℕ
  next : Range
  others : List Range

/-- What some bytes begin with. -/
inductive Outcome
  | char (n : ℕ) (rest : Bytes)
  | ill (rest : Bytes)
  | more (p : Pending)

def read : Pending → Bytes → Outcome
  | p, [] => .more p
  | ⟨bits, r, rs⟩, b :: l =>
    if InRange r b then
      match rs with
      | [] => .char (addBits bits b) l
      | r' :: rs => read ⟨addBits bits b, r', rs⟩ l
    else .ill (b :: l)

def next : Option Pending → Bytes → Outcome
  | some p, l => read p l
  | none, [] => .ill []
  | none, b :: l =>
    match row b with
    | none => .ill l
    | some (bits, []) => .char bits l
    | some (bits, r :: rs) => read ⟨bits, r, rs⟩ l

def first (b : UInt8) : List ℕ × Option Pending :=
  match row b with
  | none => ([replacement], none)
  | some (bits, []) => ([bits], none)
  | some (bits, r :: rs) => ([], some ⟨bits, r, rs⟩)

/-- A byte. One that does not continue a sequence is read again as a first one. -/
def step : Option Pending → UInt8 → List ℕ × Option Pending
  | none, b => first b
  | some ⟨bits, r, rs⟩, b =>
    if InRange r b then
      match rs with
      | [] => ([addBits bits b], none)
      | r' :: rs => ([], some ⟨addBits bits b, r', rs⟩)
    else (replacement :: (first b).1, (first b).2)

/-- The code points of some bytes, and what is missing after them. -/
def run : Option Pending → Bytes → List ℕ × Option Pending
  | s, [] => ([], s)
  | s, b :: l => ((step s b).1 ++ (run (step s b).2 l).1, (run (step s b).2 l).2)

/-- The end of the bytes. -/
def finish : Option Pending → List ℕ
  | none => []
  | some _ => [replacement]

/-- The code points of a byte string. -/
def decode (l : Bytes) : List ℕ := (run none l).1 ++ finish (run none l).2

theorem run_append (s : Option Pending) (l l' : Bytes) :
    run s (l ++ l') = ((run s l).1 ++ (run (run s l).2 l').1, (run (run s l).2 l').2) := by
  induction l generalizing s with
  | nil => rfl
  | cons b l ih =>
    rw [List.cons_append, run, run, ih]
    simp only [List.append_assoc]

def Outcome.after : Outcome → List ℕ × Option Pending
  | .char n rest => (n :: (run none rest).1, (run none rest).2)
  | .ill rest => (replacement :: (run none rest).1, (run none rest).2)
  | .more p => ([], some p)

theorem run_read (p : Pending) (l : Bytes) : run (some p) l = (read p l).after := by
  induction l generalizing p with
  | nil => rfl
  | cons b l ih =>
    obtain ⟨bits, r, rs⟩ := p
    by_cases hb : InRange r b
    · cases rs with
      | nil =>
        have hstep : step (some ⟨bits, r, []⟩) b = ([addBits bits b], none) := if_pos hb
        have hread : read ⟨bits, r, []⟩ (b :: l) = .char (addBits bits b) l := if_pos hb
        rw [run, hstep, hread]
        rfl
      | cons r' rs =>
        have hstep : step (some ⟨bits, r, r' :: rs⟩) b = ([], some ⟨addBits bits b, r', rs⟩) :=
          if_pos hb
        have hread : read ⟨bits, r, r' :: rs⟩ (b :: l) = read ⟨addBits bits b, r', rs⟩ l :=
          if_pos hb
        rw [run, hstep, hread, ← ih]
        rfl
    · have hstep : step (some ⟨bits, r, rs⟩) b = (replacement :: (first b).1, (first b).2) :=
        if_neg hb
      have hread : read ⟨bits, r, rs⟩ (b :: l) = .ill (b :: l) := if_neg hb
      rw [run, hstep, hread]
      rfl

def Tailed (s : Option Pending) : Prop :=
  ∀ p, s = some p → ∀ r ∈ p.next :: p.others, 0x80 ≤ r.1 ∧ r.2 ≤ 0xbf

theorem tailed_first (b : UInt8) : Tailed (first b).2 := by
  rw [first]
  cases hrow : row b with
  | none => exact fun p hp => absurd hp.symm (Option.some_ne_none p)
  | some q =>
    obtain ⟨bits, _ | ⟨r, rs⟩⟩ := q
    · exact fun p hp => absurd hp.symm (Option.some_ne_none p)
    · rintro p hp
      obtain rfl := Option.some.inj hp
      exact tail_of_row hrow

theorem Tailed.step {s : Option Pending} (h : Tailed s) (b : UInt8) : Tailed (step s b).2 := by
  cases s with
  | none => exact tailed_first b
  | some p =>
    obtain ⟨bits, r, rs⟩ := p
    by_cases hb : InRange r b
    · cases rs with
      | nil =>
        have hstep : Utf8.step (some ⟨bits, r, []⟩) b = ([addBits bits b], none) := if_pos hb
        rw [hstep]
        exact fun p hp => absurd hp.symm (Option.some_ne_none p)
      | cons r' rs =>
        have hstep : Utf8.step (some ⟨bits, r, r' :: rs⟩) b =
            ([], some ⟨addBits bits b, r', rs⟩) := if_pos hb
        rw [hstep]
        intro p hp
        obtain rfl := Option.some.inj hp
        exact fun r'' hr'' => h _ rfl r'' (List.mem_cons_of_mem r hr'')
    · have hstep : Utf8.step (some ⟨bits, r, rs⟩) b =
          (replacement :: (first b).1, (first b).2) := if_neg hb
      rw [hstep]
      exact tailed_first b

variable {s : Option Pending}

theorem Tailed.run (h : Tailed s) (l : Bytes) : Tailed (run s l).2 := by
  induction l generalizing s with
  | nil => exact h
  | cons b l ih => exact ih (h.step b)

theorem run_next (s : Option Pending) (hl : l ≠ []) : run s l = (next s l).after := by
  cases s with
  | some p => exact run_read p l
  | none =>
    obtain ⟨b, l, rfl⟩ := List.exists_cons_of_ne_nil hl
    cases hrow : row b with
    | none =>
      rw [run, step, next, first, hrow]
      rfl
    | some p =>
      obtain ⟨bits, rs⟩ := p
      cases rs with
      | nil =>
        rw [run, step, next, first, hrow]
        rfl
      | cons r rs =>
        rw [run, step, next, first, hrow]
        exact run_read ⟨bits, r, rs⟩ l

theorem read_cases (p : Pending) (l : Bytes) :
    (∃ l₁ l₂, l = l₁ ++ l₂ ∧ Fits (p.next :: p.others) l₁ ∧
      read p l = .char (codePoint p.bits l₁) l₂) ∨
    (∃ rs q, p.next :: p.others = rs ++ q.next :: q.others ∧ Fits rs l ∧ read p l = .more q) ∨
    ∃ l₁ l₂ b rs₁ r rs₂, l = l₁ ++ b :: l₂ ∧ p.next :: p.others = rs₁ ++ r :: rs₂ ∧ Fits rs₁ l₁ ∧
      ¬InRange r b ∧ read p l = .ill (b :: l₂) := by
  induction l generalizing p with
  | nil => exact .inr (.inl ⟨[], p, rfl, trivial, rfl⟩)
  | cons b l ih =>
    obtain ⟨bits, r, rs⟩ := p
    by_cases hb : InRange r b
    · cases rs with
      | nil => exact .inl ⟨[b], l, rfl, ⟨hb, trivial⟩, if_pos hb⟩
      | cons r' rs =>
        have hread : read ⟨bits, r, r' :: rs⟩ (b :: l) = read ⟨addBits bits b, r', rs⟩ l :=
          if_pos hb
        rw [hread]
        rcases ih ⟨addBits bits b, r', rs⟩ with ⟨l₁, l₂, rfl, hfits, heq⟩ |
          ⟨rs₁, q, hrs, hfits, heq⟩ | ⟨l₁, l₂, b', rs₁, r'', rs₂, rfl, hrs, hfits, hb', heq⟩
        · exact .inl ⟨b :: l₁, l₂, rfl, ⟨hb, hfits⟩, heq⟩
        · exact .inr (.inl ⟨r :: rs₁, q, congrArg (r :: ·) hrs, ⟨hb, hfits⟩, heq⟩)
        · exact .inr (.inr ⟨b :: l₁, l₂, b', r :: rs₁, r'', rs₂, rfl, congrArg (r :: ·) hrs,
            ⟨hb, hfits⟩, hb', heq⟩)
    · exact .inr (.inr ⟨[], l, b, [], r, rs, rfl, rfl, trivial, hb, if_neg hb⟩)

theorem read_char_length {p : Pending} (h : read p l = .char n rest) : rest.length < l.length := by
  rcases read_cases p l with ⟨l₁, l₂, rfl, hfits, heq⟩ | ⟨_, q, _, _, heq⟩ |
    ⟨_, _, _, _, _, _, _, _, _, _, heq⟩
  · obtain ⟨-, rfl⟩ := Outcome.char.inj (heq.symm.trans h)
    have hlength := hfits.length
    rw [List.length_cons] at hlength
    rw [List.length_append]
    omega
  · exact nomatch heq.symm.trans h
  · exact nomatch heq.symm.trans h

theorem read_ill_length {p : Pending} (h : read p l = .ill rest) : rest.length ≤ l.length := by
  rcases read_cases p l with ⟨_, _, _, _, heq⟩ | ⟨_, q, _, _, heq⟩ |
    ⟨l₁, l₂, b, _, _, _, rfl, _, _, _, heq⟩
  · exact nomatch heq.symm.trans h
  · exact nomatch heq.symm.trans h
  · obtain rfl := Outcome.ill.inj (heq.symm.trans h)
    rw [List.length_append]
    omega

theorem next_char_length (h : next s l = .char n rest) : rest.length < l.length := by
  cases s with
  | some p => exact read_char_length h
  | none =>
    cases l with
    | nil => exact nomatch h
    | cons b l =>
      rw [next] at h
      split at h
      · exact nomatch h
      · obtain ⟨-, rfl⟩ := Outcome.char.inj h
        exact Nat.lt_succ_self _
      · exact (read_char_length h).trans (Nat.lt_succ_self _)

theorem next_ill_length (h : next s l = .ill rest) (hl : l ≠ []) :
    rest.length + (if s = none then 1 else 0) ≤ l.length := by
  cases s with
  | some p => exact read_ill_length h
  | none =>
    obtain ⟨b, l, rfl⟩ := List.exists_cons_of_ne_nil hl
    rw [if_pos rfl, List.length_cons]
    refine Nat.succ_le_succ ?_
    rw [next] at h
    split at h
    · obtain rfl := Outcome.ill.inj h
      exact Nat.le_refl _
    · exact nomatch h
    · exact read_ill_length h

theorem maximalSubpart_of_fits {bits : ℕ} {rs₁ rs₂ : List Range} {r : Range}
    (hrow : row b = some (bits, rs₁ ++ r :: rs₂)) (hfits : Fits rs₁ l)
    (hrest : ∀ b' l', rest = b' :: l' → ¬InRange r b') : MaximalSubpart (b :: l) rest := by
  have hlonger : ∀ rs rs' m, m ≠ [] → Fits rs (l ++ m) → m <+: rest →
      rs ++ rs' = rs₁ ++ r :: rs₂ → False := by
    intro rs rs' m hm hl hprefix hrs
    obtain ⟨b', m, rfl⟩ := List.exists_cons_of_ne_nil hm
    obtain ⟨rest', hrest'⟩ := hprefix
    have hlength := hl.length
    rw [List.length_append, List.length_cons, hfits.length] at hlength
    obtain ⟨rs₃, rfl⟩ : rs₁ <+: rs :=
      List.prefix_of_prefix_length_le ⟨r :: rs₂, hrs.symm⟩ ⟨rs', rfl⟩ (by omega)
    have hin := ((fits_append hfits.length).1 hl).2
    rw [List.append_assoc] at hrs
    have hrs := List.append_cancel_left hrs
    cases rs₃ with
    | nil => exact hin
    | cons r' rs₃ =>
      obtain ⟨rfl, -⟩ := List.cons.inj hrs
      exact hrest b' (m ++ rest') hrest'.symm hin.1
  refine ⟨?_, List.cons_ne_nil b l, .inl (begins_cons_iff.2 ⟨bits, rs₁, r :: rs₂, hrow, hfits⟩), ?_⟩
  · intro m n hprefix hsequence
    cases hsequence with
    | @intro b' bits' rs l' hrow' hfits' =>
      have hcons : b' :: l' <+: b :: (l ++ rest) := hprefix
      obtain ⟨rfl, hl'⟩ := List.cons_prefix_cons.1 hcons
      have hsame := hrow'.symm.trans hrow
      cases hsame
      have hlength := hfits'.length
      rw [List.length_append, List.length_cons, ← hfits.length] at hlength
      obtain ⟨m, rfl⟩ : l <+: l' :=
        List.prefix_of_prefix_length_le (List.prefix_append l rest) hl' (by omega)
      have hm : m ≠ [] := by
        rintro rfl
        rw [List.append_nil] at hlength
        omega
      exact hlonger _ [] m hm hfits' ((List.prefix_append_right_inj l).1 hl') (List.append_nil _)
  · intro m hm hprefix hbegins
    obtain ⟨bits', rs, rs', hrow', hfits'⟩ := begins_cons_iff.1 hbegins
    have hsame := hrow'.symm.trans hrow
    obtain ⟨-, hrs⟩ := Prod.mk.inj (Option.some.inj hsame)
    exact hlonger rs rs' m hm hfits' hprefix hrs

theorem MaximalSubpart.shorten {s rest' : Bytes} (h : MaximalSubpart s (rest ++ rest')) :
    MaximalSubpart s rest where
  ill_formed m n hm := h.ill_formed m n (by
    rw [← List.append_assoc]
    exact hm.trans (List.prefix_append _ _))
  ne_nil := h.ne_nil
  begins := h.begins
  maximal m hne hm := h.maximal m hne (hm.trans (List.prefix_append _ _))

def Incomplete (l : Bytes) : Prop := Begins l ∧ MaximalSubpart l []

theorem next_cases (hl : l ≠ []) :
    (∃ s n rest, l = s ++ rest ∧ Sequence s n ∧ next none l = .char n rest) ∨
    (∃ p, Incomplete l ∧ next none l = .more p) ∨
    ∃ s rest, l = s ++ rest ∧ MaximalSubpart s rest ∧ next none l = .ill rest := by
  obtain ⟨b, l, rfl⟩ := List.exists_cons_of_ne_nil hl
  cases hrow : row b with
  | none =>
    have hnone : ∀ m, ¬Begins (b :: m) := by
      intro m hm
      obtain ⟨bits, rs, rs', hrow', -⟩ := begins_cons_iff.1 hm
      exact nomatch hrow.symm.trans hrow'
    refine .inr (.inr ⟨[b], l, rfl, ⟨?_, List.cons_ne_nil b [], .inr rfl, fun m _ _ => hnone m⟩,
      ?_⟩)
    · intro m n hprefix hsequence
      obtain ⟨b', m, rfl⟩ := List.exists_cons_of_ne_nil hsequence.ne_nil
      obtain ⟨rfl, -⟩ := List.cons_prefix_cons.1 hprefix
      refine hnone m ⟨[], n, ?_⟩
      rwa [List.append_nil]
    · rw [next, hrow]
  | some p =>
    obtain ⟨bits, rs⟩ := p
    cases rs with
    | nil =>
      refine .inl ⟨[b], bits, l, rfl, .intro hrow (l := []) trivial, ?_⟩
      rw [next, hrow]
    | cons r rs =>
      have hnext : next none (b :: l) = read ⟨bits, r, rs⟩ l := by rw [next, hrow]
      rw [hnext]
      rcases read_cases ⟨bits, r, rs⟩ l with ⟨l₁, l₂, rfl, hfits, heq⟩ |
        ⟨rs₁, q, hrs, hfits, heq⟩ | ⟨l₁, l₂, b', rs₁, r', rs₂, rfl, hrs, hfits, hb', heq⟩
      · exact .inl ⟨b :: l₁, _, l₂, rfl, .intro hrow hfits, heq⟩
      · rw [show r :: rs = rs₁ ++ q.next :: q.others from hrs] at hrow
        exact .inr (.inl ⟨q, ⟨begins_cons_iff.2 ⟨bits, rs₁, _, hrow, hfits⟩,
          maximalSubpart_of_fits hrow hfits fun _ _ h => nomatch h⟩, heq⟩)
      · rw [show r :: rs = rs₁ ++ r' :: rs₂ from hrs] at hrow
        refine .inr (.inr ⟨b :: l₁, b' :: l₂, rfl, maximalSubpart_of_fits hrow hfits ?_, heq⟩)
        intro b'' l'' h
        obtain ⟨rfl, -⟩ := List.cons.inj h
        exact hb'

theorem run_spec (l : Bytes) : ∃ done rest, l = done ++ rest ∧ Decodes done (run none l).1 ∧
    ((run none l).2 = none ∧ rest = [] ∨ (run none l).2 ≠ none ∧ Incomplete rest) := by
  induction hlength : l.length using Nat.strong_induction_on generalizing l with
  | _ k ih =>
    subst hlength
    by_cases hl : l = []
    · subst hl
      exact ⟨[], [], rfl, .nil, .inl ⟨rfl, rfl⟩⟩
    rw [run_next none hl]
    rcases next_cases hl with ⟨s, n, l', rfl, hs, heq⟩ | ⟨p, hp, heq⟩ | ⟨s, l', rfl, hs, heq⟩
    · have hpos := List.length_pos_iff.2 hs.ne_nil
      obtain ⟨done, rest, rfl, hdone, hrest⟩ :=
        ih l'.length (by rw [List.length_append]; omega) l' rfl
      rw [heq]
      exact ⟨s ++ done, rest, (List.append_assoc _ _ _).symm, .char hs hdone, hrest⟩
    · rw [heq]
      exact ⟨[], l, rfl, .nil, .inr ⟨nofun, hp⟩⟩
    · have hpos := List.length_pos_iff.2 hs.ne_nil
      obtain ⟨done, rest, rfl, hdone, hrest⟩ :=
        ih l'.length (by rw [List.length_append]; omega) l' rfl
      rw [heq]
      exact ⟨s ++ done, rest, (List.append_assoc _ _ _).symm, .subpart hs.shorten hdone, hrest⟩

theorem isValidChar_run (l : Bytes) : ∀ n ∈ (run none l).1, n.isValidChar := by
  obtain ⟨done, rest, -, hdone, -⟩ := run_spec l
  exact hdone.isValidChar

theorem decodes_decode (l : Bytes) : Decodes l (decode l) := by
  induction hlength : l.length using Nat.strong_induction_on generalizing l with
  | _ k ih =>
    subst hlength
    by_cases hl : l = []
    · subst hl
      exact .nil
    rw [decode, run_next none hl]
    rcases next_cases hl with ⟨s, n, rest, rfl, hs, heq⟩ | ⟨p, hp, heq⟩ | ⟨s, rest, rfl, hs, heq⟩
    · have hpos := List.length_pos_iff.2 hs.ne_nil
      rw [heq]
      exact .char hs (ih rest.length (by rw [List.length_append]; omega) rest rfl)
    · rw [heq]
      have hwhole : Decodes (l ++ []) [replacement] := .subpart hp.2 .nil
      rwa [List.append_nil] at hwhole
    · have hpos := List.length_pos_iff.2 hs.ne_nil
      rw [heq]
      exact .subpart hs (ih rest.length (by rw [List.length_append]; omega) rest rfl)

theorem wellFormed_append_iff {s : Bytes} (hs : Sequence s n) :
    WellFormed (s ++ rest) ↔ WellFormed rest := by
  constructor
  · intro h
    generalize hl : s ++ rest = l at h
    cases h with
    | nil => exact absurd (List.append_eq_nil_iff.1 hl).1 hs.ne_nil
    | append hs' hrest =>
      obtain ⟨rfl, -⟩ := hs.unique hs' hl
      rwa [List.append_cancel_left hl]
  · exact .append hs

theorem MaximalSubpart.not_wellFormed {s : Bytes} (hs : MaximalSubpart s rest) :
    ¬WellFormed (s ++ rest) := by
  intro h
  generalize hl : s ++ rest = l at h
  cases h with
  | nil => exact hs.ne_nil (List.append_eq_nil_iff.1 hl).1
  | append hs' hrest => exact hs.ill_formed _ _ (hl ▸ List.prefix_append _ _) hs'

end Utf8
