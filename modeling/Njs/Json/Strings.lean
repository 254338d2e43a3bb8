import Njs.Json.CodeUnits

/-!
# What the parser makes of a string

The first pass takes a string apart into pieces, and the second one gives the string that the
pieces,
read again, denote. The buffer has room for it.
-/

namespace Njs.Json

open Text
open SharedDict (ScanState isHexDigit isEscapeChar escapedChar unescape ngxJsUnicode njsSurrogateAny
  encodePair unescape_of_ne unescape_letter unescape_code unescape_surrogate)

@[simp] theorem piecesText_nil : piecesText [] = [] := rfl

@[simp] theorem piecesText_cons (x : Piece) (l : List Piece) :
    piecesText (x :: l) = x.text ++ piecesText l := rfl

/-- What the escapes of a piece are longer than what they stand for, as the first pass counts. -/
def Piece.surplus : Piece → ℕ
  | .byte _ _ => 0
  | .escape _ _ => 1
  | .unit _ _ _ _ => 3

def surplus (l : List Piece) : ℕ := (l.map Piece.surplus).sum

@[simp] theorem surplus_nil : surplus [] = 0 := rfl

@[simp] theorem surplus_cons (x : Piece) (l : List Piece) :
    surplus (x :: l) = x.surplus + surplus l := rfl

/-! ### The first pass -/

theorem scanString_nil (s : ScanState) :
    scanString s [] = parseException "Unexpected end of input" [] := by
  cases s <;> rfl

theorem scanString_usual (ch : UInt8) (p : Bytes) : scanString .usual (ch :: p) =
    if ch = chr '"' then .ok ([], 0, p)
    else if ch = chr '\\' then scanned ch 0 (scanString .escape p)
    else if ch ≥ chr ' ' then scanned ch 0 (scanString .usual p)
    else parseException "Forbidden source char" (ch :: p) := rfl

theorem scanString_escape (ch : UInt8) (p : Bytes) : scanString .escape (ch :: p) =
    if isEscapeChar ch then scanned ch 1 (scanString .usual p)
    else if ch = chr 'u' then scanned ch 3 (scanString .encoded1 p)
    else parseException "Unknown escape char" (ch :: p) := rfl

def AwaitsDigit (s s' : ScanState) : Prop :=
  ∀ ch p, scanString s (ch :: p) =
    if isHexDigit ch then scanned ch 0 (scanString s' p)
    else parseException "Invalid Unicode escape sequence" (ch :: p)

theorem awaitsDigit_encoded1 : AwaitsDigit .encoded1 .encoded2 := fun _ _ => rfl

theorem awaitsDigit_encoded2 : AwaitsDigit .encoded2 .encoded3 := fun _ _ => rfl

theorem awaitsDigit_encoded3 : AwaitsDigit .encoded3 .encoded4 := fun _ _ => rfl

theorem awaitsDigit_encoded4 : AwaitsDigit .encoded4 .usual := fun _ _ => rfl

variable {p text rest : Bytes} {n : ℕ} {a b c d : HexDigit} {l : List Piece}

theorem scanString_piece (x : Piece) (h : scanString .usual p = .ok (text, n, rest)) :
    scanString .usual (x.text ++ p) = .ok (x.text ++ text, x.surplus + n, rest) := by
  have hslash : chr '\\' ≠ chr '"' := by decide
  have hu : isEscapeChar (chr 'u') = false := by decide
  cases x with
  | byte ch hch =>
    obtain ⟨hge, hquote, hne⟩ := hch
    simp [Piece.text, Piece.surplus, scanString_usual, hquote, hne, hge, h, scanned]
  | escape ch hch =>
    simp [Piece.text, Piece.surplus, scanString_usual, scanString_escape, hslash, hch, h, scanned,
      Nat.add_comm]
  | unit a b c d =>
    simp [Piece.text, Piece.surplus, scanString_usual, scanString_escape, awaitsDigit_encoded1 _ _,
      awaitsDigit_encoded2 _ _, awaitsDigit_encoded3 _ _, awaitsDigit_encoded4 _ _, hslash, hu, a.2,
      b.2, c.2, d.2, h, scanned, Nat.add_comm]

theorem scanString_pieces (l : List Piece) (rest : Bytes) :
    scanString .usual (piecesText l ++ chr '"' :: rest) = .ok (piecesText l, surplus l, rest) := by
  induction l with
  | nil => simp [scanString_usual]
  | cons x l ih => rw [piecesText_cons, List.append_assoc, scanString_piece x ih, surplus_cons]

theorem scanned_eq_ok {ch : UInt8} {m : ℕ} {x : Except Error (Bytes × ℕ × Bytes)}
    (h : scanned ch n x = .ok (text, m, rest)) :
    ∃ text' m', x = .ok (text', m', rest) ∧ text = ch :: text' ∧ m = m' + n := by
  cases x with
  | error e => cases h
  | ok r =>
    obtain ⟨text', m', rest'⟩ := r
    simp only [scanned, Except.ok.injEq, Prod.mk.injEq] at h
    obtain ⟨rfl, rfl, rfl⟩ := h
    exact ⟨text', m', rfl, rfl, rfl⟩

theorem AwaitsDigit.scanString {s s' : ScanState} {m : ℕ} (hs : AwaitsDigit s s')
    (h : scanString s p = .ok (text, m, rest)) :
    ∃ (ch : HexDigit) (q text' : Bytes), p = ch.1 :: q ∧ text = ch.1 :: text' ∧
      scanString s' q = .ok (text', m, rest) := by
  cases p with
  | nil =>
    rw [scanString_nil] at h
    cases h
  | cons ch p =>
    rw [hs] at h
    split_ifs at h with hch
    · obtain ⟨text', m', hscan, rfl, rfl⟩ := scanned_eq_ok h
      exact ⟨⟨ch, hch⟩, p, text', rfl, rfl, hscan⟩
    · cases h

theorem scanString_escape_spec (h : scanString .escape p = .ok (text, n, rest)) :
    ∃ (x : Piece) (q text' : Bytes) (n' : ℕ), chr '\\' :: p = x.text ++ q ∧
      chr '\\' :: text = x.text ++ text' ∧ n = x.surplus + n' ∧
      scanString .usual q = .ok (text', n', rest) := by
  cases p with
  | nil =>
    rw [scanString_nil] at h
    cases h
  | cons e p =>
    rw [scanString_escape] at h
    split_ifs at h with hesc hu
    · obtain ⟨text', n', hscan, rfl, rfl⟩ := scanned_eq_ok h
      exact ⟨.escape e hesc, p, text', n', rfl, rfl, Nat.add_comm n' 1, hscan⟩
    · obtain ⟨text₀, n', h₀, rfl, rfl⟩ := scanned_eq_ok h
      obtain ⟨a, p₁, text₁, rfl, rfl, h₁⟩ := awaitsDigit_encoded1.scanString h₀
      obtain ⟨b, p₂, text₂, rfl, rfl, h₂⟩ := awaitsDigit_encoded2.scanString h₁
      obtain ⟨c, p₃, text₃, rfl, rfl, h₃⟩ := awaitsDigit_encoded3.scanString h₂
      obtain ⟨d, p₄, text₄, rfl, rfl, h₄⟩ := awaitsDigit_encoded4.scanString h₃
      subst hu
      exact ⟨.unit a b c d, p₄, text₄, n', rfl, rfl, Nat.add_comm n' 3, h₄⟩
    · cases h

theorem scanString_cases (h : scanString .usual p = .ok (text, n, rest)) :
    (text = [] ∧ n = 0 ∧ p = chr '"' :: rest) ∨
    ∃ (x : Piece) (q text' : Bytes) (n' : ℕ), p = x.text ++ q ∧ text = x.text ++ text' ∧
      n = x.surplus + n' ∧ scanString .usual q = .ok (text', n', rest) := by
  cases p with
  | nil =>
    rw [scanString_nil] at h
    cases h
  | cons ch p =>
    rw [scanString_usual] at h
    split_ifs at h with hquote hslash hge
    · simp only [Except.ok.injEq, Prod.mk.injEq] at h
      obtain ⟨rfl, rfl, rfl⟩ := h
      exact .inl ⟨rfl, rfl, by rw [hquote]⟩
    · obtain ⟨text', n', hscan, rfl, rfl⟩ := scanned_eq_ok h
      subst hslash
      exact .inr (scanString_escape_spec hscan)
    · obtain ⟨text', n', hscan, rfl, rfl⟩ := scanned_eq_ok h
      exact .inr ⟨.byte ch ⟨hge, hquote, hslash⟩, p, text', _, rfl, rfl,
        (Nat.zero_add _).symm, hscan⟩
    · cases h

theorem scanString_spec (h : scanString .usual p = .ok (text, n, rest)) :
    ∃ l, text = piecesText l ∧ n = surplus l ∧ p = text ++ chr '"' :: rest := by
  induction hlen : p.length using Nat.strong_induction_on generalizing p text n with
  | h k ih =>
    subst hlen
    obtain ⟨rfl, rfl, rfl⟩ | ⟨x, q, text', n', rfl, rfl, rfl, hscan⟩ := scanString_cases h
    · exact ⟨[], rfl, rfl, rfl⟩
    · have hpos : 0 < x.text.length := by cases x <;> exact Nat.succ_pos _
      obtain ⟨l, rfl, rfl, rfl⟩ := ih q.length (by rw [List.length_append]; omega) hscan rfl
      exact ⟨x :: l, rfl, rfl, (List.append_assoc _ _ _).symm⟩

theorem scanString_error {s : ScanState} {e : Error} (h : scanString s p = .error e) :
    ∃ msg left, e = .syntaxError msg left := by
  have hscanned : ∀ {ch : UInt8} {n : ℕ} {x : Except Error (Bytes × ℕ × Bytes)},
      scanned ch n x = .error e → x = .error e := by
    intro ch n x hx
    cases x with
    | error e' => exact hx
    | ok r => cases hx
  have hexception : ∀ {msg : String} {p : Bytes},
      (parseException msg p : Except Error (Bytes × ℕ × Bytes)) = .error e →
      ∃ msg left, e = .syntaxError msg left :=
    fun hx => ⟨_, _, (Except.error.inj hx).symm⟩
  have hdigit {s s' : ScanState} (hs : AwaitsDigit s s') {ch : UInt8} {p : Bytes}
      (ih : ∀ {s}, scanString s p = .error e → ∃ msg left, e = .syntaxError msg left)
      (h : scanString s (ch :: p) = .error e) : ∃ msg left, e = .syntaxError msg left := by
    rw [hs] at h
    split_ifs at h
    · exact ih (hscanned h)
    · exact hexception h
  induction p generalizing s with
  | nil =>
    rw [scanString_nil] at h
    exact hexception h
  | cons ch p ih =>
    cases s with
    | usual =>
      rw [scanString_usual] at h
      split_ifs at h
      · exact ih (hscanned h)
      · exact ih (hscanned h)
      · exact hexception h
    | escape =>
      rw [scanString_escape] at h
      split_ifs at h
      · exact ih (hscanned h)
      · exact ih (hscanned h)
      · exact hexception h
    | encoded1 => exact hdigit awaitsDigit_encoded1 ih h
    | encoded2 => exact hdigit awaitsDigit_encoded2 ih h
    | encoded3 => exact hdigit awaitsDigit_encoded3 ih h
    | encoded4 => exact hdigit awaitsDigit_encoded4 ih h

/-! ### The second pass -/

/-- The bytes that can stand after a backslash. -/
structure EscapeChar (ch : UInt8) : Prop where
  ne_u : ch ≠ chr 'u'
  value : ∃ b, escapedChar ch = some b

theorem escapeChar (ch : UInt8) (hch : isEscapeChar ch = true) : EscapeChar ch := by
  have hall : (SharedDict.literal ['"', '\\', '/', 'n', 'r', 't', 'b', 'f']).all
      (fun ch => ch != chr 'u' && (escapedChar ch).isSome) = true := by rfl
  have h := List.all_eq_true.1 hall ch (of_decide_eq_true hch)
  rw [Bool.and_eq_true, bne_iff_ne] at h
  exact ⟨h.1, Option.isSome_iff_exists.mp h.2⟩

/-- A text that does not go on with a Unicode escape. -/
def NoUnit (p : Bytes) : Prop :=
  ∀ x y q, p = x :: y :: q → x ≠ chr '\\' ∨ y ≠ chr 'u'

theorem unescape_lone (hany : njsSurrogateAny (ngxJsUnicode a.1 b.1 c.1 d.1) = true)
    (hp : ¬IsLeading (unitValue a b c d) ∨ NoUnit p) :
    unescape (Piece.text (.unit a b c d) ++ p) = encodeCode 0xfffd ++ unescape p := by
  obtain ⟨hvalue, -⟩ := toNat_unicode a b c d
  rw [← njsUtf8Encode_replacement]
  simp only [Piece.text, List.cons_append, List.nil_append]
  rw [unescape_surrogate hany]
  split
  · rw [if_pos]
    obtain hlead | hp := hp
    · refine .inl ?_
      rw [gt_iff_lt, UInt32.lt_iff_toNat_lt, hvalue, show (0xdbff : UInt32).toNat = 0xdbff from rfl]
      have hsurrogate := (surrogateAny_iff _).mp hany
      rw [hvalue] at hsurrogate
      obtain h | h := hsurrogate
      · exact absurd h hlead
      · exact Nat.lt_of_lt_of_le (by decide) h.1
    · exact .inr (hp _ _ _ rfl)
  · rfl

theorem unescape_plain (hany : njsSurrogateAny (ngxJsUnicode a.1 b.1 c.1 d.1) = false) (p : Bytes) :
    unescape (Piece.text (.unit a b c d) ++ p) = encodeUnit (unitValue a b c d) ++ unescape p := by
  obtain ⟨hvalue, hlt⟩ := toNat_unicode a b c d
  rw [← hvalue] at hlt ⊢
  rw [encodeUnit_eq hlt, hany]
  exact unescape_code hany p

theorem unescape_unit (hp : ¬IsLeading (unitValue a b c d) ∨ NoUnit p) :
    unescape (Piece.text (.unit a b c d) ++ p) = encodeUnit (unitValue a b c d) ++ unescape p := by
  cases hany : njsSurrogateAny (ngxJsUnicode a.1 b.1 c.1 d.1) with
  | false => exact unescape_plain hany p
  | true =>
    have hsurrogate := (surrogateAny_iff _).mp hany
    rw [(toNat_unicode a b c d).1] at hsurrogate
    rw [unescape_lone hany hp, encodeUnit, if_pos hsurrogate]

theorem unescape_pair (hlead : IsLeading (unitValue a b c d)) (a' b' c' d' : HexDigit) (p : Bytes) :
    unescape (Piece.text (.unit a b c d) ++ (Piece.text (.unit a' b' c' d') ++ p)) =
      encodePair (ngxJsUnicode a.1 b.1 c.1 d.1) (ngxJsUnicode a'.1 b'.1 c'.1 d'.1) ++
        unescape p := by
  obtain ⟨hvalue, -⟩ := toNat_unicode a b c d
  have hany : njsSurrogateAny (ngxJsUnicode a.1 b.1 c.1 d.1) = true := by
    rw [surrogateAny_iff, hvalue]
    exact .inl hlead
  have hle : ¬0xdbff < ngxJsUnicode a.1 b.1 c.1 d.1 := by
    rw [UInt32.lt_iff_toNat_lt, hvalue, show (0xdbff : UInt32).toNat = 0xdbff from rfl]
    exact Nat.not_lt.mpr (Nat.le_of_lt_succ hlead.2)
  simp only [Piece.text, List.cons_append, List.nil_append]
  rw [unescape_surrogate hany]
  simp [hle]

theorem denote_unit
    (h : ¬IsLeading (unitValue a b c d) ∨ ∀ a' b' c' d' l', l = .unit a' b' c' d' :: l' →
      ¬IsTrailing (unitValue a' b' c' d')) :
    denote (.unit a b c d :: l) = encodeUnit (unitValue a b c d) ++ denote l := by
  match l with
  | [] => rfl
  | .byte ch hch :: l => rfl
  | .escape ch hch :: l => rfl
  | .unit a' b' c' d' :: l =>
    have hnot : ¬(IsLeading (unitValue a b c d) ∧ IsTrailing (unitValue a' b' c' d')) := by
      rintro ⟨hlead, htrail⟩
      obtain h | h := h
      · exact h hlead
      · exact h _ _ _ _ _ rfl htrail
    rw [denote]
    simp only [if_neg hnot]

theorem unitValue_replacement : unitValue ⟨chr 'f', by decide⟩ ⟨chr 'f', by decide⟩
    ⟨chr 'f', by decide⟩ ⟨chr 'd', by decide⟩ = 0xfffd := by decide

theorem denote_replacement (l : List Piece) :
    denote (replacement :: l) = encodeCode 0xfffd ++ denote l := by
  have hlead : ¬IsLeading 0xfffd := by decide
  have hunit : encodeUnit 0xfffd = encodeCode 0xfffd := if_neg (by decide)
  rw [replacement, denote_unit (.inl (by rw [unitValue_replacement]; exact hlead)),
    unitValue_replacement, hunit]

/-- Pieces that do not begin with a code unit. -/
def StartsPlain : List Piece → Prop
  | .unit _ _ _ _ :: _ => False
  | _ => True

theorem StartsPlain.noUnit (h : StartsPlain l) : NoUnit (piecesText l) := by
  intro x y q hq
  match l, h with
  | [], _ => cases hq
  | .byte ch hch :: l, _ =>
    obtain ⟨rfl, -⟩ := List.cons.inj hq
    exact .inl hch.2.2
  | .escape ch hch :: l, _ =>
    obtain ⟨-, hq⟩ := List.cons.inj hq
    obtain ⟨rfl, -⟩ := List.cons.inj hq
    exact .inr (escapeChar ch hch).ne_u

theorem StartsPlain.reread (h : StartsPlain l) : StartsPlain (reread l) := by
  match l, h with
  | [], _ => trivial
  | .byte ch hch :: l, _ => trivial
  | .escape ch hch :: l, _ => trivial

theorem unescape_pieces (l : List Piece) : unescape (piecesText l) = denote (reread l) := by
  fun_induction reread l with
  | case1 a b c d a' b' c' d' l hlead hlead' ih =>
    obtain ⟨hvalue, -⟩ := toNat_unicode a b c d
    obtain ⟨hvalue', hlt'⟩ := toNat_unicode a' b' c' d'
    have htrail : ¬IsTrailing (unitValue a' b' c' d') := fun h =>
      absurd (Nat.lt_of_lt_of_le hlead'.2 h.1) (Nat.lt_irrefl _)
    have hlead₀ : encodeUnit (unitValue a b c d) = encodeCode 0xfffd := if_pos (.inl hlead)
    have hlead₁ : encodeUnit (unitValue a' b' c' d') = encodeCode 0xfffd := if_pos (.inl hlead')
    rw [piecesText_cons, piecesText_cons, unescape_pair hlead, ih,
      encodePair_eq (by rw [hvalue]; exact hlead) (by rw [hvalue']; exact hlt'), hvalue',
      if_neg htrail, hlead₁, denote_unit, denote_replacement, hlead₀, List.append_assoc]
    refine .inr fun _ _ _ _ _ h => ?_
    cases h
    rw [unitValue_replacement]
    decide
  | case2 a b c d a' b' c' d' l hlead hlead' ih =>
    obtain ⟨hvalue, -⟩ := toNat_unicode a b c d
    obtain ⟨hvalue', hlt'⟩ := toNat_unicode a' b' c' d'
    have hlead₀ : encodeUnit (unitValue a b c d) = encodeCode 0xfffd := if_pos (.inl hlead)
    rw [piecesText_cons, piecesText_cons, unescape_pair hlead, ih,
      encodePair_eq (by rw [hvalue]; exact hlead) (by rw [hvalue']; exact hlt'), hvalue, hvalue',
      denote]
    by_cases htrail : IsTrailing (unitValue a' b' c' d')
    · simp only [hlead, htrail, and_self, if_true]
    · simp only [htrail, and_false, if_false]
      rw [denote_unit (.inl hlead'), hlead₀, List.append_assoc]
  | case3 a b c d a' b' c' d' l hlead ih =>
    rw [piecesText_cons, unescape_unit (.inl hlead), ih, denote_unit (.inl hlead)]
  | case4 x l hnot ih =>
    rw [piecesText_cons]
    cases x with
    | byte ch hch =>
      rw [denote, ← ih]
      exact unescape_of_ne hch.2.2 _
    | escape ch hch =>
      obtain ⟨b, hb⟩ := (escapeChar ch hch).value
      rw [denote, ← ih, hb]
      exact unescape_letter hb _
    | unit a b c d =>
      have hl : StartsPlain l := by
        match l with
        | [] | .byte _ _ :: _ | .escape _ _ :: _ => trivial
        | .unit a' b' c' d' :: l => exact hnot _ _ _ _ _ _ _ _ _ rfl rfl
      rw [unescape_unit (.inr hl.noUnit), ih, denote_unit]
      refine .inr fun a' b' c' d' l' heq => ?_
      have hplain := hl.reread
      rw [heq] at hplain
      exact hplain.elim
  | case5 => rfl

/-! ### The room in the buffer -/

theorem length_encodeCode_le (n : ℕ) : (encodeCode n).length ≤ 4 := by
  rw [encodeCode, String.length_utf8EncodeChar]
  obtain h | h | h | h := (Char.ofNat n).utf8Size_eq <;> omega

theorem length_encodeUnit_le (hn : n < 0x10000) : (encodeUnit n).length ≤ 3 := by
  have h : ∀ m < 0x10000, ¬IsLeading m ∧ ¬IsTrailing m → (encodeCode m).length ≤ 3 := by
    intro m hm hnot
    have hvalid : m.isValidChar := by
      simp only [IsLeading, IsTrailing] at hnot
      show m < 0xd800 ∨ 0xdfff < m ∧ m < 0x110000
      omega
    have hval : (Char.ofNat m).val.toNat = m := by
      rw [Char.ofNat, dif_pos hvalid]
      rfl
    rw [encodeCode, String.length_utf8EncodeChar]
    by_contra hge
    have hfour : (Char.ofNat m).utf8Size = 4 := by
      obtain h | h | h | h := (Char.ofNat m).utf8Size_eq <;> omega
    have hgt := UInt32.lt_iff_toNat_lt.mp (Char.utf8Size_eq_four_iff.mp hfour)
    rw [hval, show (0xffff : UInt32).toNat = 0xffff from rfl] at hgt
    omega
  rw [encodeUnit]
  split_ifs with hs
  · exact h 0xfffd (by decide) (by decide)
  · exact h n hn (not_or.mp hs)

theorem length_denote_le (l : List Piece) :
    (denote l).length + surplus l ≤ (piecesText l).length := by
  fun_induction denote l with
  | case1 => exact le_rfl
  | case2 ch hch l ih =>
    simp only [surplus_cons, piecesText_cons, Piece.surplus, Piece.text, List.length_append,
      List.length_cons, List.length_nil]
    omega
  | case3 ch hch l ih =>
    obtain ⟨b, hb⟩ := (escapeChar ch hch).value
    simp only [surplus_cons, piecesText_cons, Piece.surplus, Piece.text, List.length_append,
      List.length_cons, List.length_nil, hb, Option.toList_some]
    omega
  | case4 a b c d a' b' c' d' l n n' hpair ih =>
    have hle := length_encodeCode_le (pairValue n n')
    simp only [surplus_cons, piecesText_cons, Piece.surplus, Piece.text, List.length_append,
      List.length_cons, List.length_nil]
    omega
  | case5 a b c d a' b' c' d' l n n' hpair ih =>
    have hle : (encodeUnit n).length ≤ 3 := length_encodeUnit_le (toNat_unicode a b c d).2
    rw [surplus_cons, piecesText_cons]
    simp only [Piece.surplus, Piece.text, List.length_append, List.length_cons, List.length_nil]
    omega
  | case6 a b c d l hnot ih =>
    have hle := length_encodeUnit_le (toNat_unicode a b c d).2
    simp only [surplus_cons, piecesText_cons, Piece.surplus, Piece.text, List.length_append,
      List.length_cons, List.length_nil]
    omega

theorem surplus_reread (l : List Piece) : surplus (reread l) = surplus l ∧
    (piecesText (reread l)).length = (piecesText l).length := by
  fun_induction reread l with
  | case1 a b c d a' b' c' d' l hlead hlead' ih =>
    simp [ih, replacement, Piece.surplus, Piece.text]
  | case2 a b c d a' b' c' d' l hlead hlead' ih => simp [ih]
  | case3 a b c d a' b' c' d' l hlead ih => simp [ih]
  | case4 x l hnot ih => simp [ih]
  | case5 => exact ⟨rfl, rfl⟩

theorem denote_of_surplus (h : surplus l = 0) : denote (reread l) = piecesText l := by
  induction l with
  | nil => rfl
  | cons x l ih =>
    rw [surplus_cons, Nat.add_eq_zero_iff] at h
    cases x with
    | byte ch hch =>
      rw [reread, denote, ih h.2]
      · rfl
      · exact fun _ _ _ _ _ _ _ _ _ hx => by cases hx
    | escape ch hch => exact absurd h.1 (Nat.one_ne_zero)
    | unit a b c d => exact absurd h.1 (Nat.succ_ne_zero 2)

/-! ### Whole strings -/

theorem parseString_quoted (l : List Piece) (rest : Bytes) :
    njsJsonParseString (quoted l ++ rest) = .ok (denote (reread l), rest) := by
  have happ : (quoted l ++ rest).tail = piecesText l ++ chr '"' :: rest := by
    rw [quoted, List.cons_append, List.tail_cons, List.append_assoc]
    rfl
  have hle := length_denote_le (reread l)
  rw [(surplus_reread l).1, (surplus_reread l).2] at hle
  rw [njsJsonParseString, happ, scanString_pieces]
  simp only
  by_cases hs : surplus l = 0
  · rw [if_pos hs, denote_of_surplus hs]
  · rw [if_neg hs, unescape_pieces, if_pos (by omega)]

theorem parseString_spec {s : Bytes} (h : njsJsonParseString p = .ok (s, rest))
    (hp : p.head? = some (chr '"')) : ∃ l, p = quoted l ++ rest ∧ s = denote (reread l) := by
  obtain ⟨q, rfl⟩ := List.head?_eq_some_iff.mp hp
  cases hscan : scanString .usual q with
  | error e =>
    rw [njsJsonParseString, List.tail_cons, hscan] at h
    cases h
  | ok r =>
    obtain ⟨text, n, rest'⟩ := r
    obtain ⟨l, rfl, rfl, rfl⟩ := scanString_spec hscan
    have happ : chr '"' :: (piecesText l ++ chr '"' :: rest') = quoted l ++ rest' := by
      rw [quoted, List.cons_append, List.append_assoc]
      rfl
    rw [happ, parseString_quoted] at h
    simp only [Except.ok.injEq, Prod.mk.injEq] at h
    obtain ⟨rfl, rfl⟩ := h
    exact ⟨l, happ, rfl⟩

theorem parseString_error {e : Error} (h : njsJsonParseString p = .error e)
    (hp : p.head? = some (chr '"')) : ∃ msg left, e = .syntaxError msg left := by
  obtain ⟨q, rfl⟩ := List.head?_eq_some_iff.mp hp
  cases hscan : scanString .usual q with
  | error e' =>
    rw [njsJsonParseString, List.tail_cons, hscan] at h
    obtain rfl : e' = e := Except.error.inj h
    exact scanString_error hscan
  | ok r =>
    obtain ⟨text, n, rest'⟩ := r
    obtain ⟨l, rfl, rfl, rfl⟩ := scanString_spec hscan
    have happ : chr '"' :: (piecesText l ++ chr '"' :: rest') = quoted l ++ rest' := by
      rw [quoted, List.cons_append, List.append_assoc]
      rfl
    rw [happ, parseString_quoted] at h
    cases h

/-! ### Unambiguity -/

theorem Piece.text_inj {x x' : Piece} {p' : Bytes} (h : x.text ++ p = x'.text ++ p') :
    x = x' ∧ p = p' := by
  cases x with
  | byte ch hch =>
    cases x' with
    | byte ch' hch' =>
      obtain ⟨rfl, rfl⟩ := List.cons.inj h
      exact ⟨rfl, rfl⟩
    | escape ch' hch' => exact absurd (List.cons.inj h).1 hch.2.2
    | unit a b c d => exact absurd (List.cons.inj h).1 hch.2.2
  | escape ch hch =>
    have hu := (escapeChar ch hch).ne_u
    cases x' with
    | byte ch' hch' => exact absurd (List.cons.inj h).1.symm hch'.2.2
    | escape ch' hch' =>
      obtain ⟨rfl, rfl⟩ := List.cons.inj (List.cons.inj h).2
      exact ⟨rfl, rfl⟩
    | unit a b c d => exact absurd (List.cons.inj (List.cons.inj h).2).1 hu
  | unit a b c d =>
    cases x' with
    | byte ch' hch' => exact absurd (List.cons.inj h).1.symm hch'.2.2
    | escape ch' hch' =>
      exact absurd (List.cons.inj (List.cons.inj h).2).1.symm (escapeChar ch' hch').ne_u
    | unit a' b' c' d' =>
      simp only [Piece.text, List.cons_append, List.nil_append, List.cons.injEq] at h
      obtain ⟨-, -, ha, hb, hc, hd, rfl⟩ := h
      exact ⟨by rw [Subtype.ext ha, Subtype.ext hb, Subtype.ext hc, Subtype.ext hd], rfl⟩

theorem Piece.text_ne_quote (x : Piece) (p q : Bytes) : x.text ++ p ≠ chr '"' :: q := by
  have hquote : chr '"' ≠ chr '\\' := by decide
  intro h
  cases x with
  | byte ch hch => exact hch.2.1 (List.cons.inj h).1
  | escape ch hch => exact hquote (List.cons.inj h).1.symm
  | unit a b c d => exact hquote (List.cons.inj h).1.symm

theorem piecesText_inj {l' : List Piece} {p' : Bytes}
    (h : piecesText l ++ chr '"' :: p = piecesText l' ++ chr '"' :: p') : l = l' ∧ p = p' := by
  induction l generalizing l' with
  | nil =>
    cases l' with
    | nil => exact ⟨rfl, (List.cons.inj h).2⟩
    | cons x' l' =>
      rw [piecesText_cons, List.append_assoc] at h
      exact absurd h.symm (x'.text_ne_quote _ _)
  | cons x l ih =>
    cases l' with
    | nil =>
      rw [piecesText_cons, List.append_assoc] at h
      exact absurd h (x.text_ne_quote _ _)
    | cons x' l' =>
      rw [piecesText_cons, piecesText_cons, List.append_assoc, List.append_assoc] at h
      obtain ⟨rfl, hrest⟩ := Piece.text_inj h
      obtain ⟨rfl, rfl⟩ := ih hrest
      exact ⟨rfl, rfl⟩

theorem quoted_inj {l' : List Piece} {p' : Bytes} (h : quoted l ++ p = quoted l' ++ p') :
    l = l' ∧ p = p' := by
  rw [quoted, quoted, List.cons_append, List.cons_append, List.append_assoc, List.append_assoc] at h
  exact piecesText_inj (List.cons.inj h).2

end Njs.Json
