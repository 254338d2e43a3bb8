import Njs.Strings.Uri

/-!
# Decoded URIs

What the decoders accept are the texts in which each percent sign begins escapes of the bytes of a
character.
-/

namespace Njs.Strings

open Text
open Indices (bytes)
open Query (UnicodeDecode njsUtf8Decode njsUtf8DecodeInit njsUnicodeMaxCodepoint njsUnicodeError hex
  hexValue escapeAt escaped escaped_bytes Idle bytes_cons bytes_append)

/-! ### Escapes -/

theorem bytes_percent (text : List Char) : bytes ('%' :: text) = chr '%' :: bytes text := rfl

variable {text run : List Char} {b : UInt8} {l : Bytes} {ctx : UnicodeDecode}

theorem escapeAt_eq_some : escapeAt ('%' :: text) = some b ↔
    ∃ c₀ c₁ rest d₀ d₁, text = c₀ :: c₁ :: rest ∧ hexValue c₀ = some d₀ ∧ hexValue c₁ = some d₁ ∧
      b = .ofNat (d₀ * 16 + d₁) := by
  rw [escapeAt, if_pos rfl]
  constructor
  · intro h
    obtain ⟨d₀, h₀, h⟩ := Option.bind_eq_some_iff.1 h
    obtain ⟨d₁, h₁, rfl⟩ := Option.map_eq_some_iff.1 h
    obtain _ | ⟨c₀, _ | ⟨c₁, rest⟩⟩ := text
    · exact absurd h₀ (by simp)
    · exact absurd h₁ (by simp)
    · exact ⟨c₀, c₁, rest, d₀, d₁, rfl, h₀, h₁, rfl⟩
  · rintro ⟨c₀, c₁, rest, d₀, d₁, rfl, h₀, h₁, rfl⟩
    simp only [List.head?_cons, List.tail_cons, Option.bind_some, h₀, h₁, Option.map_some]

theorem hex_lt {d : ℕ} (h : hex b = some d) : d < 16 := by
  have hall : ∀ b : UInt8, (hex b).all (· < 16) = true := forall_byte (by decide)
  have hb := hall b
  rwa [h, Option.all_some, decide_eq_true_eq] at hb

theorem njsStringDecodeUriCp_percent (p : Bytes) (expectPercent : Bool) :
    njsStringDecodeUriCp (chr '%' :: p) expectPercent =
      (escaped (chr '%' :: p)).elim (njsUnicodeError, p) fun r => (r.1.toNat, r.2) := by
  have hdecode : njsUtf8Decode njsUtf8DecodeInit (chr '%' :: p) = (0x25, njsUtf8DecodeInit, p) :=
    rfl
  rw [njsStringDecodeUriCp, hdecode]
  dsimp only
  rw [if_neg (not_not.2 rfl)]
  obtain _ | ⟨p₀, _ | ⟨p₁, p⟩⟩ := p
  · rfl
  · rfl
  rw [escaped, if_pos rfl]
  dsimp only
  obtain h₀ | ⟨d₀, h₀⟩ := Option.eq_none_or_eq_some (hex p₀) <;>
    obtain h₁ | ⟨d₁, h₁⟩ := Option.eq_none_or_eq_some (hex p₁)
  · rw [h₀, h₁]
    rfl
  · rw [h₀, h₁]
    rfl
  · rw [h₀, h₁]
    rfl
  have hd₀ := hex_lt h₀
  have hd₁ := hex_lt h₁
  have hbyte : (UInt8.ofNat ((d₀ <<< 4) ||| d₁)).toNat = (d₀ <<< 4) + d₁ := by
    rw [← Nat.shiftLeft_add_eq_or_of_lt (by omega), UInt8.toNat_ofNat']
    omega
  rw [h₀, h₁]
  dsimp only
  rw [Option.elim_some, hbyte]

theorem njsStringDecodeUriCp_char {c : Char} (hc : c ≠ '%') (rest : Bytes) (expectPercent : Bool) :
    njsStringDecodeUriCp (String.utf8EncodeChar c ++ rest) expectPercent =
      (if expectPercent then njsUnicodeError else c.toNat, rest) := by
  obtain ⟨ctx, hdecode, -⟩ :=
    njsUtf8Decode_char (show Idle njsUtf8DecodeInit from ⟨rfl, rfl⟩) c rest
  have hne : c.toNat ≠ 0x25 := fun h => hc (Char.toNat_inj.1 h)
  rw [njsStringDecodeUriCp, hdecode]
  dsimp only
  rw [if_pos hne]

theorem njsStringDecodeUriCp_escape (h : escapeAt ('%' :: text) = some b) (expectPercent : Bool) :
    njsStringDecodeUriCp (bytes ('%' :: text)) expectPercent = (b.toNat, bytes (text.drop 2)) := by
  have hescaped := escaped_bytes ('%' :: text)
  rw [h] at hescaped
  rw [bytes_percent] at hescaped ⊢
  rw [njsStringDecodeUriCp_percent, hescaped]
  rfl

theorem njsStringDecodeUriCp_none (h : escapeAt ('%' :: text) = none) (expectPercent : Bool) :
    (njsStringDecodeUriCp (bytes ('%' :: text)) expectPercent).1 = njsUnicodeError := by
  have hescaped := escaped_bytes ('%' :: text)
  rw [h] at hescaped
  rw [bytes_percent] at hescaped ⊢
  rw [njsStringDecodeUriCp_percent, hescaped]
  rfl

theorem max_lt_error : njsUnicodeMaxCodepoint < njsUnicodeError := by decide

theorem readEscapes_of (h : Escapes run l) (rest : List Char) :
    readEscapes l.length (bytes (run ++ rest)) = some (l, bytes rest) := by
  induction h with
  | nil => rfl
  | @cons c₀ c₁ d₀ d₁ run l h₀ h₁ h ih =>
    have hescape : escapeAt ('%' :: (c₀ :: c₁ :: run ++ rest)) = some (.ofNat (d₀ * 16 + d₁)) :=
      escapeAt_eq_some.2 ⟨c₀, c₁, run ++ rest, d₀, d₁, rfl, h₀, h₁, rfl⟩
    have hcp := njsStringDecodeUriCp_escape hescape true
    have hmax : ¬njsUnicodeMaxCodepoint < (UInt8.ofNat (d₀ * 16 + d₁)).toNat :=
      Nat.not_lt.2 (Nat.le_of_lt (Nat.lt_trans (UInt8.toNat_lt _) (by decide)))
    have htext : '%' :: c₀ :: c₁ :: run ++ rest = '%' :: (c₀ :: c₁ :: run ++ rest) := rfl
    have hdrop : (c₀ :: c₁ :: run ++ rest).drop 2 = run ++ rest := rfl
    rw [List.length_cons, readEscapes, htext, hcp]
    dsimp only
    rw [if_neg hmax, hdrop, ih, UInt8.ofNat_toNat]
    rfl

theorem exists_of_readEscapes {n : ℕ} {p : Bytes} (h : readEscapes n (bytes text) = some (l, p)) :
    ∃ run rest, text = run ++ rest ∧ Escapes run l ∧ p = bytes rest ∧ l.length = n := by
  induction n generalizing text l p with
  | zero =>
    obtain ⟨rfl, rfl⟩ := Prod.mk.inj (Option.some.inj h)
    exact ⟨[], text, rfl, .nil, rfl, rfl⟩
  | succ n ih =>
    rw [readEscapes, Option.ite_none_left_eq_some, Option.map_eq_some_iff] at h
    obtain ⟨hmax, ⟨l', p'⟩, hrest, hpair⟩ := h
    obtain ⟨rfl, rfl⟩ := Prod.mk.inj hpair
    obtain _ | ⟨c, text⟩ := text
    · exact absurd max_lt_error hmax
    by_cases hc : c = '%'
    · subst hc
      obtain hnone | ⟨b, hb⟩ := Option.eq_none_or_eq_some (escapeAt ('%' :: text))
      · rw [njsStringDecodeUriCp_none hnone] at hmax
        exact absurd max_lt_error hmax
      rw [njsStringDecodeUriCp_escape hb] at hrest
      obtain ⟨run, rest, hdrop, hrun, rfl, rfl⟩ := ih hrest
      obtain ⟨c₀, c₁, text, d₀, d₁, rfl, h₀, h₁, rfl⟩ := escapeAt_eq_some.1 hb
      obtain rfl : text = run ++ rest := hdrop
      refine ⟨'%' :: c₀ :: c₁ :: run, rest, rfl, ?_, rfl, rfl⟩
      rw [njsStringDecodeUriCp_escape hb, UInt8.ofNat_toNat]
      exact .cons h₀ h₁ hrun
    · rw [bytes_cons, njsStringDecodeUriCp_char hc] at hmax
      exact absurd max_lt_error hmax

/-! ### Sequences -/

theorem sequenceLength_of {n : ℕ} (h : Utf8.Sequence (b :: l) n) (hb : 0x80 ≤ b.toNat) :
    sequenceLength b.toNat 8 1 = l.length + 1 ∧ l.length + 1 ≤ 4 := by
  have hrows : ∀ b : UInt8, 0x80 ≤ b.toNat → (Utf8.row b).all (fun r =>
      sequenceLength b.toNat 8 1 = r.2.length + 1 ∧ r.2.length + 1 ≤ 4) = true :=
    forall_byte (by decide)
  generalize hbytes : b :: l = s at h
  obtain ⟨hrow, hfits⟩ := h
  obtain ⟨rfl, rfl⟩ := List.cons.inj hbytes
  have hlength := hrows b hb
  rw [hrow, Option.all_some, decide_eq_true_eq] at hlength
  rwa [hfits.length]

theorem exists_char (hctx : Idle ctx) (hb : 0x80 ≤ b.toNat)
    (hlength : sequenceLength b.toNat 8 1 = l.length + 1)
    (hmax : ¬njsUnicodeMaxCodepoint < (njsUtf8Decode ctx (b :: l)).1) :
    ∃ d : Char, b :: l = String.utf8EncodeChar d := by
  have hne : b :: l ≠ [] := List.cons_ne_nil b l
  have hagrees := Decoding.njsUtf8Decode_agrees (s := none) hctx hne
  rcases hdecode : njsUtf8Decode ctx (b :: l) with ⟨cp, ctx', p⟩
  rw [hdecode] at hagrees hmax
  rcases Utf8.next_cases hne with ⟨s, n, rest, hl, hs, hnext⟩ | ⟨p, -, hnext⟩ |
    ⟨s, rest, -, -, hnext⟩
  · obtain ⟨b', s', rfl⟩ := List.exists_cons_of_ne_nil hs.ne_nil
    rw [List.cons_append] at hl
    obtain ⟨rfl, rfl⟩ := List.cons.inj hl
    have hs' := (sequenceLength_of hs hb).1
    have hrest : rest = [] := by
      rw [hlength, List.length_append] at hs'
      exact List.eq_nil_of_length_eq_zero (by omega)
    obtain ⟨-, hchar⟩ := Utf8.sequence_iff.1 hs
    exact ⟨Char.ofNat n, by rw [hrest, List.append_nil, hchar]⟩
  · rw [hnext] at hagrees
    obtain ⟨rfl, -⟩ := hagrees
    exact absurd (show njsUnicodeMaxCodepoint < Query.njsUnicodeContinue by decide) hmax
  · rw [hnext] at hagrees
    obtain ⟨rfl, -⟩ := hagrees
    exact absurd max_lt_error hmax

/-! ### Passes -/

/-- A table has the characters whose escapes are kept. -/
def IsReserve (component : Bool) (reserve : List UInt32) : Prop :=
  ∀ n < 0x80, njsReserved reserve n = isReserved component (Char.ofNat n)

theorem isReserve (component : Bool) :
    IsReserve component (if component then reserveUriComponent else reserveUri) := by
  have htables : (∀ n < 0x80, njsReserved reserveUri n = isReserved false (Char.ofNat n)) ∧
      ∀ n < 0x80, njsReserved reserveUriComponent n = isReserved true (Char.ofNat n) := by
    decide
  cases component with
  | false => exact htables.1
  | true => exact htables.2

theorem head?_bytes {c : Char} (hc : c ≠ '%') (text : List Char) :
    (bytes (c :: text)).head? ≠ some (chr '%') := by
  obtain ⟨b, l, hchar⟩ := List.exists_cons_of_ne_nil (sequence_char c).ne_nil
  rw [bytes_cons, hchar, List.cons_append, List.head?_cons]
  exact fun h => hc ((first_eq_iff (by decide) hchar).1 (Option.some.inj h))

variable {component : Bool} {reserve : List UInt32}

theorem uriDecodeLoop_plain {c : Char} (hc : c ≠ '%') (rest : List Char) (passes : ℕ)
    (ctx : UnicodeDecode) : uriDecodeLoop reserve (passes + 1) ctx (bytes (c :: rest)) =
      (uriDecodeLoop reserve passes ctx (bytes rest)).map fun r => (bytes [c] ++ r.1, 1 + r.2) := by
  have hne : bytes (c :: rest) ≠ [] := fun h => List.cons_ne_nil c rest (bytes_eq_nil_iff.1 h)
  have hvalid : c.toNat.isValidChar := c.valid
  have hcp : njsStringDecodeUriCp (bytes (c :: rest)) false = (c.toNat, bytes rest) := by
    rw [bytes_cons, njsStringDecodeUriCp_char hc, if_neg Bool.false_ne_true]
  have hchar : bytes [c] = String.utf8EncodeChar c := List.append_nil _
  rw [uriDecodeLoop, if_neg hne, hcp]
  dsimp only
  rw [if_neg (Decoding.le_max_of_isValidChar hvalid), if_pos (head?_bytes hc rest),
    Decoding.njsUtf8Encode_ofNat hvalid, Char.ofNat_toNat, hchar]

theorem uriDecodeLoop_ascii (hreserve : IsReserve component reserve) {d : Char}
    (hd : d.toNat < 0x80) (hrun : Escapes run (String.utf8EncodeChar d)) (rest : List Char)
    (passes : ℕ) (ctx : UnicodeDecode) :
    uriDecodeLoop reserve (passes + 1) ctx (bytes (run ++ rest)) =
      (uriDecodeLoop reserve passes ctx (bytes rest)).map fun r =>
        (bytes (if isReserved component d then run else [d]) ++ r.1,
          (if isReserved component d then run else [d]).length + r.2) := by
  obtain ⟨b, hchar, hb⟩ := utf8EncodeChar_ascii hd
  have hbytes : bytes [d] = [b] := (List.append_nil _).trans hchar
  rw [hchar] at hrun
  generalize hl : [b] = l at hrun
  obtain _ | @⟨c₀, c₁, d₀, d₁, run, l, h₀, h₁, hrun⟩ := hrun
  · exact absurd hl (List.cons_ne_nil b [])
  obtain ⟨rfl, rfl⟩ := List.cons.inj hl
  obtain _ | _ := hrun
  have hescape : escapeAt ('%' :: (c₀ :: c₁ :: rest)) = some (.ofNat (d₀ * 16 + d₁)) :=
    escapeAt_eq_some.2 ⟨c₀, c₁, rest, d₀, d₁, rfl, h₀, h₁, rfl⟩
  obtain ⟨b₀, hchar₀, -⟩ := utf8EncodeChar_ascii (Query.hexValue_bounds h₀).2
  obtain ⟨b₁, hchar₁, -⟩ := utf8EncodeChar_ascii (Query.hexValue_bounds h₁).2
  have hthree : (bytes ('%' :: c₀ :: c₁ :: rest)).take 3 = bytes ['%', c₀, c₁] := by
    rw [bytes_percent, bytes_percent, bytes_cons, bytes_cons, bytes_cons, bytes_cons, hchar₀,
      hchar₁]
    rfl
  have hreserved := hreserve d.toNat hd
  rw [Char.ofNat_toNat] at hreserved
  have hmax : ¬njsUnicodeMaxCodepoint < d.toNat :=
    Nat.not_lt.2 (Nat.le_of_lt (Nat.lt_trans hd (by decide)))
  have hcp := njsStringDecodeUriCp_escape hescape false
  rw [hb] at hcp
  have hne : bytes ('%' :: (c₀ :: c₁ :: rest)) ≠ [] := List.cons_ne_nil _ _
  have hhead : (bytes ('%' :: (c₀ :: c₁ :: rest))).head? = some (chr '%') := rfl
  change uriDecodeLoop reserve (passes + 1) ctx (bytes ('%' :: (c₀ :: c₁ :: rest))) = _
  rw [uriDecodeLoop, if_neg hne, hcp]
  dsimp only
  rw [if_neg hmax, if_neg (not_not.2 hhead), if_pos hd, hreserved, hthree]
  cases isReserved component d with
  | false =>
    rw [if_neg Bool.false_ne_true, if_neg Bool.false_ne_true, hbytes, ← hb, UInt8.ofNat_toNat]
    rfl
  | true =>
    rw [if_pos rfl, if_pos rfl]
    rfl

theorem length_escapes (h : Escapes run l) : (bytes run).length = 3 * l.length := by
  induction h with
  | nil => rfl
  | cons h₀ h₁ h ih =>
    obtain ⟨b₀, hchar₀, -⟩ := utf8EncodeChar_ascii (Query.hexValue_bounds h₀).2
    obtain ⟨b₁, hchar₁, -⟩ := utf8EncodeChar_ascii (Query.hexValue_bounds h₁).2
    rw [bytes_percent, bytes_cons, bytes_cons, hchar₀, hchar₁]
    simp only [List.length_cons, List.length_append, List.length_nil, ih]
    omega

theorem uriDecodeLoop_long (reserve : List UInt32) {d : Char} (hd : 0x80 ≤ d.toNat)
    (hrun : Escapes run (String.utf8EncodeChar d)) (rest : List Char) (passes : ℕ)
    (hctx : Idle ctx) : ∃ ctx', Idle ctx' ∧
      uriDecodeLoop reserve (passes + 1) ctx (bytes (run ++ rest)) =
        (uriDecodeLoop reserve passes ctx' (bytes rest)).map fun r =>
          (bytes [d] ++ r.1, 1 + r.2) := by
  obtain ⟨b, l, hchar⟩ := List.exists_cons_of_ne_nil (sequence_char d).ne_nil
  have hb : 0x80 ≤ b.toNat := large_of_mem hd (hchar ▸ List.mem_cons_self)
  have hsequence := sequence_char d
  obtain ⟨ctx', hdecode, hctx'⟩ := njsUtf8Decode_char hctx d []
  rw [List.append_nil] at hdecode
  rw [hchar] at hrun hsequence hdecode
  obtain ⟨hlength, hfour⟩ := sequenceLength_of hsequence hb
  generalize hl : b :: l = l' at hrun
  obtain _ | @⟨c₀, c₁, d₀, d₁, run, l', h₀, h₁, hrun⟩ := hrun
  · exact absurd hl (List.cons_ne_nil b l)
  obtain ⟨rfl, rfl⟩ := List.cons.inj hl
  refine ⟨ctx', hctx', ?_⟩
  have hescape : escapeAt ('%' :: (c₀ :: c₁ :: run ++ rest)) = some (.ofNat (d₀ * 16 + d₁)) :=
    escapeAt_eq_some.2 ⟨c₀, c₁, run ++ rest, d₀, d₁, rfl, h₀, h₁, rfl⟩
  have hcp := njsStringDecodeUriCp_escape hescape false
  have hne : bytes ('%' :: (c₀ :: c₁ :: run ++ rest)) ≠ [] := List.cons_ne_nil _ _
  have hhead : (bytes ('%' :: (c₀ :: c₁ :: run ++ rest))).head? = some (chr '%') := rfl
  have hdrop : (c₀ :: c₁ :: run ++ rest).drop 2 = run ++ rest := rfl
  have hmax : ¬njsUnicodeMaxCodepoint < (UInt8.ofNat (d₀ * 16 + d₁)).toNat :=
    Nat.not_lt.2 (Nat.le_of_lt (Nat.lt_trans (UInt8.toNat_lt _) (by decide)))
  have hsize : ¬(4 < l.length + 1 ∨ (bytes (run ++ rest)).length < 3 * (l.length + 1 - 1)) := by
    rw [bytes_append, List.length_append, length_escapes hrun]
    omega
  have hvalid : d.toNat.isValidChar := d.valid
  have hbytes : bytes [d] = String.utf8EncodeChar d := List.append_nil _
  change uriDecodeLoop reserve (passes + 1) ctx (bytes ('%' :: (c₀ :: c₁ :: run ++ rest))) = _
  rw [uriDecodeLoop, if_neg hne, hcp]
  dsimp only
  rw [if_neg hmax, if_neg (not_not.2 hhead), if_neg (Nat.not_lt.2 hb), hdrop, hlength, if_neg hsize,
    Nat.add_sub_cancel, readEscapes_of hrun, UInt8.ofNat_toNat]
  dsimp only
  rw [hdecode]
  dsimp only
  rw [if_neg (Decoding.le_max_of_isValidChar hvalid), Decoding.njsUtf8Encode_ofNat hvalid,
    Char.ofNat_toNat, hbytes]

theorem uriDecodeLoop_piece (hreserve : IsReserve component reserve) (piece : Piece)
    (rest : List Char) (passes : ℕ) (hctx : Idle ctx) : ∃ ctx', Idle ctx' ∧
      uriDecodeLoop reserve (passes + 1) ctx (bytes (piece.text ++ rest)) =
        (uriDecodeLoop reserve passes ctx' (bytes rest)).map fun r =>
          (bytes (piece.decoded component) ++ r.1, (piece.decoded component).length + r.2) := by
  obtain ⟨c, hc⟩ | ⟨run, d, hrun⟩ := piece
  · exact ⟨ctx, hctx, uriDecodeLoop_plain hc rest passes ctx⟩
  by_cases hd : d.toNat < 0x80
  · exact ⟨ctx, hctx, uriDecodeLoop_ascii hreserve hd hrun rest passes ctx⟩
  obtain ⟨ctx', hctx', heq⟩ :=
    uriDecodeLoop_long reserve (Nat.le_of_not_lt hd) hrun rest passes hctx
  have hkept : ¬isReserved component d := by
    intro hreserved
    have hunescaped : isUnescaped component d := by
      rw [isUnescaped, hreserved, Bool.or_true]
    exact hd (lt_of_isUnescaped hunescaped)
  refine ⟨ctx', hctx', ?_⟩
  rw [Piece.decoded, if_neg hkept]
  exact heq

theorem le_sequenceLength (cp passes n : ℕ) : n ≤ sequenceLength cp passes n := by
  induction passes generalizing n with
  | zero => exact Nat.le_refl n
  | succ passes ih =>
    rw [sequenceLength]
    split_ifs with h
    · exact Nat.le_of_succ_le (ih (n + 1))
    · exact Nat.le_succ n

theorem uriDecodeLoop_none (htext : text ≠ [])
    (hnone : ∀ (piece : Piece) (rest : List Char), text ≠ piece.text ++ rest) (passes : ℕ)
    (hctx : Idle ctx) : uriDecodeLoop reserve (passes + 1) ctx (bytes text) = none := by
  obtain ⟨c, text, rfl⟩ := List.exists_cons_of_ne_nil htext
  have hne : bytes (c :: text) ≠ [] := fun h => htext (bytes_eq_nil_iff.1 h)
  by_cases hc : c = '%'
  swap
  · exact absurd rfl (hnone (.plain c hc) text)
  subst hc
  have hhead : (bytes ('%' :: text)).head? = some (chr '%') := rfl
  rw [uriDecodeLoop, if_neg hne]
  obtain hescape | ⟨b, hescape⟩ := Option.eq_none_or_eq_some (escapeAt ('%' :: text))
  · have hcp := njsStringDecodeUriCp_none hescape false
    dsimp only
    rw [hcp, if_pos max_lt_error]
  rw [njsStringDecodeUriCp_escape hescape]
  obtain ⟨c₀, c₁, rest, d₀, d₁, rfl, h₀, h₁, hb⟩ := escapeAt_eq_some.1 hescape
  have hdrop : (c₀ :: c₁ :: rest).drop 2 = rest := rfl
  have hmax : ¬njsUnicodeMaxCodepoint < b.toNat :=
    Nat.not_lt.2 (Nat.le_of_lt (Nat.lt_trans (UInt8.toNat_lt _) (by decide)))
  by_cases hascii : b.toNat < 0x80
  · have hchar := utf8EncodeChar_byte hascii
    have hrun : Escapes ['%', c₀, c₁] (String.utf8EncodeChar (Char.ofNat b.toNat)) := by
      rw [hchar, hb]
      exact .cons h₀ h₁ .nil
    exact absurd rfl (hnone (.escaped _ _ hrun) rest)
  dsimp only
  rw [if_neg hmax, if_neg (not_not.2 hhead), if_neg hascii, hdrop]
  by_cases hsize : 4 < sequenceLength b.toNat 8 1 ∨
      (bytes rest).length < 3 * (sequenceLength b.toNat 8 1 - 1)
  · rw [if_pos hsize]
  rw [if_neg hsize]
  obtain hread | ⟨⟨l, p⟩, hread⟩ :=
    Option.eq_none_or_eq_some (readEscapes (sequenceLength b.toNat 8 1 - 1) (bytes rest))
  · rw [hread]
  rw [hread]
  dsimp only
  by_cases hcp : njsUnicodeMaxCodepoint < (njsUtf8Decode ctx (.ofNat b.toNat :: l)).1
  · rw [if_pos hcp]
  rw [UInt8.ofNat_toNat] at hcp
  obtain ⟨run, rest, rfl, hrun, -, hlength⟩ := exists_of_readEscapes hread
  have hpos := le_sequenceLength b.toNat 8 1
  obtain ⟨d, hd⟩ := exists_char hctx (Nat.le_of_not_lt hascii) (by omega) hcp
  have hescapes : Escapes ('%' :: c₀ :: c₁ :: run) (String.utf8EncodeChar d) := by
    rw [← hd, hb]
    exact .cons h₀ h₁ hrun
  exact absurd rfl (hnone (.escaped _ _ hescapes) rest)

/-! ### Runs -/

theorem uriDecodeLoop_pieces (hreserve : IsReserve component reserve) (pieces : List Piece)
    {passes : ℕ} (hpasses : pieces.length ≤ passes) (hctx : Idle ctx) :
    uriDecodeLoop reserve passes ctx (bytes (pieces.flatMap Piece.text)) =
      some (bytes (pieces.flatMap (Piece.decoded component)),
        (pieces.flatMap (Piece.decoded component)).length) := by
  induction pieces generalizing passes ctx with
  | nil =>
    obtain _ | passes := passes
    · rfl
    · exact if_pos rfl
  | cons piece pieces ih =>
    obtain ⟨passes, rfl⟩ : ∃ k, passes = k + 1 :=
      ⟨passes - 1, by rw [List.length_cons] at hpasses; omega⟩
    obtain ⟨ctx', hctx', heq⟩ := uriDecodeLoop_piece hreserve piece
      (pieces.flatMap Piece.text) passes hctx
    rw [List.flatMap_cons, heq, ih (Nat.le_of_succ_le_succ hpasses) hctx', Option.map_some,
      List.flatMap_cons, bytes_append, List.length_append]

theorem uriDecodeLoop_error (hreserve : IsReserve component reserve) (htext : ¬WellFormed text)
    {passes : ℕ} (hpasses : text.length ≤ passes) (hctx : Idle ctx) :
    uriDecodeLoop reserve passes ctx (bytes text) = none := by
  have hne : text ≠ [] := by
    rintro rfl
    exact htext ⟨[], rfl⟩
  induction passes generalizing text ctx with
  | zero => exact absurd (List.eq_nil_of_length_eq_zero (Nat.le_zero.1 hpasses)) hne
  | succ passes ih =>
    by_cases hpiece : ∃ (piece : Piece) (rest : List Char), text = piece.text ++ rest
    · obtain ⟨piece, rest, rfl⟩ := hpiece
      have hrest : ¬WellFormed rest := by
        rintro ⟨pieces, rfl⟩
        exact htext ⟨piece :: pieces, List.flatMap_cons.symm⟩
      have hrestne : rest ≠ [] := by
        rintro rfl
        exact hrest ⟨[], rfl⟩
      have hpos := List.length_pos_iff.2 piece.text_ne_nil
      rw [List.length_append] at hpasses
      obtain ⟨ctx', hctx', heq⟩ := uriDecodeLoop_piece hreserve piece rest passes hctx
      rw [heq, ih hrest (by omega) hctx' hrestne]
      rfl
    · exact uriDecodeLoop_none hne (fun piece rest h => hpiece ⟨piece, rest, h⟩) passes hctx

theorem length_pieces_le (pieces : List Piece) :
    pieces.length ≤ (bytes (pieces.flatMap Piece.text)).length := by
  induction pieces with
  | nil => exact Nat.zero_le _
  | cons piece pieces ih =>
    have hpos := List.length_pos_iff.2 piece.text_ne_nil
    have hle := length_le_bytes piece.text
    rw [List.flatMap_cons, bytes_append, List.length_append, List.length_cons]
    omega

theorem Piece.decoded_ne_nil (piece : Piece) (component : Bool) : piece.decoded component ≠ [] := by
  obtain ⟨c, hc⟩ | ⟨run, d, hrun⟩ := piece
  · exact List.cons_ne_nil c []
  · rw [Piece.decoded]
    split_ifs
    · exact (Piece.escaped run d hrun).text_ne_nil
    · exact List.cons_ne_nil d []

theorem njsStringDecodeUri_pieces (component : Bool) (pieces : List Piece) :
    njsStringDecodeUri component (ofText (pieces.flatMap Piece.text)) =
      .ok (ofText (pieces.flatMap (Piece.decoded component))) := by
  have hloop := uriDecodeLoop_pieces (isReserve component) pieces (length_pieces_le pieces)
    (show Idle njsUtf8DecodeInit from ⟨rfl, rfl⟩)
  simp only [njsStringDecodeUri, ofText, hloop]
  by_cases hempty : (bytes (pieces.flatMap (Piece.decoded component))).length = 0
  · obtain _ | ⟨piece, pieces⟩ := pieces
    · rfl
    · have hnil := bytes_eq_nil_iff.1 (List.eq_nil_of_length_eq_zero hempty)
      rw [List.flatMap_cons, List.append_eq_nil_iff] at hnil
      exact absurd hnil.1 (piece.decoded_ne_nil component)
  · rw [if_neg hempty]

theorem njsStringDecodeUri_error (component : Bool) (htext : ¬WellFormed text) :
    njsStringDecodeUri component (ofText text) = .error malformedUri := by
  have hloop := uriDecodeLoop_error (isReserve component) htext (length_le_bytes text)
    (show Idle njsUtf8DecodeInit from ⟨rfl, rfl⟩)
  simp only [njsStringDecodeUri, ofText, hloop]

end Njs.Strings
