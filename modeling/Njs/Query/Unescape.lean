import Njs.Strings.StringProp

/-!
# Escapes and plus signs between bytes

The decoder of UTF-8 is fed with the bytes of escapes one by one, and with what is not escaped.
A plus sign does not pass through it. A byte of an escape that breaks a sequence is lost.
-/

namespace Njs.Query

open Text
open Indices (bytes)
open SharedDict (njsUtf8Encode njsUnicodeReplacement)
open Strings (njsUtf8Decode_char utf8EncodeChar_ascii first_eq_iff next_char
  utf8EncodeChar_append_ne_nil)
open Decoding (Represents njsUtf8Decode_agrees njsUtf8Encode_ofNat njsUtf8Encode_replacement
  le_max_of_isValidChar)
open Utf8 (Pending InRange encode encode_append next replacement run run_append run_next step)

/-! ### Pieces -/

/-- A part of a string. -/
inductive Piece
  | byte (b : UInt8)
  | plus
  | char (c : Char)
  deriving DecidableEq

def hexValue (c : Char) : Option ℕ :=
  if '0' ≤ c ∧ c ≤ '9' then some (c.toNat - '0'.toNat)
  else if 'A' ≤ c ∧ c ≤ 'F' then some (c.toNat - 'A'.toNat + 10)
  else if 'a' ≤ c ∧ c ≤ 'f' then some (c.toNat - 'a'.toNat + 10)
  else none

/-- The byte of an escape: a percent sign and two hexadecimal digits. -/
def escapeAt : List Char → Option UInt8
  | [] => none
  | c :: text =>
    if c = '%' then
      (text.head?.bind hexValue).bind fun a =>
        (text.tail.head?.bind hexValue).map fun b => UInt8.ofNat (a * 16 + b)
    else none

/-- The pieces of a text, of which some characters belong to an escape. -/
def piecesFrom : ℕ → List Char → List Piece
  | _, [] => []
  | k + 1, _ :: text => piecesFrom k text
  | 0, c :: text =>
    match escapeAt (c :: text) with
    | some b => .byte b :: piecesFrom 2 text
    | none => (if c = '+' then .plus else .char c) :: piecesFrom 0 text

def pieces (text : List Char) : List Piece := piecesFrom 0 text

def Piece.bytes : Piece → Bytes
  | .byte b => [b]
  | .plus => [0x20]
  | .char c => String.utf8EncodeChar c

def unescaped (l : List Piece) : Bytes := l.flatMap Piece.bytes

/-! ### What is written -/

/-- The code points that are written, where a call asked for more bytes just before or not. -/
def fed : Option Pending → Bool → List Piece → List ℕ
  | _, more, [] => if more then [replacement] else []
  | s, _, .byte b :: l =>
    match next s [b] with
    | .char n _ => n :: fed none false l
    | .ill _ => replacement :: fed none false l
    | .more p => fed (some p) true l
  | s, _, .plus :: l => 0x20 :: fed s false l
  | none, _, .char c :: l => c.toNat :: fed none false l
  | some _, _, .char c :: l => replacement :: c.toNat :: fed none false l

/-- Behind a sequence that is not complete, an escape continues it and no plus sign stands. -/
def Fed : Option Pending → List Piece → Prop
  | _, [] => True
  | s, .byte b :: l => (∀ p, s = some p → InRange p.next b) ∧ Fed (step s b).2 l
  | s, .plus :: l => s = none ∧ Fed none l
  | _, .char _ :: l => Fed none l

/-! ### Escapes -/

variable {b : UInt8} {n passes : ℕ} {text : List Char} {s : Option Pending} {rest : Bytes}
  {ctx ctx' : UnicodeDecode}

theorem hex_eq {c : Char} (hb : b.toNat = c.toNat) : hex b = hexValue c := by
  have hle (b' : UInt8) (c' : Char) (h : b'.toNat = c'.toNat) :
      (b' ≤ b ↔ c' ≤ c) ∧ (b ≤ b' ↔ c ≤ c') := by
    rw [UInt8.le_iff_toNat_le, UInt8.le_iff_toNat_le, Char.le_def, Char.le_def,
      UInt32.le_iff_toNat_le, UInt32.le_iff_toNat_le, hb, h]
    exact ⟨Iff.rfl, Iff.rfl⟩
  simp only [hex, hexValue, hle (chr '0') '0' (by decide), hle (chr '9') '9' (by decide),
    hle (chr 'A') 'A' (by decide), hle (chr 'F') 'F' (by decide), hle (chr 'a') 'a' (by decide),
    hle (chr 'f') 'f' (by decide), hb]
  rfl

theorem hexValue_bounds {c : Char} (h : hexValue c = some n) : n < 2 ^ 4 ∧ c.toNat < 0x80 := by
  have hle {c₁ c₂ : Char} (h : c₁ ≤ c₂) : c₁.toNat ≤ c₂.toNat := UInt32.le_iff_toNat_le.1 h
  have h9 : '9'.toNat = 0x39 ∧ '0'.toNat = 0x30 := ⟨rfl, rfl⟩
  have hF : 'F'.toNat = 0x46 ∧ 'A'.toNat = 0x41 := ⟨rfl, rfl⟩
  have hf : 'f'.toNat = 0x66 ∧ 'a'.toNat = 0x61 := ⟨rfl, rfl⟩
  rw [hexValue] at h
  split_ifs at h with h₁ h₂ h₃
  · have := hle h₁.2
    have := Option.some.inj h
    omega
  · have := hle h₂.2
    have := Option.some.inj h
    omega
  · have := hle h₃.2
    have := Option.some.inj h
    omega

theorem hex_first {c : Char} {l : Bytes} (hchar : String.utf8EncodeChar c = b :: l) :
    hex b = hexValue c ∧ (hexValue c ≠ none → l = []) := by
  by_cases hc : c.toNat < 0x80
  · obtain ⟨b', hchar', hb⟩ := utf8EncodeChar_ascii hc
    obtain ⟨rfl, rfl⟩ := List.cons.inj (hchar'.symm.trans hchar)
    exact ⟨hex_eq hb, fun _ => rfl⟩
  have hnone : hexValue c = none := by
    by_contra h
    obtain ⟨n, hn⟩ := Option.ne_none_iff_exists'.1 h
    exact hc (hexValue_bounds hn).2
  have hlarge : ∀ b : UInt8, 0x80 ≤ b.toNat → hex b = none := forall_byte (by decide)
  refine ⟨?_, fun h => absurd hnone h⟩
  rw [hnone, hlarge b (Strings.large_of_mem (Nat.le_of_not_lt hc) (hchar ▸ List.mem_cons_self))]

theorem bind_hex (text : List Char) : (bytes text).head?.bind hex = text.head?.bind hexValue ∧
      (text.head?.bind hexValue ≠ none → (bytes text).tail = bytes text.tail) := by
  cases text with
  | nil => exact ⟨rfl, fun _ => rfl⟩
  | cons c text =>
    obtain ⟨b, l, hchar, -⟩ := Indices.utf8EncodeChar_encoded c
    obtain ⟨hhex, hone⟩ := hex_first hchar
    rw [bytes_cons, hchar]
    refine ⟨hhex, fun h => ?_⟩
    rw [hone h]
    rfl

theorem escaped_cons (b : UInt8) (p : Bytes) : escaped (b :: p) = if b = chr '%' then
      (p.head?.bind hex).bind fun a => (p.tail.head?.bind hex).map fun a' =>
        (UInt8.ofNat ((a <<< 4) ||| a'), p.tail.tail)
    else none := by
  obtain _ | ⟨b₁, _ | ⟨b₂, p⟩⟩ := p
  · exact (ite_self none).symm
  · have hnone : ((hex b₁).bind fun a => (([] : Bytes).head?.bind hex).map fun a' =>
        (UInt8.ofNat ((a <<< 4) ||| a'), ([] : Bytes))) = none := Option.bind_fun_none _
    exact ((if_congr Iff.rfl hnone rfl).trans (ite_self none)).symm
  rw [escaped]
  simp only [List.head?_cons, List.tail_cons, Option.bind_some]
  refine if_congr Iff.rfl ?_ rfl
  cases hex b₁ with
  | none => rfl
  | some a =>
    cases hex b₂ with
    | none => rfl
    | some a' => rfl

theorem escaped_bytes (text : List Char) :
    escaped (bytes text) = (escapeAt text).map fun b => (b, bytes (text.drop 3)) := by
  cases text with
  | nil => rfl
  | cons c text =>
    obtain ⟨b, l, hchar, hencoded⟩ := Indices.utf8EncodeChar_encoded c
    have hpercent : b = chr '%' ↔ c = '%' := first_eq_iff (by decide) hchar
    rw [bytes_cons, hchar, List.cons_append, escaped_cons, escapeAt, if_congr hpercent rfl rfl]
    by_cases hc : c = '%'
    · subst hc
      obtain ⟨b', hascii, -⟩ := utf8EncodeChar_ascii (c := '%') (by decide)
      obtain ⟨-, rfl⟩ := List.cons.inj (hchar.symm.trans hascii)
      obtain ⟨hfirst, hfirst'⟩ := bind_hex text
      obtain ⟨hsecond, hsecond'⟩ := bind_hex text.tail
      rw [if_pos rfl, if_pos rfl, List.nil_append, hfirst]
      cases hhigh : text.head?.bind hexValue with
      | none => rfl
      | some a =>
        rw [Option.bind_some, Option.bind_some, hfirst' (by simp [hhigh]), hsecond]
        cases hlow : text.tail.head?.bind hexValue with
        | none => rfl
        | some a' =>
          obtain ⟨c', -, hc'⟩ := Option.bind_eq_some_iff.1 hlow
          have hlt := (hexValue_bounds hc').1
          have htail : text.tail.tail = text.drop 2 := by
            rw [← List.drop_one, ← List.drop_one, List.drop_drop]
          have hnext := hsecond' (by
            rw [hlow]
            exact Option.some_ne_none a')
          rw [Option.map_some, Option.map_some, Option.map_some, hnext, htail,
            ← Nat.shiftLeft_add_eq_or_of_lt hlt, Nat.shiftLeft_eq]
          rfl
    · rw [if_neg hc, if_neg hc]
      rfl

/-! ### The loop -/

theorem piecesFrom_eq (k : ℕ) (text : List Char) : piecesFrom k text = pieces (text.drop k) := by
  induction k generalizing text with
  | zero => rfl
  | succ k ih =>
    obtain _ | ⟨c, text⟩ := text
    · rfl
    · exact ih text

theorem pieces_byte (h : escapeAt text = some b) :
    pieces text = .byte b :: pieces (text.drop 3) := by
  obtain _ | ⟨c, text⟩ := text
  · exact absurd h (Option.some_ne_none b).symm
  · have hrest : pieces ((c :: text).drop 3) = piecesFrom 2 text := (piecesFrom_eq 2 text).symm
    rw [pieces, piecesFrom, h, hrest]

theorem pieces_other {c : Char} (h : escapeAt (c :: text) = none) :
    pieces (c :: text) = (if c = '+' then .plus else .char c) :: pieces text := by
  rw [pieces, piecesFrom, h, pieces]

/-- A state that is reached after some bytes. -/
def Reached (s : Option Pending) : Prop := ∃ l, (run none l).2 = s

theorem Reached.step {s : Option Pending} (h : Reached s) (b : UInt8) :
    Reached (step s b).2 := by
  obtain ⟨l, rfl⟩ := h
  refine ⟨l ++ [b], ?_⟩
  rw [run_append]
  rfl

theorem Reached.tailed (h : Reached s) : Utf8.Tailed s := by
  obtain ⟨l, rfl⟩ := h
  exact Utf8.Tailed.run (fun p hp => absurd hp.symm (Option.some_ne_none p)) l

theorem Reached.isValidChar (h : Reached s) (hnext : next s [b] = .char n rest) :
    n.isValidChar := by
  obtain ⟨l, rfl⟩ := h
  refine Utf8.isValidChar_run (l ++ [b]) n ?_
  rw [run_append, run_next _ (List.cons_ne_nil b []), hnext]
  exact List.mem_append_right _ List.mem_cons_self

theorem next_char_of_pending {p : Pending} (h : Utf8.Tailed (some p)) (c : Char) (l : Bytes) :
    next (some p) (String.utf8EncodeChar c ++ l) = .ill (String.utf8EncodeChar c ++ l) := by
  obtain ⟨b, l', hchar, hencoded⟩ := Indices.utf8EncodeChar_encoded c
  have hout : ∀ b : UInt8, Indices.isContinuation b = false → ¬(0x80 ≤ b.toNat ∧ b.toNat ≤ 0xbf) :=
    forall_byte (by decide)
  have hrange := h p rfl p.next List.mem_cons_self
  have hb : ¬InRange p.next b := fun hb =>
    hout b hencoded.first ⟨hrange.1.trans hb.1, hb.2.trans hrange.2⟩
  obtain ⟨bits, r, rs⟩ := p
  rw [hchar]
  exact if_neg hb

theorem length_bytes_drop_lt (c : Char) (text : List Char) (k : ℕ) :
    (bytes ((c :: text).drop (k + 1))).length < (bytes (c :: text)).length := by
  obtain ⟨b, l, hchar, -⟩ := Indices.utf8EncodeChar_encoded c
  have hadd := Strings.length_bytes_eq_add text k
  rw [List.drop_succ_cons, bytes_cons, hchar, List.length_append, List.length_cons]
  omega

theorem encode_cons (hn : n.isValidChar) (ns : List ℕ) :
    encode (n :: ns) = njsUtf8Encode (UInt32.ofNat n) ++ encode ns := by
  rw [njsUtf8Encode_ofNat hn]
  rfl

theorem encode_replacement (ns : List ℕ) : encode (replacement :: ns) =
    njsUtf8Encode njsUnicodeReplacement ++ encode ns := by
  rw [njsUtf8Encode_replacement, ← encode_append]
  rfl

theorem pass_char {p : Bytes} (hp : p ≠ []) (hn : n.isValidChar)
    (h : nextCodepoint ctx p = (n, ctx', rest)) (cp : ℕ) :
    decodeLoop (passes + 1) ctx cp p =
      njsUtf8Encode (UInt32.ofNat n) ++ decodeLoop passes ctx' n rest := by
  rw [decodeLoop, if_neg hp, h]
  exact if_neg (le_max_of_isValidChar hn)

theorem pass_error {p : Bytes} (hp : p ≠ [])
    (h : nextCodepoint ctx p = (njsUnicodeError, ctx', rest)) (cp : ℕ) :
    decodeLoop (passes + 1) ctx cp p =
      njsUtf8Encode njsUnicodeReplacement ++ decodeLoop passes ctx' njsUnicodeError rest := by
  rw [decodeLoop, if_neg hp, h]
  rfl

theorem pass_more {p : Bytes} (hp : p ≠ [])
    (h : nextCodepoint ctx p = (njsUnicodeContinue, ctx', rest)) (cp : ℕ) :
    decodeLoop (passes + 1) ctx cp p = decodeLoop passes ctx' njsUnicodeContinue rest := by
  rw [decodeLoop, if_neg hp, h]
  rfl

theorem continue_ne_char (hn : n.isValidChar) : decide (n = njsUnicodeContinue) = false := by
  refine decide_eq_false ?_
  rintro rfl
  exact absurd hn (by decide)

theorem decodeLoop_eq (hs : Reached s) (hctx : Represents ctx s)
    (hpasses : 2 * (bytes text).length + (if s = none then 0 else 1) < passes) (cp : ℕ) :
    decodeLoop passes ctx cp (bytes text) =
      encode (fed s (decide (cp = njsUnicodeContinue)) (pieces text)) := by
  induction passes generalizing text ctx s cp with
  | zero => exact absurd hpasses (Nat.not_lt_zero _)
  | succ passes ih =>
    have hnone : Reached none := ⟨[], rfl⟩
    obtain _ | ⟨c, text⟩ := text
    · have hnil : bytes [] = [] := rfl
      rw [decodeLoop, if_pos hnil, show pieces [] = [] from rfl, fed,
        if_congr (decide_eq_true_iff).symm rfl rfl]
      split_ifs
      · exact njsUtf8Encode_replacement
      · rfl
    have hne : bytes (c :: text) ≠ [] := fun h => List.cons_ne_nil c text
      (Strings.bytes_eq_nil_iff.1 h)
    rcases hescape : escapeAt (c :: text) with _ | b
    · obtain ⟨b, l, hchar, -⟩ := Indices.utf8EncodeChar_encoded c
      have hplus : b = chr '+' ↔ c = '+' := first_eq_iff (by decide) hchar
      have hlt := length_bytes_drop_lt c text 0
      rw [List.drop_succ_cons, List.drop_zero] at hlt
      have hnext : nextCodepoint ctx (bytes (c :: text)) =
          if c = '+' then (' '.toNat, ctx, l ++ bytes text)
          else njsUtf8Decode ctx (bytes (c :: text)) := by
        rw [nextCodepoint.eq_def, escaped_bytes, hescape, bytes_cons, hchar]
        exact if_congr hplus rfl rfl
      rw [pieces_other hescape]
      by_cases hc : c = '+'
      · subst hc
        obtain ⟨b', hascii, -⟩ := utf8EncodeChar_ascii (c := '+') (by decide)
        obtain ⟨-, rfl⟩ := List.cons.inj (hchar.symm.trans hascii)
        rw [if_pos rfl, List.nil_append] at hnext
        have hspace : (' '.toNat).isValidChar := ' '.valid
        rw [pass_char hne hspace hnext, ih hs hctx (by split_ifs at hpasses ⊢ <;> omega),
          if_pos rfl, fed, encode_cons (by decide)]
        rfl
      rw [if_neg hc] at hnext ⊢
      obtain _ | p := s
      · obtain ⟨ctx', hdecode, hctx'⟩ := njsUtf8Decode_char hctx c (bytes text)
        rw [bytes_cons, hdecode, ← bytes_cons] at hnext
        have hvalid : c.toNat.isValidChar := c.valid
        rw [pass_char hne hvalid hnext, ih hnone hctx' (by rw [if_pos rfl] at *; omega), fed,
          encode_cons hvalid, continue_ne_char hvalid]
      have hagrees := njsUtf8Decode_agrees hctx hne
      rw [bytes_cons, next_char_of_pending hs.tailed, ← bytes_cons] at hagrees
      generalize njsUtf8Decode ctx (bytes (c :: text)) = decoded at hagrees hnext
      obtain ⟨cp', ctx', start⟩ := decoded
      obtain ⟨rfl, rfl, hctx'⟩ := hagrees
      rw [pass_error hne hnext, ih hnone hctx' (by
        rw [if_neg (Option.some_ne_none p)] at hpasses
        rw [if_pos rfl]
        omega), pieces_other hescape, if_neg hc, fed, fed, encode_replacement]
    · have hlt : (bytes ((c :: text).drop 3)).length < (bytes (c :: text)).length :=
        length_bytes_drop_lt c text 2
      have hagrees := njsUtf8Decode_agrees hctx (List.cons_ne_nil b [])
      have hnext : nextCodepoint ctx (bytes (c :: text)) = ((njsUtf8Consume ctx b).1,
          (njsUtf8Consume ctx b).2, bytes ((c :: text).drop 3)) := by
        rw [nextCodepoint.eq_def, escaped_bytes, hescape]
        rfl
      rw [njsUtf8Consume] at hnext
      generalize njsUtf8Decode ctx [b] = decoded at hagrees hnext
      obtain ⟨cp', ctx', start⟩ := decoded
      dsimp only at hnext
      rw [pieces_byte hescape, fed]
      rcases hfirst : next s [b] with ⟨n, rest⟩ | rest | p
      · rw [hfirst] at hagrees
        obtain ⟨rfl, -, hctx'⟩ := hagrees
        have hn := hs.isValidChar hfirst
        rw [pass_char hne hn hnext, ih hnone hctx' (by rw [if_pos rfl]; omega),
          encode_cons hn, continue_ne_char hn]
      · rw [hfirst] at hagrees
        obtain ⟨rfl, -, hctx'⟩ := hagrees
        rw [pass_error hne hnext, ih hnone hctx' (by rw [if_pos rfl]; omega),
          encode_replacement]
        rfl
      rw [hfirst] at hagrees
      obtain ⟨rfl, -, hctx'⟩ := hagrees
      have hreached : Reached (some p) := by
        have hrun := run_next s (List.cons_ne_nil b [])
        rw [hfirst] at hrun
        have hstep : (step s b).2 = some p := congrArg Prod.snd hrun
        exact hstep ▸ hs.step b
      rw [pass_more hne hnext, ih hreached hctx' (by
        rw [if_neg (Option.some_ne_none p)]
        omega)]
      rfl

/-! ### Sequences that escapes continue -/

theorem step_of_next (hb : ∀ p, s = some p → InRange p.next b) :
    step s b = match next s [b] with
      | .char n _ => ([n], none)
      | .ill _ => ([replacement], none)
      | .more p => ([], some p) := by
  have hrun := run_next s (List.cons_ne_nil b [])
  have hstep : run s [b] = step s b := Prod.ext (List.append_nil _) rfl
  rw [hstep] at hrun
  rcases hnext : next s [b] with ⟨n, rest⟩ | rest | p
  · have hlength := Utf8.next_char_length hnext
    obtain rfl : rest = [] := List.length_eq_zero_iff.1 (Nat.lt_one_iff.1 hlength)
    rw [hrun, hnext]
    rfl
  · have hlength := Utf8.next_ill_length hnext (List.cons_ne_nil b [])
    obtain _ | ⟨bits, r, rs⟩ := s
    · rw [if_pos rfl] at hlength
      obtain rfl : rest = [] := List.length_eq_zero_iff.1
        (Nat.le_zero.1 (Nat.le_of_succ_le_succ hlength))
      rw [hrun, hnext]
      rfl
    have hin := hb _ rfl
    obtain _ | ⟨r', rs⟩ := rs
    · have hread : next (some ⟨bits, r, []⟩) [b] = .char (Utf8.addBits bits b) [] :=
        if_pos hin
      rw [hread] at hnext
      exact absurd hnext (by simp)
    · have hread : next (some ⟨bits, r, r' :: rs⟩) [b] =
          .more ⟨Utf8.addBits bits b, r', rs⟩ := if_pos hin
      rw [hread] at hnext
      exact absurd hnext (by simp)
  · rw [hrun, hnext]
    rfl

theorem step_space (p : Pending) (h : Utf8.Tailed (some p)) :
    step (some p) 0x20 = ([replacement, 0x20], none) := by
  obtain ⟨bits, r, rs⟩ := p
  have hrange := h _ rfl r List.mem_cons_self
  have hspace : ¬InRange r 0x20 := by
    rintro ⟨hlow, -⟩
    have : (0x20 : UInt8).toNat = 0x20 := rfl
    omega
  exact if_neg hspace

theorem fed_append (hs : Utf8.Tailed s) {l : List Piece} (h : Fed s l) (l' : List Piece) :
    fed s s.isSome (l ++ l') = (run s (unescaped l)).1 ++
      fed (run s (unescaped l)).2 (run s (unescaped l)).2.isSome l' := by
  induction l generalizing s with
  | nil => rfl
  | cons piece l ih =>
    obtain b | _ | c := piece
    · obtain ⟨hb, hl⟩ := h
      have hstep := step_of_next hb
      have ih := ih (hs.step b) hl
      have hrun : run s (unescaped (.byte b :: l)) =
          ((step s b).1 ++ (run (step s b).2 (unescaped l)).1,
            (run (step s b).2 (unescaped l)).2) := rfl
      rw [hrun, List.cons_append, fed]
      rcases hnext : next s [b] with ⟨n, rest⟩ | rest | p
      all_goals
        rw [hnext] at hstep
        rw [hstep] at ih ⊢
        simpa using ih
    · obtain ⟨rfl, hl⟩ := h
      have ih := ih hs hl
      have hrun : run none (unescaped (.plus :: l)) =
          (0x20 :: (run none (unescaped l)).1, (run none (unescaped l)).2) := rfl
      rw [hrun, List.cons_append, fed]
      exact congrArg (0x20 :: ·) ih
    · have hnone : Utf8.Tailed none := fun p hp => absurd hp.symm (Option.some_ne_none p)
      have ih := ih hnone h
      have hsequence : run none (unescaped (.char c :: l)) =
          (c.toNat :: (run none (unescaped l)).1, (run none (unescaped l)).2) := by
        have hrun := run_next none (utf8EncodeChar_append_ne_nil c (unescaped l))
        rw [next_char] at hrun
        exact hrun
      obtain _ | p := s
      · rw [hsequence, List.cons_append, fed]
        exact congrArg (c.toNat :: ·) ih
      have hbreak : run (some p) (unescaped (.char c :: l)) =
          (replacement :: c.toNat :: (run none (unescaped l)).1,
            (run none (unescaped l)).2) := by
        have hrun := run_next (some p) (utf8EncodeChar_append_ne_nil c (unescaped l))
        have hafter : run none (String.utf8EncodeChar c ++ unescaped l) =
          (c.toNat :: (run none (unescaped l)).1, (run none (unescaped l)).2) :=
            hsequence
        rw [next_char_of_pending hs, Utf8.Outcome.after, hafter] at hrun
        exact hrun
      rw [hbreak, List.cons_append, fed]
      exact congrArg (replacement :: c.toNat :: ·) ih

/-- The code points of the bytes that a string stands for are written, if escapes continue what
escapes begin. They are not where a plus sign is the first piece behind an incomplete sequence that
does not continue it. -/
theorem njsQueryStringDecode_fed (text : List Char) :
    (Fed none (pieces text) → njsQueryStringDecode (bytes text) =
      Utf8.encode (Utf8.decode (unescaped (pieces text)))) ∧
    ∀ l l', pieces text = l ++ .plus :: l' → Fed none l → (Utf8.run none (unescaped l)).2 ≠ none →
      njsQueryStringDecode (bytes text) ≠ Utf8.encode (Utf8.decode (unescaped (pieces text))) := by
  have hnone : Utf8.Tailed none := fun p hp => absurd hp.symm (Option.some_ne_none p)
  have hwritten : njsQueryStringDecode (bytes text) =
      Utf8.encode (fed none (none : Option Pending).isSome (pieces text)) :=
    decodeLoop_eq ⟨[], rfl⟩ ⟨rfl, rfl⟩ (Nat.lt_succ_self _) 0
  constructor
  · intro h
    have hfed := fed_append hnone h []
    rw [List.append_nil] at hfed
    rw [hwritten, hfed, Utf8.decode]
    congr 2
    rcases (Utf8.run none (unescaped (pieces text))).2 with _ | p
    · rfl
    · rfl
  intro l l' hpieces h hpending
  obtain ⟨p, hp⟩ := Option.ne_none_iff_exists'.1 hpending
  have htailed := hnone.run (unescaped l)
  rw [hp] at htailed
  have hbytes : unescaped (l ++ .plus :: l') = unescaped l ++ 0x20 :: unescaped l' :=
    List.flatMap_append
  rw [hwritten, hpieces, fed_append hnone h, hbytes, Utf8.decode, Utf8.run_append, hp, fed,
    Utf8.run, step_space p htailed, List.append_assoc, Utf8.encode_append, Utf8.encode_append]
  intro heq
  have hspace := congrArg List.head? (List.append_cancel_left heq)
  -- A space is written where the replacement of the incomplete sequence is missing.
  have hleft : njsUtf8Encode (UInt32.ofNat 0x20) = [0x20] := rfl
  have hright : njsUtf8Encode njsUnicodeReplacement = [0xef, 0xbf, 0xbd] := rfl
  rw [List.cons_append, List.cons_append, encode_replacement, encode_cons (by decide), hleft,
    hright] at hspace
  exact absurd (Option.some.inj hspace) (by decide)

/-- The plus sign and the letter are taken for parts of an incomplete sequence. -/
theorem not_unescape : ¬∀ text : List Char, njsQueryStringDecode (bytes text) =
    Utf8.encode (Utf8.decode (unescaped (pieces text))) := by
  intro h
  exact absurd (h ['%', 'E', '2', '+', '%', 'E', '2', '%', '4', '1']) (by decide)

end Njs.Query
