import Njs.Query.Codec

/-!
# Streams of UTF-8

One pass over some bytes finds the size and the length of a string, another one writes it. The state
of the decoder is kept from one part of a stream to the next.
-/

namespace Njs.Decoding

open Text
open SharedDict (njsUtf8Encode njsUnicodeReplacement)
open Query (UnicodeDecode Step njsUtf8Decode njsUtf8DecodeInit njsUnicodeMaxCodepoint
  njsUnicodeError njsUnicodeContinue decodeRest decodeBoundary decodeLong njsUtf8BoundarySet)
open Utf8 (Range Pending Outcome InRange row tail Decodes WellFormed Incomplete encode)

/-- The passes of a loop that reads some bytes; one that fails may read none. -/
def passesFor (start : Bytes) : ℕ := 2 * start.length + 1

/-- The loop of `njs_utf8_stream_encode`: the state and what is written. -/
def encodeLoop (fatal : Bool) : ℕ → UnicodeDecode → Bytes → UnicodeDecode × Option Bytes
  | 0, ctx, _ => (ctx, some [])
  | passes + 1, ctx, start =>
    if start = [] then (ctx, some [])
    else
      let (cp, ctx, start) := njsUtf8Decode ctx start
      if njsUnicodeMaxCodepoint < cp then
        if cp = njsUnicodeContinue then (ctx, some [])
        else if fatal then (ctx, none)
        else
          let (ctx, dst) := encodeLoop fatal passes ctx start
          (ctx, dst.map (njsUtf8Encode njsUnicodeReplacement ++ ·))
      else
        let (ctx, dst) := encodeLoop fatal passes ctx start
        (ctx, dst.map (njsUtf8Encode (UInt32.ofNat cp) ++ ·))

def njsUtf8StreamEncode (ctx : UnicodeDecode) (start : Bytes) (last fatal : Bool) :
    UnicodeDecode × Option Bytes :=
  match encodeLoop fatal (passesFor start) ctx start with
  | (ctx, none) => (ctx, none)
  | (ctx, some dst) =>
    if last ∧ ctx.need ≠ 0 then
      if fatal then (ctx, none) else (ctx, some (dst ++ njsUtf8Encode njsUnicodeReplacement))
    else (ctx, some dst)

def njsUtf8Size (cp : ℕ) : ℕ :=
  if cp < 0x80 then 1 else if cp < 0x800 then 2 else if cp < 0x10000 then 3 else 4

/-- The loop of `njs_utf8_stream_length`. -/
def lengthLoop (fatal : Bool) : ℕ → UnicodeDecode → ℕ → ℕ → Bytes → UnicodeDecode × Option (ℕ × ℕ)
  | 0, ctx, size, length, _ => (ctx, some (length, size))
  | passes + 1, ctx, size, length, p =>
    if p = [] then (ctx, some (length, size))
    else
      let (codepoint, ctx, p) := njsUtf8Decode ctx p
      if njsUnicodeMaxCodepoint < codepoint then
        if codepoint = njsUnicodeContinue then (ctx, some (length, size))
        else if fatal then (ctx, none)
        else
          let codepoint := njsUnicodeReplacement.toNat
          lengthLoop fatal passes ctx (size + njsUtf8Size codepoint) (length + 1) p
      else lengthLoop fatal passes ctx (size + njsUtf8Size codepoint) (length + 1) p

/-- `njs_utf8_stream_length`: the length and the size, or none for -1. There may be no bytes at
all. -/
def njsUtf8StreamLength (ctx : UnicodeDecode) (p : Option Bytes) (last fatal : Bool) :
    UnicodeDecode × Option (ℕ × ℕ) :=
  let loop := match p with
    | none => (ctx, some (0, 0))
    | some p => lengthLoop fatal (passesFor p) ctx 0 0 p
  match loop with
  | (ctx, none) => (ctx, none)
  | (ctx, some (length, size)) =>
    if last ∧ ctx.need ≠ 0 then
      if fatal then (ctx, none)
      else (ctx, some (length + 1, size + njsUtf8Size njsUnicodeReplacement.toNat))
    else (ctx, some (length, size))

/-- The loop of `njs_utf8_is_valid`. -/
def validLoop : ℕ → UnicodeDecode → Bytes → Bool
  | 0, _, _ => true
  | passes + 1, ctx, p =>
    if p = [] then true
    else
      let (cp, ctx, p) := njsUtf8Decode ctx p
      if njsUnicodeMaxCodepoint < cp then false else validLoop passes ctx p

def njsUtf8IsValid (p : Bytes) : Bool := validLoop (passesFor p) njsUtf8DecodeInit p

/-- Calls of `njs_utf8_stream_encode` for parts of which none is the last one. -/
def encodeParts (ctx : UnicodeDecode) : List Bytes → UnicodeDecode × Option Bytes
  | [] => (ctx, some [])
  | part :: parts =>
    let (ctx, dst) := njsUtf8StreamEncode ctx part false false
    let (ctx, rest) := encodeParts ctx parts
    (ctx, dst.bind fun dst => rest.map (dst ++ ·))

/-! ### The decoder -/

def nextRange (ctx : UnicodeDecode) : Range :=
  if ctx.lower = 0 then tail else (ctx.lower.toNat, ctx.upper.toNat)

/-- What a state of the decoder stands for. -/
def Represents (ctx : UnicodeDecode) : Option Pending → Prop
  | none => ctx.need = 0 ∧ ctx.lower = 0
  | some p => p.bits = ctx.codepoint ∧ p.next = nextRange ctx ∧
    p.others = List.replicate (ctx.need - 1) tail ∧ ctx.need ≠ 0 ∧ (ctx.lower ≠ 0 → 2 ≤ ctx.need)

/-- A call that finds what the bytes begin with. -/
def Agrees : Outcome → Step → Prop
  | .char n rest, (cp, ctx, start) => cp = n ∧ start = rest ∧ Represents ctx none
  | .ill rest, (cp, ctx, start) => cp = njsUnicodeError ∧ start = rest ∧ Represents ctx none
  | .more p, (cp, ctx, start) => cp = njsUnicodeContinue ∧ start = [] ∧ Represents ctx (some p)

theorem inRange_iff {lower upper c : UInt8} :
    InRange (lower.toNat, upper.toNat) c ↔ ¬(c < lower ∨ upper < c) := by
  rw [UInt8.lt_iff_toNat_lt, UInt8.lt_iff_toNat_lt, InRange]
  omega

theorem addBits_eq (bits : ℕ) (c : UInt8) : Query.addBits bits c = Utf8.addBits bits c :=
  Query.addBits_eq bits c

variable {ctx : UnicodeDecode}

theorem decodeRest_agrees (l : Bytes) (hctx : Represents ctx none) {need : ℕ} (hneed : need ≠ 0) :
    Agrees (Utf8.read ⟨ctx.codepoint, tail, List.replicate (need - 1) tail⟩ l)
      (decodeRest ctx need l) := by
  obtain ⟨hzero, hlower⟩ := hctx
  induction l generalizing ctx need with
  | nil =>
    refine ⟨rfl, rfl, rfl, ?_, rfl, hneed, fun h => absurd hlower h⟩
    exact (if_pos hlower).symm
  | cons c l ih =>
    by_cases hc : InRange tail c
    · have hcond : ¬(c < 0x80 ∨ 0xbf < c) := inRange_iff.1 hc
      rw [decodeRest, if_neg hcond]
      dsimp only
      by_cases hone : need = 1
      · subst hone
        have hread : Utf8.read ⟨ctx.codepoint, tail, List.replicate (1 - 1) tail⟩ (c :: l) =
            .char (Utf8.addBits ctx.codepoint c) l := if_pos hc
        rw [if_pos rfl, hread]
        exact ⟨addBits_eq _ _, rfl, hzero, hlower⟩
      obtain ⟨k, rfl⟩ : ∃ k, need = k + 2 := ⟨need - 2, by omega⟩
      have hread : Utf8.read ⟨ctx.codepoint, tail, List.replicate (k + 2 - 1) tail⟩ (c :: l) =
          Utf8.read ⟨Utf8.addBits ctx.codepoint c, tail, List.replicate (k + 1 - 1) tail⟩ l :=
        if_pos hc
      rw [if_neg hone, hread, ← addBits_eq]
      exact @ih { ctx with codepoint := Query.addBits ctx.codepoint c } (k + 1)
        (Nat.succ_ne_zero k) hzero hlower
    · have hcond : c < 0x80 ∨ 0xbf < c := not_not.1 (fun h => hc (inRange_iff.2 h))
      have hread : Utf8.read ⟨ctx.codepoint, tail, List.replicate (need - 1) tail⟩ (c :: l) =
          .ill (c :: l) := if_neg hc
      rw [decodeRest, if_pos hcond, hread]
      exact ⟨rfl, rfl, rfl, rfl⟩

theorem decodeBoundary_agrees {l : Bytes} (hl : l ≠ []) (hzero : ctx.need = 0) {need : ℕ}
    (hneed : 2 ≤ need) (lower upper : UInt8) :
    Agrees (Utf8.read ⟨ctx.codepoint, (lower.toNat, upper.toNat), List.replicate (need - 1) tail⟩ l)
      (decodeBoundary ctx need lower upper l) := by
  obtain ⟨c, l, rfl⟩ := List.exists_cons_of_ne_nil hl
  obtain ⟨k, rfl⟩ : ∃ k, need = k + 2 := ⟨need - 2, by omega⟩
  by_cases hc : InRange (lower.toNat, upper.toNat) c
  · have hread : Utf8.read ⟨ctx.codepoint, (lower.toNat, upper.toNat),
        List.replicate (k + 2 - 1) tail⟩ (c :: l) =
        Utf8.read ⟨Utf8.addBits ctx.codepoint c, tail, List.replicate (k + 1 - 1) tail⟩ l :=
      if_pos hc
    have hcond : ¬(c < lower ∨ upper < c) := inRange_iff.1 hc
    have hctx : Represents
        { ctx with codepoint := Query.addBits ctx.codepoint c, lower := 0 } none := ⟨hzero, rfl⟩
    rw [decodeBoundary, if_neg hcond, hread, ← addBits_eq]
    exact decodeRest_agrees l hctx (Nat.succ_ne_zero k)
  · have hread : Utf8.read ⟨ctx.codepoint, (lower.toNat, upper.toNat),
        List.replicate (k + 2 - 1) tail⟩ (c :: l) = .ill (c :: l) := if_neg hc
    have hcond : c < lower ∨ upper < c := not_not.1 (fun h => hc (inRange_iff.2 h))
    rw [decodeBoundary, if_pos hcond, hread]
    exact ⟨rfl, rfl, rfl, rfl⟩

theorem njsUtf8BoundarySet_range (hlower : ctx.lower = 0) {c first second lower upper : UInt8}
    (hnonzero : lower ≠ 0) :
    nextRange (njsUtf8BoundarySet ctx c first second lower upper) =
      if c = first then (lower.toNat, 0xbf) else if c = second then (0x80, upper.toNat)
      else tail := by
  rw [njsUtf8BoundarySet]
  split_ifs
  · exact if_neg hnonzero
  · rfl
  · exact if_pos hlower

theorem decodeLong_agrees (l : Bytes) (hctx : Represents ctx none) {need : ℕ} (hneed : 2 ≤ need)
    {c first second lower upper : UInt8} (hnonzero : lower ≠ 0) {r : Range}
    (hr : r = if c = first then (lower.toNat, 0xbf) else if c = second then (0x80,
      upper.toNat) else tail) :
    Agrees (Utf8.read ⟨ctx.codepoint, r, List.replicate (need - 1) tail⟩ l)
      (decodeLong ctx need c first second lower upper l) := by
  rw [decodeLong]
  split_ifs with hl hfirst hsecond
  · subst hl
    refine ⟨rfl, rfl, ?_, ?_, rfl, by dsimp only; omega, fun _ => hneed⟩
    · exact (Query.codepoint_boundarySet ctx c first second lower upper).symm
    · rw [hr, ← njsUtf8BoundarySet_range hctx.2 hnonzero]
      rfl
  · rw [hr, if_pos hfirst]
    exact decodeBoundary_agrees hl hctx.1 hneed lower 0xbf
  · rw [hr, if_neg hfirst, if_pos hsecond]
    exact decodeBoundary_agrees hl hctx.1 hneed 0x80 upper
  · rw [hr, if_neg hfirst, if_neg hsecond]
    exact decodeRest_agrees l hctx (by omega)

theorem toNat_and_mask {c mask : UInt8} {k low : ℕ} (hmask : mask.toNat = 2 ^ k - 1)
    (hlow : low ≤ c.toNat) (hhigh : c.toNat < low + 2 ^ k) (hdvd : 2 ^ k ∣ low) :
    (c &&& mask).toNat = c.toNat - low := by
  rw [UInt8.toNat_and, hmask, Nat.and_two_pow_sub_one_eq_mod]
  obtain ⟨m, rfl⟩ := hdvd
  have hc : c.toNat = c.toNat - 2 ^ k * m + 2 ^ k * m := by omega
  rw [hc, Nat.add_mul_mod_self_left, Nat.add_sub_cancel, Nat.mod_eq_of_lt (by omega)]

theorem njsUtf8Decode_agrees {ctx : UnicodeDecode} {s : Option Pending} (h : Represents ctx s)
    {l : Bytes} (hl : l ≠ []) : Agrees (Utf8.next s l) (njsUtf8Decode ctx l) := by
  cases s with
  | some p =>
    obtain ⟨bits, r, rs⟩ := p
    obtain ⟨hbits, hr, hrs, hneed, hlower⟩ := h
    dsimp only at hbits hr hrs
    subst hbits hr hrs
    obtain ⟨c, l, rfl⟩ := List.exists_cons_of_ne_nil hl
    rw [njsUtf8Decode, if_pos hneed]
    dsimp only
    rw [Utf8.next, nextRange]
    by_cases hzero : ctx.lower = 0
    · rw [if_neg (not_not.2 hzero), if_pos hzero]
      have hctx : Represents { ctx with need := 0 } none := ⟨rfl, hzero⟩
      exact decodeRest_agrees (c :: l) hctx hneed
    · rw [if_pos hzero, if_neg hzero]
      have hctx : ({ ctx with need := 0 } : UnicodeDecode).need = 0 := rfl
      exact decodeBoundary_agrees hl hctx (hlower hzero) ctx.lower ctx.upper
  | none =>
    obtain ⟨c, l, rfl⟩ := List.exists_cons_of_ne_nil hl
    obtain ⟨hzero, hlower⟩ := h
    have hbits : ∀ codepoint, Represents { ctx with codepoint } none := fun _ => ⟨hzero, hlower⟩
    rw [njsUtf8Decode, if_neg (not_not.2 hzero)]
    split_ifs with h₁ h₂ h₃ h₄ h₅
    · have hrow : row c = some (c.toNat, []) := Utf8.row_one h₁
      rw [Utf8.next, hrow]
      exact ⟨rfl, rfl, hzero, hlower⟩
    · have hrow : row c = none := Utf8.row_none (.inl ⟨not_lt.1 h₁, h₃⟩)
      rw [Utf8.next, hrow]
      exact ⟨rfl, rfl, hzero, hlower⟩
    · have hlow : 0xc2 ≤ c.toNat := not_lt.1 h₃
      have hrow : row c = some (c.toNat - 0xc0, [tail]) := Utf8.row_two hlow h₂
      have hmask : (c &&& 0x1f).toNat = c.toNat - 0xc0 := by
        have hhigh : c.toNat ≤ 0xdf := h₂
        exact toNat_and_mask (k := 5) rfl (by omega) (by omega) (by decide)
      rw [Utf8.next, hrow, ← hmask]
      exact decodeRest_agrees l (hbits _) Nat.one_ne_zero
    · have hlow : 0xe0 ≤ c.toNat := Nat.lt_of_not_le h₂
      have hrow := Utf8.row_three hlow h₄
      have hmask : (c &&& 0x0f).toNat = c.toNat - 0xe0 := by
        have hhigh : c.toNat < 0xf0 := h₄
        exact toNat_and_mask (k := 4) rfl (by omega) (by omega) (by decide)
      rw [Utf8.next, hrow, ← hmask]
      refine decodeLong_agrees l (hbits _) (Nat.le_refl 2) (by decide) ?_
      simp only [Utf8.second₃, ← UInt8.toNat_inj]
      rfl
    · have hlow : 0xf0 ≤ c.toNat := not_lt.1 h₄
      have hrow := Utf8.row_four hlow h₅
      have hmask : (c &&& 0x07).toNat = c.toNat - 0xf0 := by
        have hhigh : c.toNat < 0xf5 := h₅
        exact toNat_and_mask (k := 3) rfl (by omega) (by omega) (by decide)
      rw [Utf8.next, hrow, ← hmask]
      refine decodeLong_agrees l (hbits _) (show 2 ≤ 3 by decide) (by decide) ?_
      simp only [Utf8.second₄, ← UInt8.toNat_inj]
      rfl
    · have hhigh : 0xf5 ≤ c.toNat := not_lt.1 h₅
      have hrow : row c = none := Utf8.row_none (.inr hhigh)
      rw [Utf8.next, hrow]
      exact ⟨rfl, rfl, hzero, hlower⟩

/-! ### The passes -/

theorem njsUtf8Encode_ofNat {n : ℕ} (hn : n.isValidChar) :
    njsUtf8Encode (UInt32.ofNat n) = String.utf8EncodeChar (Char.ofNat n) := by
  have hlt : n < 2 ^ 32 := Nat.lt_trans (Utf8.lt_of_isValidChar hn) (by decide)
  have hvalue : (UInt32.ofNat n).toNat = n := UInt32.toNat_ofNat_of_lt hlt
  have hencode := Json.njsUtf8Encode_eq (hvalue.symm ▸ hn)
  rwa [hvalue] at hencode

theorem le_max_of_isValidChar {n : ℕ} (hn : n.isValidChar) : ¬njsUnicodeMaxCodepoint < n :=
  Nat.not_lt.2 (Nat.le_of_lt_succ (Utf8.lt_of_isValidChar hn))

theorem njsUtf8Encode_replacement :
    njsUtf8Encode njsUnicodeReplacement = encode [Utf8.replacement] :=
  (njsUtf8Encode_ofNat Utf8.isValidChar_replacement).trans (List.append_nil _).symm

theorem encodeLoop_run {s : Option Pending} (h : Represents ctx s) (l : Bytes)
    (hvalid : ∀ n ∈ (Utf8.run s l).1, n.isValidChar) {passes : ℕ}
    (hpasses : 2 * l.length + (if s = none then 0 else 1) ≤ passes) :
    ∃ ctx', encodeLoop false passes ctx l = (ctx', some (encode (Utf8.run s l).1)) ∧
      Represents ctx' (Utf8.run s l).2 := by
  induction passes generalizing ctx s l with
  | zero =>
    obtain rfl : l = [] := List.length_eq_zero_iff.1 (by omega)
    exact ⟨ctx, rfl, h⟩
  | succ passes ih =>
    by_cases hl : l = []
    · subst hl
      exact ⟨ctx, if_pos rfl, h⟩
    have hagrees := njsUtf8Decode_agrees h hl
    rw [Utf8.run_next s hl] at hvalid ⊢
    rw [encodeLoop, if_neg hl]
    generalize njsUtf8Decode ctx l = decoded at hagrees
    obtain ⟨cp, ctx₁, start⟩ := decoded
    dsimp only
    cases hnext : Utf8.next s l with
    | char n rest =>
      rw [hnext] at hagrees hvalid
      obtain ⟨rfl, rfl, hctx₁⟩ := hagrees
      obtain ⟨hn, hrest⟩ := List.forall_mem_cons.1 hvalid
      have hlength := Utf8.next_char_length hnext
      obtain ⟨ctx', heq, hctx'⟩ := ih hctx₁ start hrest (by rw [if_pos rfl]; omega)
      refine ⟨ctx', ?_, hctx'⟩
      rw [if_neg (le_max_of_isValidChar hn), heq, njsUtf8Encode_ofNat hn]
      rfl
    | more p =>
      rw [hnext] at hagrees
      obtain ⟨rfl, rfl, hctx₁⟩ := hagrees
      exact ⟨ctx₁, rfl, hctx₁⟩
    | ill rest =>
      rw [hnext] at hagrees hvalid
      obtain ⟨rfl, rfl, hctx₁⟩ := hagrees
      obtain ⟨hn, hrest⟩ := List.forall_mem_cons.1 hvalid
      have hlength := Utf8.next_ill_length hnext hl
      obtain ⟨ctx', heq, hctx'⟩ := ih hctx₁ start hrest (by
        rw [if_pos rfl]
        split_ifs at hlength hpasses <;> omega)
      refine ⟨ctx', ?_, hctx'⟩
      rw [if_pos (by decide), if_neg (by decide), if_neg Bool.false_ne_true, heq]
      rw [njsUtf8Encode_replacement, Option.map_some, ← Utf8.encode_append]
      rfl

def After (ctx : UnicodeDecode) (l : Bytes) : Prop := Represents ctx (Utf8.run none l).2

theorem after_init : After njsUtf8DecodeInit [] := ⟨rfl, rfl⟩

theorem need_eq_zero_iff {s : Option Pending} (h : Represents ctx s) : ctx.need = 0 ↔ s = none := by
  cases s with
  | none => exact iff_of_true h.1 rfl
  | some p => exact iff_of_false h.2.2.2.1 (by simp)

theorem njsUtf8StreamEncode_part {l : Bytes} (h : After ctx l) (part : Bytes) (last : Bool) :
    ∃ ctx' ns, njsUtf8StreamEncode ctx part last false =
      (ctx', some (encode ns)) ∧ After ctx' (l ++ part) ∧
      (Utf8.run none l).1 ++ ns = (Utf8.run none (l ++ part)).1 ++
        if last then Utf8.finish (Utf8.run none (l ++ part)).2 else [] := by
  have happend := Utf8.run_append none l part
  have hvalid : ∀ n ∈ (Utf8.run (Utf8.run none l).2 part).1, n.isValidChar := by
    intro n hn
    refine Utf8.isValidChar_run (l ++ part) n ?_
    rw [happend]
    exact List.mem_append_right _ hn
  have hpasses : 2 * part.length + (if (Utf8.run none l).2 = none then 0 else 1) ≤
      passesFor part := by
    rw [passesFor]
    split_ifs <;> omega
  obtain ⟨ctx', heq, hctx'⟩ := encodeLoop_run h part hvalid hpasses
  have hafter : After ctx' (l ++ part) := by
    rw [After, happend]
    exact hctx'
  have hwritten : (Utf8.run none l).1 ++ (Utf8.run (Utf8.run none l).2 part).1 =
      (Utf8.run none (l ++ part)).1 := by
    rw [happend]
  have hneed := need_eq_zero_iff hafter
  rw [njsUtf8StreamEncode, heq, ← hwritten]
  dsimp only
  by_cases hlast : last = true ∧ ctx'.need ≠ 0
  · rw [if_pos hlast, if_neg Bool.false_ne_true, if_pos hlast.1]
    obtain ⟨p, hp⟩ := Option.ne_none_iff_exists'.1 (hneed.not.1 hlast.2)
    refine ⟨ctx', (Utf8.run (Utf8.run none l).2 part).1 ++ [Utf8.replacement], ?_, hafter, ?_⟩
    · rw [Utf8.encode_append, ← njsUtf8Encode_replacement]
    · rw [hp, ← List.append_assoc]
      rfl
  rw [if_neg hlast]
  refine ⟨ctx', (Utf8.run (Utf8.run none l).2 part).1, rfl, hafter, ?_⟩
  by_cases hlast' : last = true
  · have hnone := hneed.1 (not_not.1 fun h => hlast ⟨hlast', h⟩)
    rw [if_pos hlast', hnone]
    exact (List.append_nil _).symm
  · rw [if_neg hlast', List.append_nil]

theorem encodeParts_run {l : Bytes} (h : After ctx l) (parts : List Bytes) :
    ∃ ctx' ns, encodeParts ctx parts = (ctx', some (encode ns)) ∧ After ctx' (l ++ parts.flatten) ∧
      (Utf8.run none l).1 ++ ns = (Utf8.run none (l ++ parts.flatten)).1 := by
  induction parts generalizing ctx l with
  | nil =>
    refine ⟨ctx, [], rfl, ?_, ?_⟩
    · rwa [List.flatten_nil, List.append_nil]
    · rw [List.flatten_nil, List.append_nil, List.append_nil]
  | cons part parts ih =>
    obtain ⟨ctx₁, ns₁, heq₁, hafter₁, hrun₁⟩ := njsUtf8StreamEncode_part h part false
    obtain ⟨ctx', ns, heq, hafter, hrun⟩ := ih hafter₁
    refine ⟨ctx', ns₁ ++ ns, ?_, ?_, ?_⟩
    · rw [encodeParts, heq₁]
      dsimp only
      rw [heq, Utf8.encode_append]
      rfl
    · rwa [List.flatten_cons, ← List.append_assoc]
    · rw [if_neg Bool.false_ne_true, List.append_nil] at hrun₁
      rw [← List.append_assoc, hrun₁, hrun, List.flatten_cons, List.append_assoc]

theorem validLoop_iff (h : Represents ctx none) (l : Bytes) {passes : ℕ}
    (hpasses : l.length ≤ passes) : validLoop passes ctx l = true ↔ WellFormed l := by
  induction passes generalizing ctx l with
  | zero =>
    obtain rfl : l = [] := List.length_eq_zero_iff.1 (by omega)
    exact iff_of_true rfl .nil
  | succ passes ih =>
    by_cases hl : l = []
    · subst hl
      exact iff_of_true (if_pos rfl) .nil
    have hagrees := njsUtf8Decode_agrees h hl
    rw [validLoop, if_neg hl]
    generalize njsUtf8Decode ctx l = decoded at hagrees
    obtain ⟨cp, ctx₁, start⟩ := decoded
    dsimp only
    rcases Utf8.next_cases hl with ⟨s, n, rest, rfl, hs, heq⟩ | ⟨p, hp, heq⟩ |
      ⟨s, rest, rfl, hs, heq⟩
    · rw [heq] at hagrees
      obtain ⟨rfl, rfl, hctx₁⟩ := hagrees
      have hlength := Utf8.next_char_length heq
      rw [if_neg (le_max_of_isValidChar hs.units_eq.1), Utf8.wellFormed_append_iff hs]
      exact ih hctx₁ start (by omega)
    · rw [heq] at hagrees
      obtain ⟨rfl, -, -⟩ := hagrees
      have hnot := hp.2.not_wellFormed
      rw [List.append_nil] at hnot
      exact iff_of_false Bool.false_ne_true hnot
    · rw [heq] at hagrees
      obtain ⟨rfl, -, -⟩ := hagrees
      exact iff_of_false Bool.false_ne_true hs.not_wellFormed

theorem length_njsUtf8Encode {cp : ℕ} (h : ¬njsUnicodeMaxCodepoint < cp) :
    (njsUtf8Encode (UInt32.ofNat cp)).length = njsUtf8Size cp := by
  have hle : cp ≤ 0x10ffff := Nat.not_lt.1 h
  have hvalue : (UInt32.ofNat cp).toNat = cp :=
    UInt32.toNat_ofNat_of_lt (Nat.lt_of_le_of_lt hle (by decide))
  have hbounds : (0x80 : UInt32).toNat = 0x80 ∧ (0x800 : UInt32).toNat = 0x800 ∧
      (0x10000 : UInt32).toNat = 0x10000 ∧ (0x110000 : UInt32).toNat = 0x110000 :=
    ⟨rfl, rfl, rfl, rfl⟩
  rw [njsUtf8Encode, njsUtf8Size]
  simp only [UInt32.lt_iff_toNat_lt, hvalue, hbounds]
  split_ifs with h₁ h₂ h₃ h₄
  · rfl
  · rfl
  · rfl
  · rfl
  · omega

/-- The bytes of some code points, which may be surrogates. -/
def bytesOf (cps : List ℕ) : Bytes := cps.flatMap fun cp => njsUtf8Encode (UInt32.ofNat cp)

theorem bytesOf_append (cps cps' : List ℕ) : bytesOf (cps ++ cps') = bytesOf cps ++ bytesOf cps' :=
  List.flatMap_append

theorem lengthLoop_eq (fatal : Bool) (passes : ℕ) (ctx : UnicodeDecode) (size length : ℕ)
    (l : Bytes) : ∃ (ctx' : UnicodeDecode) (cps : Option (List ℕ)),
      encodeLoop fatal passes ctx l = (ctx', cps.map bytesOf) ∧
      lengthLoop fatal passes ctx size length l = (ctx', cps.map fun cps =>
        (length + cps.length, size + (bytesOf cps).length)) := by
  induction passes generalizing ctx size length l with
  | zero => exact ⟨ctx, some [], rfl, rfl⟩
  | succ passes ih =>
    by_cases hl : l = []
    · exact ⟨ctx, some [], if_pos hl, if_pos hl⟩
    rw [encodeLoop, lengthLoop, if_neg hl, if_neg hl]
    generalize njsUtf8Decode ctx l = decoded
    obtain ⟨cp, ctx₁, start⟩ := decoded
    dsimp only
    have hone : ∀ {n}, ¬njsUnicodeMaxCodepoint < n →
        ∃ (ctx' : UnicodeDecode) (cps : Option (List ℕ)),
        ((encodeLoop fatal passes ctx₁ start).1, (encodeLoop fatal passes ctx₁ start).2.map
          (njsUtf8Encode (UInt32.ofNat n) ++ ·)) = (ctx', Option.map bytesOf cps) ∧
        lengthLoop fatal passes ctx₁ (size + njsUtf8Size n) (length + 1) start =
          (ctx', cps.map fun cps => (length + cps.length, size + (bytesOf cps).length)) := by
      intro n hn
      obtain ⟨ctx', cps, hencode, hlength⟩ :=
        ih ctx₁ (size + njsUtf8Size n) (length + 1) start
      refine ⟨ctx', cps.map (n :: ·), ?_, ?_⟩
      · rw [hencode, Option.map_map, Option.map_map]
        rfl
      rw [hlength, Option.map_map]
      refine congrArg (fun f => (ctx', cps.map f)) (funext fun cps => ?_)
      have hbytes : bytesOf (n :: cps) = njsUtf8Encode (UInt32.ofNat n) ++ bytesOf cps := rfl
      rw [Function.comp_apply, hbytes, List.length_append, length_njsUtf8Encode hn,
        List.length_cons]
      refine Prod.ext ?_ ?_ <;> dsimp only <;> omega
    by_cases hmax : njsUnicodeMaxCodepoint < cp
    · rw [if_pos hmax, if_pos hmax]
      by_cases hcontinue : cp = njsUnicodeContinue
      · rw [if_pos hcontinue, if_pos hcontinue]
        exact ⟨ctx₁, some [], rfl, rfl⟩
      rw [if_neg hcontinue, if_neg hcontinue]
      by_cases hfatal : fatal = true
      · rw [if_pos hfatal, if_pos hfatal]
        exact ⟨ctx₁, none, rfl, rfl⟩
      · rw [if_neg hfatal, if_neg hfatal]
        exact hone (n := Utf8.replacement) (by decide)
    · rw [if_neg hmax, if_neg hmax]
      exact hone hmax

theorem njsUtf8StreamLength_eq (ctx : UnicodeDecode) (l : Bytes) (last fatal : Bool) :
    ∃ (ctx' : UnicodeDecode) (cps : Option (List ℕ)),
      njsUtf8StreamEncode ctx l last fatal = (ctx', cps.map bytesOf) ∧
      njsUtf8StreamLength ctx (some l) last fatal =
        (ctx', cps.map fun cps => (cps.length, (bytesOf cps).length)) := by
  obtain ⟨ctx', cps, hencode, hlength⟩ := lengthLoop_eq fatal (passesFor l) ctx 0 0 l
  rw [njsUtf8StreamEncode, njsUtf8StreamLength, hencode, hlength]
  cases cps with
  | none => exact ⟨ctx', none, rfl, rfl⟩
  | some cps =>
    dsimp only [Option.map_some]
    split_ifs with hlast hfatal
    · exact ⟨ctx', none, rfl, rfl⟩
    · refine ⟨ctx', some (cps ++ [Utf8.replacement]), ?_, ?_⟩
      · rw [Option.map_some, bytesOf_append]
        rfl
      have hsize : (bytesOf (cps ++ [Utf8.replacement])).length =
          (bytesOf cps).length + njsUtf8Size njsUnicodeReplacement.toNat := by
        rw [bytesOf_append, List.length_append]
        rfl
      rw [Option.map_some, hsize, List.length_append, Nat.zero_add, Nat.zero_add]
      rfl
    · refine ⟨ctx', some cps, rfl, ?_⟩
      rw [Nat.zero_add, Nat.zero_add]
      rfl

/-- The parts of a stream are written as the code points of the stream, up to an incomplete sequence
that the last part completes or ends; a string is valid if it is well-formed; and the two passes
agree. -/
theorem stream_exact : (∀ parts : List Bytes, ∃ ctx done pending ns,
      encodeParts njsUtf8DecodeInit parts = (ctx, some (encode ns)) ∧
      parts.flatten = done ++ pending ∧ Decodes done ns ∧
      (ctx.need = 0 ∧ pending = [] ∨ ctx.need ≠ 0 ∧ Incomplete pending) ∧
      ∀ part, ∃ ns', (njsUtf8StreamEncode ctx part true false).2 = some (encode ns') ∧
        Decodes (parts.flatten ++ part) (ns ++ ns')) ∧
    (∀ p, njsUtf8IsValid p = true ↔ WellFormed p) ∧
    ∀ ctx p last fatal, ∃ (ctx' : UnicodeDecode) (cps : Option (List ℕ)),
      njsUtf8StreamEncode ctx p last fatal = (ctx', cps.map bytesOf) ∧
      njsUtf8StreamLength ctx (some p) last fatal =
        (ctx', cps.map fun cps => (cps.length, (bytesOf cps).length)) := by
  refine ⟨?_, ?_, njsUtf8StreamLength_eq⟩
  · intro parts
    obtain ⟨ctx, ns, heq, hafter, hns⟩ := encodeParts_run after_init parts
    obtain ⟨done, pending, hflatten, hdone, hpending⟩ := Utf8.run_spec parts.flatten
    have hns : ns = (Utf8.run none parts.flatten).1 := hns
    have hneed := need_eq_zero_iff hafter
    refine ⟨ctx, done, pending, ns, heq, hflatten, hns ▸ hdone, ?_, ?_⟩
    · refine hpending.imp (fun h => ⟨hneed.2 h.1, h.2⟩) fun h => ⟨fun hzero => ?_, h.2⟩
      exact h.1 (hneed.1 hzero)
    intro part
    obtain ⟨ctx', ns', hlast, -, hns'⟩ := njsUtf8StreamEncode_part hafter part true
    refine ⟨ns', by rw [hlast], ?_⟩
    have hdecodes := Utf8.decodes_decode (parts.flatten ++ part)
    have hns' : ns ++ ns' = Utf8.decode (parts.flatten ++ part) := by
      rw [hns]
      exact hns'
    rwa [hns']
  · intro p
    have hpasses : p.length ≤ passesFor p := by
      rw [passesFor]
      omega
    have hinit : Represents njsUtf8DecodeInit none := ⟨rfl, rfl⟩
    exact validLoop_iff hinit p hpasses

end Njs.Decoding
