import Njs.Decoding.TextDecoder

/-!
# Strings from character codes

Every code is written as UTF-16 into a buffer, which a decoder of UTF-16 reads. The machine is
little-endian.
-/

namespace Njs.Decoding

open Json (IsLeading IsTrailing pairValue)
open SharedDict (njsUtf8Encode njsUnicodeReplacement)
open Query (UnicodeDecode Step njsUtf8DecodeInit njsUnicodeMaxCodepoint njsUnicodeError
  njsUnicodeContinue)
open Utf8 (encode)

/-! ### Buffers -/

def njsUtf16EncodeWrite (cp : ℕ) : Bytes := [UInt8.ofNat (cp &&& 0xff), UInt8.ofNat (cp >>> 8)]

/-- `njs_utf16_encode`, into a buffer of four bytes. -/
def njsUtf16Encode (cp : ℕ) : Bytes :=
  if cp < 0x10000 then njsUtf16EncodeWrite cp
  else
    let cp := cp - 0x10000
    njsUtf16EncodeWrite (0xd800 ||| (cp >>> 10)) ++ njsUtf16EncodeWrite (0xdc00 ||| (cp &&& 0x3ff))

def njsUtf16DecodeInit (ctx : UnicodeDecode) : UnicodeDecode :=
  { ctx with codepoint := 0, upper := 0 }

/-- `lead_state` and what follows: the first byte of a unit has been read. It is saved as one more,
which is zero after 0xff. -/
def leadState (ctx : UnicodeDecode) (lead : ℕ) : Bytes → Step
  | [] => (njsUnicodeContinue, ctx, [])
  | b :: start =>
    let unit := (b.toNat <<< 8) + lead
    if ctx.codepoint ≠ 0 then
      if IsTrailing unit then (pairValue ctx.codepoint unit, { ctx with codepoint := 0 }, start)
      else
        -- the second byte of the unit is read again
        (njsUnicodeError, { ctx with upper := UInt8.ofNat (lead + 1), codepoint := 0 }, b :: start)
    else if IsLeading unit ∨ IsTrailing unit then
      if IsTrailing unit then (njsUnicodeError, ctx, start)
      else
        let ctx := { ctx with codepoint := unit }
        match start with
        | [] => (njsUnicodeContinue, ctx, [])
        | lead :: start =>
          if start = [] then
            (njsUnicodeContinue, { ctx with upper := UInt8.ofNat (lead.toNat + 1) }, [])
          else leadState ctx lead.toNat start
    else (unit, ctx, start)

def njsUtf16Decode (ctx : UnicodeDecode) (start : Bytes) : Step :=
  if ctx.upper ≠ 0 then leadState { ctx with upper := 0 } (ctx.upper.toNat - 1) start
  else
    match start with
    | [] => (njsUnicodeContinue, ctx, [])
    | lead :: start =>
      if start = [] then
        (njsUnicodeContinue, { ctx with upper := UInt8.ofNat (lead.toNat + 1) }, [])
      else leadState ctx lead.toNat start

/-! ### Strings -/

/-- The code of an argument, which is an integer, or none for a range error. -/
def codeOf (isPoint : Bool) (num : ℤ) : Option ℕ :=
  if isPoint then if num < 0 ∨ 0x10ffff < num then none else some num.toNat
  else some (num % 0x10000).toNat

/-- The call of the decoder for a code, with a new buffer. -/
def decodeCode (ctx : UnicodeDecode) (code : ℕ) : ℕ × UnicodeDecode :=
  let (cp, ctx, _) := njsUtf16Decode ctx (njsUtf16Encode code)
  (cp, ctx)

/-- The first pass of `njs_string_from_char_code`: the last result of the decoder, the size and the
length. -/
def sizeLoop (isPoint : Bool) : UnicodeDecode → ℕ → ℕ → ℕ → List ℤ → Option (ℕ × ℕ × ℕ)
  | _, cp, size, length, [] => some (cp, size, length)
  | ctx, _, size, length, arg :: args =>
    match codeOf isPoint arg with
    | none => none
    | some code =>
      let (cp, ctx) := decodeCode ctx code
      if njsUnicodeMaxCodepoint < cp then
        if cp = njsUnicodeContinue then sizeLoop isPoint ctx cp size length args
        else
          let cp := njsUnicodeReplacement.toNat
          sizeLoop isPoint ctx cp (size + njsUtf8Size cp) (length + 1) args
      else sizeLoop isPoint ctx cp (size + njsUtf8Size cp) (length + 1) args

/-- The second pass: what is written. -/
def writeLoop (isPoint : Bool) : UnicodeDecode → List ℤ → Bytes
  | _, [] => []
  | ctx, arg :: args =>
    let code := (codeOf isPoint arg).getD 0
    let (cp, ctx) := decodeCode ctx code
    if njsUnicodeMaxCodepoint < cp then
      if cp = njsUnicodeContinue ∧ args ≠ [] then writeLoop isPoint ctx args
      else njsUtf8Encode njsUnicodeReplacement ++ writeLoop isPoint ctx args
    else njsUtf8Encode (UInt32.ofNat cp) ++ writeLoop isPoint ctx args

/-- `njs_string_from_char_code` of integers; none is a range error. -/
def njsStringFromCharCode (isPoint : Bool) (args : List ℤ) : Option Decoded :=
  let ctx := njsUtf16DecodeInit njsUtf8DecodeInit
  match sizeLoop isPoint ctx 0 0 0 args with
  | none => none
  | some (cp, size, length) =>
    let bytes := writeLoop isPoint ctx args
    if cp = njsUnicodeContinue then
      some ⟨size + njsUtf8Size njsUnicodeReplacement.toNat, length + 1, bytes⟩
    else some ⟨size, length, bytes⟩

/-! ### What is expected -/

def single (code : ℕ) : ℕ := if IsLeading code ∨ IsTrailing code then Utf8.replacement else code

def points : List ℕ → List ℕ
  | [] => []
  | [code] => [single code]
  | code :: code' :: codes =>
    if IsLeading code ∧ IsTrailing code' then pairValue code code' :: points codes
    else single code :: points (code' :: codes)

/-- Every leading surrogate that is not the last code is followed by a trailing one. -/
def NoBrokenPair (codes : List ℕ) : Prop :=
  codes.IsChain fun code code' => IsLeading code → IsTrailing code'

example : points [0xd83d, 0xde00, 0xd800, 0x41] = [0x1f600, 0xfffd, 0x41] := by decide

/-! ### The decoder -/

variable {ctx : UnicodeDecode} {code : ℕ}

theorem toNat_low (cp : ℕ) : (UInt8.ofNat (cp &&& 0xff)).toNat = cp % 256 := by
  rw [show (0xff : ℕ) = 2 ^ 8 - 1 from rfl, Nat.and_two_pow_sub_one_eq_mod]
  exact UInt8.toNat_ofNat_of_lt (Nat.mod_lt _ (by decide))

theorem toNat_high {cp : ℕ} (h : cp < 0x10000) : (UInt8.ofNat (cp >>> 8)).toNat = cp / 256 := by
  have hlt : cp / 256 < 256 := by omega
  rw [Nat.shiftRight_eq_div_pow]
  exact UInt8.toNat_ofNat_of_lt hlt

theorem unit_eq {cp : ℕ} (h : cp < 0x10000) : ((UInt8.ofNat (cp >>> 8)).toNat <<< 8) +
    (UInt8.ofNat (cp &&& 0xff)).toNat = cp := by
  rw [toNat_high h, toNat_low, Nat.shiftLeft_eq]
  omega

theorem surrogates_eq {d : ℕ} (h : d < 0x100000) :
    0xd800 ||| (d >>> 10) = 0xd800 + d / 1024 ∧ 0xdc00 ||| (d &&& 0x3ff) = 0xdc00 + d % 1024 := by
  have hlow : d &&& 0x3ff = d % 1024 := Nat.and_two_pow_sub_one_eq_mod d 10
  have hhigh : d >>> 10 = d / 1024 := Nat.shiftRight_eq_div_pow d 10
  rw [hlow, hhigh]
  refine ⟨(Nat.shiftLeft_add_eq_or_of_lt (i := 10) ?_ 0x36).symm,
    (Nat.shiftLeft_add_eq_or_of_lt (i := 10) ?_ 0x37).symm⟩ <;> omega

/-- The decoder has saved nothing. -/
def Fresh (ctx : UnicodeDecode) : Prop := ctx.codepoint = 0 ∧ ctx.upper = 0

def Saved (ctx : UnicodeDecode) : Prop := ctx.codepoint = 0 ∨ IsLeading ctx.codepoint

theorem decodeCode_basic (hupper : ctx.upper = 0) (hcode : code < 0x10000) : decodeCode ctx code =
      ((leadState ctx (code % 256) [UInt8.ofNat (code >>> 8)]).1,
        (leadState ctx (code % 256) [UInt8.ofNat (code >>> 8)]).2.1) := by
  have hbuffer : njsUtf16Encode code = njsUtf16EncodeWrite code := if_pos hcode
  have hdecode : njsUtf16Decode ctx (njsUtf16EncodeWrite code) =
      leadState ctx (UInt8.ofNat (code &&& 0xff)).toNat [UInt8.ofNat (code >>> 8)] := by
    rw [njsUtf16EncodeWrite, njsUtf16Decode, if_neg (not_not.2 hupper),
      if_neg (List.cons_ne_nil _ _)]
  rw [decodeCode, hbuffer, hdecode, toNat_low]

theorem decodeCode_single (h : Fresh ctx) (hcode : code < 0x10000) (hleading : ¬IsLeading code)
    (htrailing : ¬IsTrailing code) : decodeCode ctx code = (code, ctx) := by
  have hunit := unit_eq hcode
  rw [toNat_low] at hunit
  have hnone : ¬(IsLeading code ∨ IsTrailing code) := not_or.2 ⟨hleading, htrailing⟩
  rw [decodeCode_basic h.2 hcode, leadState, hunit, if_neg (not_not.2 h.1), if_neg hnone]

theorem decodeCode_trailing (h : Fresh ctx) (htrailing : IsTrailing code) :
    decodeCode ctx code = (njsUnicodeError, ctx) := by
  have hcode : code < 0x10000 := htrailing.2.trans (by decide)
  have hunit := unit_eq hcode
  rw [toNat_low] at hunit
  rw [decodeCode_basic h.2 hcode, leadState, hunit, if_neg (not_not.2 h.1), if_pos (.inr htrailing),
    if_pos htrailing]

theorem not_trailing_of_leading (h : IsLeading code) : ¬IsTrailing code :=
  fun h' => absurd h.2 (Nat.not_lt.2 h'.1)

theorem decodeCode_leading (h : Fresh ctx) (hleading : IsLeading code) :
    decodeCode ctx code = (njsUnicodeContinue, { ctx with codepoint := code }) := by
  have hcode : code < 0x10000 := hleading.2.trans (by decide)
  have hunit := unit_eq hcode
  rw [toNat_low] at hunit
  rw [decodeCode_basic h.2 hcode, leadState, hunit, if_neg (not_not.2 h.1), if_pos (.inl hleading),
    if_neg (not_trailing_of_leading hleading)]

theorem decodeCode_pair (hcodepoint : ctx.codepoint ≠ 0) (hupper : ctx.upper = 0)
    (htrailing : IsTrailing code) :
    decodeCode ctx code = (pairValue ctx.codepoint code, { ctx with codepoint := 0 }) := by
  have hcode : code < 0x10000 := htrailing.2.trans (by decide)
  have hunit := unit_eq hcode
  rw [toNat_low] at hunit
  rw [decodeCode_basic hupper hcode, leadState, hunit, if_pos hcodepoint, if_pos htrailing]

theorem decodeCode_supplementary (h : Fresh ctx) (hlow : 0x10000 ≤ code) (hhigh : code ≤ 0x10ffff) :
    decodeCode ctx code = (code, ctx) := by
  obtain ⟨d, rfl⟩ : ∃ d, code = d + 0x10000 := ⟨code - 0x10000, by omega⟩
  have hd : d < 0x100000 := by omega
  obtain ⟨hfirst, hsecond⟩ := surrogates_eq hd
  have hleading : IsLeading (0xd800 + d / 1024) := ⟨by omega, by omega⟩
  have htrailing : IsTrailing (0xdc00 + d % 1024) := ⟨by omega, by omega⟩
  have hunit := unit_eq (hleading.2.trans (by decide : 0xdc00 < 0x10000))
  have hunit' := unit_eq (htrailing.2.trans (by decide : 0xe000 < 0x10000))
  have hbuffer : njsUtf16Encode (d + 0x10000) = njsUtf16EncodeWrite (0xd800 + d / 1024) ++
      njsUtf16EncodeWrite (0xdc00 + d % 1024) := by
    rw [njsUtf16Encode, if_neg (by omega)]
    dsimp only
    rw [Nat.add_sub_cancel, hfirst, hsecond]
  have hne : 0xd800 + d / 1024 ≠ 0 := by omega
  have hpair : pairValue (0xd800 + d / 1024) (0xdc00 + d % 1024) = d + 0x10000 := by
    rw [pairValue]
    omega
  obtain ⟨hcodepoint, hupper⟩ := h
  rw [decodeCode, hbuffer, njsUtf16EncodeWrite, njsUtf16EncodeWrite, List.cons_append,
    List.cons_append, List.nil_append, njsUtf16Decode, if_neg (not_not.2 hupper)]
  dsimp only
  rw [if_neg (List.cons_ne_nil _ _), leadState, hunit, if_neg (not_not.2 hcodepoint),
    if_pos (.inl hleading), if_neg (not_trailing_of_leading hleading)]
  dsimp only
  rw [if_neg (List.cons_ne_nil _ _), leadState, hunit']
  dsimp only
  rw [if_pos hne, if_pos htrailing, hpair, ← hcodepoint]

/-! ### Bytes -/

/-- The bytes of a code point in UTF-16. -/
def weight (n : ℕ) : ℕ := if n < 0x10000 then 2 else 4

def saved (ctx : UnicodeDecode) : ℕ :=
  (if ctx.codepoint = 0 then 0 else 2) + if ctx.upper = 0 then 0 else 1

/-- A result of the decoder takes no more bytes than there are. -/
def Bounded (bound cp : ℕ) (ctx : UnicodeDecode) : Prop :=
  Saved ctx ∧ (cp = njsUnicodeContinue ∧ 2 ≤ saved ctx ∧ saved ctx ≤ bound ∨
    cp = njsUnicodeError ∧ 2 + saved ctx ≤ bound ∨ cp.isValidChar ∧ weight cp + saved ctx ≤ bound)

theorem isValidChar_pairValue {high low : ℕ} (hhigh : IsLeading high) (hlow : IsTrailing low) :
    (pairValue high low).isValidChar ∧ weight (pairValue high low) = 4 := by
  have hbounds : 0x10000 ≤ pairValue high low ∧ pairValue high low < 0x110000 := by
    rw [pairValue]
    rw [IsLeading] at hhigh
    rw [IsTrailing] at hlow
    omega
  exact ⟨.inr ⟨by omega, hbounds.2⟩, if_neg (by omega)⟩

theorem isValidChar_single {n : ℕ} (h : ¬(IsLeading n ∨ IsTrailing n)) (hlt : n < 0x110000) :
    n.isValidChar := by
  show n < 0xd800 ∨ 0xdfff < n ∧ n < 0x110000
  rw [IsLeading, IsTrailing] at h
  omega

theorem saved_le (ctx : UnicodeDecode) (upper : UInt8) (codepoint : ℕ) :
    saved { ctx with upper, codepoint } ≤ (if codepoint = 0 then 0 else 2) + 1 := by
  rw [saved]
  split_ifs <;> omega

theorem leadState_bounded {lead : ℕ} {start : Bytes} (hsaved : Saved ctx) (hupper : ctx.upper = 0)
    (hlead : lead < 256) (hstart : start ≠ []) :
    Bounded ((if ctx.codepoint = 0 then 0 else 2) + 1 + start.length)
      (leadState ctx lead start).1 (leadState ctx lead start).2.1 := by
  induction hlength : start.length using Nat.strong_induction_on generalizing ctx lead start with
  | _ k ih =>
    subst hlength
    obtain ⟨b, start, rfl⟩ := List.exists_cons_of_ne_nil hstart
    have hb := b.toNat_lt
    have hunit : (b.toNat <<< 8) + lead < 0x10000 := by
      rw [Nat.shiftLeft_eq]
      omega
    rw [leadState.eq_def, List.length_cons]
    dsimp only
    generalize (b.toNat <<< 8) + lead = unit at hunit
    by_cases hcodepoint : ctx.codepoint = 0
    · rw [if_neg (not_not.2 hcodepoint), if_pos hcodepoint]
      have hnothing : saved ctx = 0 := by rw [saved, if_pos hcodepoint, if_pos hupper]
      by_cases hsurrogate : IsLeading unit ∨ IsTrailing unit
      · rw [if_pos hsurrogate]
        by_cases htrailing : IsTrailing unit
        · rw [if_pos htrailing]
          exact ⟨hsaved, .inr (.inl ⟨rfl, by dsimp only; omega⟩)⟩
        rw [if_neg htrailing]
        have hleading := hsurrogate.resolve_right htrailing
        have hne : unit ≠ 0 := by
          have := hleading.1
          omega
        have hle : ∀ upper, 2 ≤ saved { ctx with upper, codepoint := unit } ∧
            saved { ctx with upper, codepoint := unit } ≤ 3 := by
          intro upper
          rw [saved, if_neg hne]
          split_ifs <;> omega
        cases start with
        | nil =>
          have htwo : saved { ctx with codepoint := unit } = 2 := by
            rw [saved, if_neg hne, if_pos hupper]
          exact ⟨.inr hleading, .inl ⟨rfl, Nat.le_of_eq htwo.symm, Nat.le_of_eq htwo⟩⟩
        | cons lead' start =>
          dsimp only
          by_cases hlast : start = []
          · rw [if_pos hlast, hlast]
            exact ⟨.inr hleading, .inl ⟨rfl, hle _⟩⟩
          rw [if_neg hlast]
          have hrest := @ih start.length (by
            rw [List.length_cons, List.length_cons]
            omega) { ctx with codepoint := unit } lead'.toNat start (.inr hleading) hupper
            lead'.toNat_lt hlast rfl
          rw [if_neg hne] at hrest
          have hbound : 2 + 1 + start.length = 0 + 1 + ((lead' :: start).length + 1) := by
            rw [List.length_cons]
            omega
          rwa [hbound] at hrest
      · rw [if_neg hsurrogate]
        refine ⟨hsaved, .inr (.inr ⟨isValidChar_single hsurrogate (by omega), ?_⟩)⟩
        rw [weight, if_pos hunit, hnothing]
        omega
    · rw [if_pos hcodepoint, if_neg hcodepoint]
      by_cases htrailing : IsTrailing unit
      · rw [if_pos htrailing]
        obtain ⟨hvalid, hweight⟩ := isValidChar_pairValue (hsaved.resolve_left hcodepoint) htrailing
        refine ⟨.inl rfl, .inr (.inr ⟨hvalid, ?_⟩)⟩
        have hzero : saved { ctx with codepoint := 0 } = 0 := by
          rw [saved, if_pos rfl, if_pos hupper]
        rw [hweight]
        dsimp only
        omega
      · rw [if_neg htrailing]
        have hle := saved_le ctx (UInt8.ofNat (lead + 1)) 0
        rw [if_pos rfl] at hle
        exact ⟨.inl rfl, .inr (.inl ⟨rfl, by dsimp only; omega⟩)⟩

theorem length_njsUtf16Encode (cp : ℕ) : (njsUtf16Encode cp).length = weight cp := by
  rw [njsUtf16Encode, weight]
  split_ifs <;> rfl

theorem decodeCode_bounded (hsaved : Saved ctx) (code : ℕ) :
    Bounded (saved ctx + weight code) (decodeCode ctx code).1 (decodeCode ctx code).2 := by
  have hlength := length_njsUtf16Encode code
  have hweight : 2 ≤ weight code := by
    rw [weight]
    split_ifs <;> omega
  rw [decodeCode]
  generalize njsUtf16Encode code = start at hlength
  rw [← hlength] at hweight ⊢
  match start with
  | [] => exact nomatch hweight
  | [_] => exact absurd hweight (Nat.not_succ_le_self 1)
  | lead :: b :: start =>
    rw [njsUtf16Decode]
    by_cases hupper : ctx.upper = 0
    · rw [if_neg (not_not.2 hupper)]
      dsimp only
      rw [if_neg (List.cons_ne_nil _ _)]
      have hbounded := leadState_bounded hsaved hupper lead.toNat_lt (List.cons_ne_nil b start)
      have hbound : saved ctx + (lead :: b :: start).length =
          (if ctx.codepoint = 0 then 0 else 2) + 1 + (b :: start).length := by
        rw [saved, if_pos hupper, List.length_cons]
        omega
      rwa [hbound]
    rw [if_pos hupper]
    have hlead : ctx.upper.toNat - 1 < 256 :=
      Nat.lt_of_le_of_lt (Nat.sub_le _ _) ctx.upper.toNat_lt
    have hbounded := @leadState_bounded { ctx with upper := 0 } _ (lead :: b :: start) hsaved rfl
      hlead (List.cons_ne_nil _ _)
    have hbound : saved ctx + (lead :: b :: start).length =
        (if ctx.codepoint = 0 then 0 else 2) + 1 + (lead :: b :: start).length := by
      rw [saved, if_neg hupper]
    rwa [hbound]

/-! ### The passes -/

/-- The code points that the second pass writes. -/
def outputs : UnicodeDecode → List ℕ → List ℕ
  | _, [] => []
  | ctx, code :: codes =>
    let (cp, ctx) := decodeCode ctx code
    if njsUnicodeMaxCodepoint < cp then
      if cp = njsUnicodeContinue ∧ codes ≠ [] then outputs ctx codes
      else Utf8.replacement :: outputs ctx codes
    else cp :: outputs ctx codes

variable {ctx' : UnicodeDecode} {code' : ℕ} {codes : List ℕ} {args : List ℤ}

theorem outputs_continue (h : decodeCode ctx code = (njsUnicodeContinue, ctx')) :
    outputs ctx (code :: code' :: codes) = outputs ctx' (code' :: codes) := by
  rw [outputs, h]
  dsimp only
  rw [if_pos (by decide), if_pos ⟨rfl, List.cons_ne_nil _ _⟩]

theorem outputs_last (h : decodeCode ctx code = (njsUnicodeContinue, ctx')) :
    outputs ctx [code] = [Utf8.replacement] := by
  rw [outputs, h]
  rfl

theorem outputs_error (codes : List ℕ) (h : decodeCode ctx code = (njsUnicodeError, ctx')) :
    outputs ctx (code :: codes) = Utf8.replacement :: outputs ctx' codes := by
  rw [outputs, h]
  dsimp only
  rw [if_pos (by decide), if_neg (by rintro ⟨h, -⟩; exact absurd h (by decide))]

theorem outputs_char {n : ℕ} (codes : List ℕ) (hn : n.isValidChar)
    (h : decodeCode ctx code = (n, ctx')) :
    outputs ctx (code :: codes) = n :: outputs ctx' codes := by
  rw [outputs, h]
  exact if_neg (le_max_of_isValidChar hn)

/-- The bytes of some code points in UTF-16. -/
def totalWeight (ns : List ℕ) : ℕ := (ns.map weight).sum

theorem totalWeight_cons (n : ℕ) (ns : List ℕ) :
    totalWeight (n :: ns) = weight n + totalWeight ns := List.sum_cons

theorem outputs_bounded (hsaved : Saved ctx) (codes : List ℕ) :
    (∀ n ∈ outputs ctx codes, n.isValidChar) ∧
      totalWeight (outputs ctx codes) ≤ saved ctx + totalWeight codes := by
  induction codes generalizing ctx with
  | nil => exact ⟨fun _ hn => (nomatch hn), Nat.zero_le _⟩
  | cons code codes ih =>
    have hbounded := decodeCode_bounded hsaved code
    generalize hdecode : decodeCode ctx code = result at hbounded
    obtain ⟨cp, ctx'⟩ := result
    obtain ⟨hsaved', hcases⟩ := hbounded
    obtain ⟨hvalid, hle⟩ := @ih ctx' hsaved'
    have hreplacement : weight Utf8.replacement = 2 := rfl
    rw [totalWeight_cons]
    dsimp only at hcases
    rcases hcases with ⟨rfl, htwo, hbound⟩ | ⟨rfl, hbound⟩ | ⟨hn, hbound⟩
    · cases codes with
      | nil =>
        rw [outputs_last hdecode]
        refine ⟨List.forall_mem_singleton.2 Utf8.isValidChar_replacement, ?_⟩
        rw [totalWeight_cons, hreplacement]
        have hnil : totalWeight [] = 0 := rfl
        omega
      | cons code' codes =>
        rw [outputs_continue hdecode]
        exact ⟨hvalid, by omega⟩
    · rw [outputs_error codes hdecode, totalWeight_cons, hreplacement]
      exact ⟨List.forall_mem_cons.2 ⟨Utf8.isValidChar_replacement, hvalid⟩, by omega⟩
    · rw [outputs_char codes hn hdecode, totalWeight_cons]
      exact ⟨List.forall_mem_cons.2 ⟨hn, hvalid⟩, by omega⟩

theorem outputs_single (h : Fresh ctx) (hhigh : code ≤ 0x10ffff) (hleading : ¬IsLeading code)
    (codes : List ℕ) : outputs ctx (code :: codes) = single code :: outputs ctx codes := by
  by_cases htrailing : IsTrailing code
  · rw [outputs_error codes (decodeCode_trailing h htrailing), single, if_pos (.inr htrailing)]
  have hnone : ¬(IsLeading code ∨ IsTrailing code) := not_or.2 ⟨hleading, htrailing⟩
  have hvalid := isValidChar_single hnone (Nat.lt_succ_of_le hhigh)
  have hdecode : decodeCode ctx code = (code, ctx) := by
    rcases Nat.lt_or_ge code 0x10000 with hlt | hge
    · exact decodeCode_single h hlt hleading htrailing
    · exact decodeCode_supplementary h hge hhigh
  rw [outputs_char codes hvalid hdecode, single, if_neg hnone]

theorem outputs_pair (h : Fresh ctx) (hleading : IsLeading code) (htrailing : IsTrailing code')
    (codes : List ℕ) :
    outputs ctx (code :: code' :: codes) = pairValue code code' :: outputs ctx codes := by
  have hne : code ≠ 0 := by
    have := hleading.1
    omega
  have hpair := @decodeCode_pair { ctx with codepoint := code } code' hne h.2 htrailing
  rw [outputs_continue (decodeCode_leading h hleading),
    outputs_char codes (isValidChar_pairValue hleading htrailing).1 hpair, ← h.1]

theorem points_pair (hleading : IsLeading code) (htrailing : IsTrailing code') (codes : List ℕ) :
    points (code :: code' :: codes) = pairValue code code' :: points codes :=
  if_pos ⟨hleading, htrailing⟩

theorem NoBrokenPair.tail (h : NoBrokenPair (code :: codes)) : NoBrokenPair codes := by
  cases codes with
  | nil => exact .nil
  | cons code' codes => exact (List.isChain_cons_cons.1 h).2

theorem NoBrokenPair.cons {codes : List ℕ} (h : NoBrokenPair codes) (hcode : ¬IsLeading code) :
    NoBrokenPair (code :: codes) := by
  cases codes with
  | nil => exact .singleton code
  | cons code' codes => exact List.isChain_cons_cons.2 ⟨fun h => absurd h hcode, h⟩

theorem outputs_eq_points (h : Fresh ctx) (hhigh : ∀ code ∈ codes, code ≤ 0x10ffff)
    (hbroken : NoBrokenPair codes) : outputs ctx codes = points codes := by
  induction codes using points.induct with
  | case1 => rfl
  | case2 code =>
    by_cases hleading : IsLeading code
    · rw [outputs_last (decodeCode_leading h hleading), points, single, if_pos (.inl hleading)]
    · exact outputs_single h (hhigh code List.mem_cons_self) hleading []
  | case3 code code' codes hpair ih =>
    rw [outputs_pair h hpair.1 hpair.2, points_pair hpair.1 hpair.2,
      ih (fun n hn => hhigh n (List.mem_cons_of_mem _ (List.mem_cons_of_mem _ hn)))
        hbroken.tail.tail]
  | case4 code code' codes hpair ih =>
    have hleading : ¬IsLeading code :=
      fun hleading => hpair ⟨hleading, (List.isChain_cons_cons.1 hbroken).1 hleading⟩
    rw [outputs_single h (hhigh code List.mem_cons_self) hleading, points, if_neg hpair,
      ih (fun n hn => hhigh n (List.mem_cons_of_mem _ hn)) hbroken.tail]

theorem weight_single (code : ℕ) : weight (single code) = weight code := by
  rw [single]
  split_ifs with h
  · have hlt : code < 0x10000 := by
      rw [IsLeading, IsTrailing] at h
      omega
    rw [weight, weight, if_pos hlt]
    rfl
  · rfl

theorem weight_surrogate (h : IsLeading code ∨ IsTrailing code) : weight code = 2 := by
  rw [IsLeading, IsTrailing] at h
  exact if_pos (by omega)

theorem totalWeight_points (codes : List ℕ) : totalWeight (points codes) = totalWeight codes := by
  induction codes using points.induct with
  | case1 => rfl
  | case2 code => exact congrArg (· + 0) (weight_single code)
  | case3 code code' codes hpair ih =>
    rw [points_pair hpair.1 hpair.2, totalWeight_cons, totalWeight_cons, totalWeight_cons,
      (isValidChar_pairValue hpair.1 hpair.2).2, weight_surrogate (.inl hpair.1),
      weight_surrogate (.inr hpair.2), ih, ← Nat.add_assoc]
  | case4 code code' codes hpair ih =>
    rw [points, if_neg hpair, totalWeight_cons, totalWeight_cons, weight_single, ih]

theorem decodeCode_broken (h : Fresh ctx) (hleading : IsLeading code) (hhigh : code' ≤ 0x10ffff)
    (htrailing : ¬IsTrailing code') :
    ∃ ctx', decodeCode { ctx with codepoint := code } code' = (njsUnicodeError, ctx') ∧
      ctx'.codepoint = 0 := by
  have hne : code ≠ 0 := by
    have := hleading.1
    omega
  obtain ⟨hcodepoint, hupper⟩ := h
  rcases Nat.lt_or_ge code' 0x10000 with hlt | hge
  · have hunit := unit_eq hlt
    rw [toNat_low] at hunit
    rw [@decodeCode_basic { ctx with codepoint := code } code' hupper hlt, leadState, hunit,
      if_pos hne, if_neg htrailing]
    exact ⟨_, rfl, rfl⟩
  obtain ⟨d, rfl⟩ : ∃ d, code' = d + 0x10000 := ⟨code' - 0x10000, by omega⟩
  have hd : d < 0x100000 := by omega
  obtain ⟨hfirst, -⟩ := surrogates_eq hd
  have hfirst' : IsLeading (0xd800 + d / 1024) := ⟨by omega, by omega⟩
  have hunit := unit_eq (hfirst'.2.trans (by decide : 0xdc00 < 0x10000))
  have hbuffer : njsUtf16Encode (d + 0x10000) = njsUtf16EncodeWrite (0xd800 + d / 1024) ++
      njsUtf16EncodeWrite (0xdc00 ||| (d &&& 0x3ff)) := by
    rw [njsUtf16Encode, if_neg (by omega)]
    dsimp only
    rw [Nat.add_sub_cancel, hfirst]
  rw [decodeCode, hbuffer, njsUtf16EncodeWrite, List.cons_append, List.cons_append,
    List.nil_append, njsUtf16Decode, if_neg (not_not.2 hupper)]
  dsimp only
  rw [if_neg (List.cons_ne_nil _ _), leadState, hunit]
  dsimp only
  rw [if_pos hne, if_neg (not_trailing_of_leading hfirst')]
  exact ⟨_, rfl, rfl⟩

theorem totalWeight_outputs_lt (h : Fresh ctx) (hhigh : ∀ code ∈ codes, code ≤ 0x10ffff)
    (hbroken : ¬NoBrokenPair codes) : totalWeight (outputs ctx codes) < totalWeight codes := by
  induction codes using points.induct with
  | case1 => exact absurd List.IsChain.nil hbroken
  | case2 code => exact absurd (List.IsChain.singleton code) hbroken
  | case3 code code' codes hpair ih =>
    have hrest : ¬NoBrokenPair codes := by
      intro hcodes
      have hcode' : ¬IsLeading code' := fun h => not_trailing_of_leading h hpair.2
      exact hbroken (List.isChain_cons_cons.2 ⟨fun _ => hpair.2, hcodes.cons hcode'⟩)
    have hlt := ih (fun n hn => hhigh n (List.mem_cons_of_mem _ (List.mem_cons_of_mem _ hn))) hrest
    rw [outputs_pair h hpair.1 hpair.2, totalWeight_cons, totalWeight_cons, totalWeight_cons,
      (isValidChar_pairValue hpair.1 hpair.2).2, weight_surrogate (.inl hpair.1),
      weight_surrogate (.inr hpair.2)]
    omega
  | case4 code code' codes hpair ih =>
    by_cases hleading : IsLeading code
    · have htrailing : ¬IsTrailing code' := fun htrailing => hpair ⟨hleading, htrailing⟩
      have hcode' := hhigh code' (List.mem_cons_of_mem _ List.mem_cons_self)
      obtain ⟨ctx', hdecode, hcodepoint⟩ := decodeCode_broken h hleading hcode' htrailing
      have hle := (outputs_bounded (.inl hcodepoint : Saved ctx') codes).2
      have hone : saved ctx' ≤ 1 := by
        rw [saved, if_pos hcodepoint]
        split_ifs <;> omega
      have htwo : 2 ≤ weight code' := by
        rw [weight]
        split_ifs <;> omega
      rw [outputs_continue (decodeCode_leading h hleading), outputs_error codes hdecode,
        totalWeight_cons, totalWeight_cons, totalWeight_cons, weight_surrogate (.inl hleading),
        show weight Utf8.replacement = 2 from rfl]
      omega
    · have hrest : ¬NoBrokenPair (code' :: codes) := fun hcodes =>
        hbroken (List.isChain_cons_cons.2 ⟨fun h => absurd h hleading, hcodes⟩)
      have hlt := ih (fun n hn => hhigh n (List.mem_cons_of_mem _ hn)) hrest
      rw [outputs_single h (hhigh code List.mem_cons_self) hleading, totalWeight_cons,
        totalWeight_cons, weight_single]
      omega

theorem writeLoop_eq (isPoint : Bool) (ctx : UnicodeDecode)
    (hcodes : args.map (codeOf isPoint) = codes.map some) :
    writeLoop isPoint ctx args = bytesOf (outputs ctx codes) := by
  induction codes generalizing ctx args with
  | nil =>
    rw [List.map_eq_nil_iff.1 hcodes]
    rfl
  | cons code codes ih =>
    obtain ⟨arg, args, rfl, hcode, hrest⟩ := List.map_eq_cons_iff.1 hcodes
    have hargs : args = [] ↔ codes = [] := by
      rw [← List.map_eq_nil_iff, hrest, List.map_eq_nil_iff]
    rw [writeLoop, outputs, hcode, Option.getD_some]
    generalize decodeCode ctx code = result
    obtain ⟨cp, ctx'⟩ := result
    simp only [ne_eq, hargs, ih ctx' hrest]
    split_ifs <;> rfl

theorem sizeLoop_eq (isPoint : Bool) (ctx : UnicodeDecode) (cp size length : ℕ)
    (hcodes : args.map (codeOf isPoint) = codes.map some)
    (hcp : codes = [] → cp ≠ njsUnicodeContinue) :
    ∃ cp' size' length', sizeLoop isPoint ctx cp size length args = some (cp', size', length') ∧
      (if cp' = njsUnicodeContinue then
        (size' + njsUtf8Size njsUnicodeReplacement.toNat, length' + 1) else (size', length')) =
      (size + (bytesOf (outputs ctx codes)).length, length + (outputs ctx codes).length) := by
  induction codes generalizing ctx cp size length args with
  | nil =>
    rw [List.map_eq_nil_iff.1 hcodes]
    exact ⟨cp, size, length, rfl, if_neg (hcp rfl)⟩
  | cons code codes ih =>
    obtain ⟨arg, args, rfl, hcode, hrest⟩ := List.map_eq_cons_iff.1 hcodes
    rw [sizeLoop, outputs, hcode]
    dsimp only
    generalize decodeCode ctx code = result
    obtain ⟨cp₁, ctx'⟩ := result
    dsimp only
    have hone : ∀ {n}, ¬njsUnicodeMaxCodepoint < n → ∃ cp' size' length',
        sizeLoop isPoint ctx' n (size + njsUtf8Size n) (length + 1) args =
          some (cp', size', length') ∧
        (if cp' = njsUnicodeContinue then
          (size' + njsUtf8Size njsUnicodeReplacement.toNat, length' + 1) else (size', length')) =
        (size + (bytesOf (n :: outputs ctx' codes)).length,
          length + (n :: outputs ctx' codes).length) := by
      intro n hn
      have hne : n ≠ njsUnicodeContinue := by
        rintro rfl
        exact hn (by decide)
      obtain ⟨cp', size', length', heq, htotal⟩ :=
        ih ctx' n (size + njsUtf8Size n) (length + 1) hrest fun _ => hne
      refine ⟨cp', size', length', heq, htotal.trans ?_⟩
      have hbytes : bytesOf (n :: outputs ctx' codes) =
          njsUtf8Encode (UInt32.ofNat n) ++ bytesOf (outputs ctx' codes) := rfl
      rw [hbytes, List.length_append, length_njsUtf8Encode hn, List.length_cons]
      refine Prod.ext ?_ ?_ <;> dsimp only <;> omega
    by_cases hmax : njsUnicodeMaxCodepoint < cp₁
    · rw [if_pos hmax, if_pos hmax]
      by_cases hcontinue : cp₁ = njsUnicodeContinue
      · subst hcontinue
        rw [if_pos rfl]
        by_cases hlast : codes = []
        · subst hlast
          rw [List.map_eq_nil_iff.1 hrest]
          exact ⟨_, size, length, rfl, rfl⟩
        · rw [if_pos ⟨rfl, hlast⟩]
          exact ih ctx' _ size length hrest fun h => absurd h hlast
      · rw [if_neg hcontinue, if_neg fun h => hcontinue h.1]
        exact hone (n := Utf8.replacement) (by decide)
    · rw [if_neg hmax, if_neg hmax]
      exact hone hmax

theorem njsStringFromCharCode_eq {isPoint : Bool}
    (hcodes : args.map (codeOf isPoint) = codes.map some) :
    njsStringFromCharCode isPoint args =
      some ⟨(bytesOf (outputs (njsUtf16DecodeInit njsUtf8DecodeInit) codes)).length,
        (outputs (njsUtf16DecodeInit njsUtf8DecodeInit) codes).length,
        bytesOf (outputs (njsUtf16DecodeInit njsUtf8DecodeInit) codes)⟩ := by
  obtain ⟨cp, size, length, hsize, htotal⟩ := sizeLoop_eq isPoint
    (njsUtf16DecodeInit njsUtf8DecodeInit) 0 0 0 hcodes fun _ => by decide
  rw [njsStringFromCharCode]
  dsimp only
  rw [hsize, writeLoop_eq isPoint _ hcodes]
  dsimp only
  rw [Nat.zero_add, Nat.zero_add] at htotal
  split_ifs at htotal ⊢ <;> rw [(Prod.mk.inj htotal).1, (Prod.mk.inj htotal).2]

theorem bytesOf_eq_encode {ns : List ℕ} (h : ∀ n ∈ ns, n.isValidChar) : bytesOf ns = encode ns := by
  induction ns with
  | nil => rfl
  | cons n ns ih =>
    obtain ⟨hn, hns⟩ := List.forall_mem_cons.1 h
    have hcons : bytesOf (n :: ns) = njsUtf8Encode (UInt32.ofNat n) ++ bytesOf ns := rfl
    rw [hcons, njsUtf8Encode_ofNat hn, ih hns]
    rfl

def codesOf (isPoint : Bool) (args : List ℤ) : List ℕ :=
  args.map fun num => if isPoint then num.toNat else (num % 0x10000).toNat

theorem codesOf_spec {isPoint : Bool}
    (hrange : isPoint = true → ∀ num ∈ args, 0 ≤ num ∧ num ≤ 0x10ffff) :
    args.map (codeOf isPoint) = (codesOf isPoint args).map some ∧
      ∀ code ∈ codesOf isPoint args, code ≤ 0x10ffff := by
  rw [codesOf, List.map_map]
  cases isPoint with
  | false =>
    refine ⟨rfl, ?_⟩
    rintro code hcode
    obtain ⟨num, -, rfl⟩ := List.mem_map.1 hcode
    show (num % 0x10000).toNat ≤ _
    omega
  | true =>
    have hrange := hrange rfl
    refine ⟨List.map_congr_left fun num hnum => ?_, ?_⟩
    · obtain ⟨hlow, hhigh⟩ := hrange num hnum
      exact if_neg (not_or.2 ⟨not_lt.2 hlow, not_lt.2 hhigh⟩)
    · rintro code hcode
      obtain ⟨num, hnum, rfl⟩ := List.mem_map.1 hcode
      have hnum := hrange num hnum
      show num.toNat ≤ _
      omega

theorem isValidChar_points (hhigh : ∀ code ∈ codes, code ≤ 0x10ffff) :
    ∀ n ∈ points codes, n.isValidChar := by
  have hsingle : ∀ code ≤ 0x10ffff, (single code).isValidChar := by
    intro code hcode
    rw [single]
    split_ifs with h
    · exact Utf8.isValidChar_replacement
    · exact isValidChar_single h (Nat.lt_succ_of_le hcode)
  induction codes using points.induct with
  | case1 => exact fun _ hn => nomatch hn
  | case2 code => exact List.forall_mem_singleton.2 (hsingle code (hhigh code List.mem_cons_self))
  | case3 code code' codes hpair ih =>
    rw [points_pair hpair.1 hpair.2]
    exact List.forall_mem_cons.2 ⟨(isValidChar_pairValue hpair.1 hpair.2).1,
      ih fun n hn => hhigh n (List.mem_cons_of_mem _ (List.mem_cons_of_mem _ hn))⟩
  | case4 code code' codes hpair ih =>
    rw [points, if_neg hpair]
    exact List.forall_mem_cons.2 ⟨hsingle code (hhigh code List.mem_cons_self),
      ih fun n hn => hhigh n (List.mem_cons_of_mem _ hn)⟩

/-- The string is the one that is expected, with its size and its length, if and only if no leading
surrogate is followed by a code that is no trailing one. -/
theorem fromCharCode_iff {isPoint : Bool} {args : List ℤ}
    (hrange : isPoint = true → ∀ num ∈ args, 0 ≤ num ∧ num ≤ 0x10ffff) :
    njsStringFromCharCode isPoint args = some ⟨(encode (points (codesOf isPoint args))).length,
        (points (codesOf isPoint args)).length, encode (points (codesOf isPoint args))⟩ ↔
    NoBrokenPair (codesOf isPoint args) := by
  obtain ⟨hcodes, hhigh⟩ := codesOf_spec hrange
  generalize codesOf isPoint args = codes at hcodes hhigh
  have hfresh : Fresh (njsUtf16DecodeInit njsUtf8DecodeInit) := ⟨rfl, rfl⟩
  have hvalid := (outputs_bounded (.inl rfl : Saved (njsUtf16DecodeInit njsUtf8DecodeInit)) codes).1
  rw [njsStringFromCharCode_eq hcodes, bytesOf_eq_encode hvalid]
  constructor
  · intro h
    by_contra hbroken
    have hbytes : encode (outputs (njsUtf16DecodeInit njsUtf8DecodeInit) codes) =
        encode (points codes) := congrArg Decoded.bytes (Option.some.inj h)
    have hpoints := Utf8.decodes_encode (isValidChar_points hhigh)
    rw [← hbytes] at hpoints
    have hcodes := (Utf8.decodes_encode hvalid).unique hpoints
    have hlt := totalWeight_outputs_lt hfresh hhigh hbroken
    rw [hcodes, totalWeight_points] at hlt
    exact absurd hlt (lt_irrefl _)
  · intro h
    rw [outputs_eq_points hfresh hhigh h]

theorem fromCharCode_letters :
    njsStringFromCharCode true [0x41, 0xd83d, 0xde00, 0x1f600, 0xdc00, 0xd800] =
      some ⟨(encode (points (codesOf true [0x41, 0xd83d, 0xde00, 0x1f600, 0xdc00, 0xd800]))).length,
        (points (codesOf true [0x41, 0xd83d, 0xde00, 0x1f600, 0xdc00, 0xd800])).length,
        encode (points (codesOf true [0x41, 0xd83d, 0xde00, 0x1f600, 0xdc00, 0xd800]))⟩ :=
  (fromCharCode_iff (by decide)).2 (by
    rw [NoBrokenPair]
    decide)

/-- A leading surrogate before two letters. -/
theorem not_fromCharCode_broken : ¬njsStringFromCharCode false [0xd800, 0x41, 0x42] =
      some ⟨(encode (points (codesOf false [0xd800, 0x41, 0x42]))).length,
        (points (codesOf false [0xd800, 0x41, 0x42])).length,
        encode (points (codesOf false [0xd800, 0x41, 0x42]))⟩ := by
  intro h
  have hlength := congrArg (Option.map Decoded.length) h
  exact absurd hlength (by decide)

end Njs.Decoding
