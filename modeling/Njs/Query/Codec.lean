import Njs.Indices.Characters
import Njs.Json.CodeUnits

/-!
# Escaping in query strings

Both engines escape bytes by a table of bits. A decoder of UTF-8 that takes one byte after the other
reads escaped bytes and others in turns.
-/

namespace Njs.Query

open Indices Text
open Utf8 (toNat_shifted toNat_continuation toNat_two toNat_three toNat_four)
open SharedDict (njsUtf8Encode njsUnicodeReplacement)

/-! ### Escaping -/

/-- The table of `njs_query_string_encode`. -/
def escape : List UInt32 :=
  [0xffffffff, 0xfc00987d, 0x78000001, 0xb8000001, 0xffffffff, 0xffffffff, 0xffffffff, 0xffffffff]

def njsNeedEscape (byte : UInt8) : Bool :=
  (escape.getD (byte.toNat >>> 5) 0) &&& ((1 : UInt32) <<< (byte.toUInt32 &&& 0x1f)) ≠ 0

/-- A digit of `hex`. -/
def hexDigit (n : ℕ) : UInt8 := (lit "0123456789ABCDEF").getD n 0

/-- A byte after `njs_string_encode`. -/
def encodeByte (byte : UInt8) : Bytes :=
  if njsNeedEscape byte then
    [chr '%', hexDigit (byte.toNat >>> 4), hexDigit (byte.toNat &&& 0xf)]
  else [byte]

def njsQueryStringEncode (str : Bytes) : Bytes := str.flatMap encodeByte

/-! ### The decoder of UTF-8 -/

/-- `NJS_UNICODE_MAX_CODEPOINT`. -/
def njsUnicodeMaxCodepoint : ℕ := 0x10ffff

/-- `NJS_UNICODE_ERROR`. -/
def njsUnicodeError : ℕ := 0x1fffff

/-- `NJS_UNICODE_CONTINUE`. -/
def njsUnicodeContinue : ℕ := 0x2fffff

/-- `njs_unicode_decode_t`. -/
structure UnicodeDecode where
  codepoint : ℕ
  need : ℕ
  lower : UInt8
  upper : UInt8
  deriving DecidableEq

def njsUtf8DecodeInit : UnicodeDecode := ⟨0, 0, 0, 0⟩

def addBits (codepoint : ℕ) (ch : UInt8) : ℕ := (codepoint <<< 6) ||| (ch &&& 0x3f).toNat

/-- The result of a decoder: a code point or an error, its state and the bytes that are left. -/
abbrev Step : Type := ℕ × UnicodeDecode × Bytes

def failed (ctx : UnicodeDecode) (start : Bytes) : Step :=
  (njsUnicodeError, { ctx with lower := 0, need := 0 }, start)

/-- `decode`: the continuation bytes that are needed. -/
def decodeRest (ctx : UnicodeDecode) (need : ℕ) : Bytes → Step
  | [] => (njsUnicodeContinue, { ctx with need }, [])
  | c :: p =>
    if c < 0x80 ∨ 0xbf < c then failed ctx (c :: p)
    else
      let ctx := { ctx with codepoint := addBits ctx.codepoint c }
      if need = 1 then (ctx.codepoint, ctx, p) else decodeRest ctx (need - 1) p

/-- `njs_utf8_boundary`, and what follows. -/
def decodeBoundary (ctx : UnicodeDecode) (need : ℕ) (lower upper : UInt8) (start : Bytes) : Step :=
  match start with
  | [] => failed ctx []
  | ch :: p =>
    if ch < lower ∨ upper < ch then failed ctx (ch :: p)
    else
      decodeRest { ctx with codepoint := addBits ctx.codepoint ch, lower := 0 } (need - 1) p

def njsUtf8BoundarySet (ctx : UnicodeDecode) (ch first second lower upper : UInt8) :
    UnicodeDecode :=
  if ch = first then { ctx with lower, upper := 0xbf }
  else if ch = second then { ctx with lower := 0x80, upper }
  else ctx

def decodeLong (ctx : UnicodeDecode) (need : ℕ) (c first second lower upper : UInt8)
    (start : Bytes) : Step :=
  if start = [] then
    let ctx := njsUtf8BoundarySet ctx c first second lower upper
    (njsUnicodeContinue, { ctx with need }, [])
  else if c = first then decodeBoundary ctx need lower 0xbf start
  else if c = second then decodeBoundary ctx need 0x80 upper start
  else decodeRest ctx need start

def njsUtf8Decode (ctx : UnicodeDecode) (start : Bytes) : Step :=
  if ctx.need ≠ 0 then
    let need := ctx.need
    let ctx := { ctx with need := 0 }
    if ctx.lower ≠ 0 then decodeBoundary ctx need ctx.lower ctx.upper start
    else decodeRest ctx need start
  else
    match start with
    | [] => failed ctx []
    | c :: start =>
      if c < 0x80 then (c.toNat, ctx, start)
      else if c ≤ 0xdf then
        if c < 0xc2 then (njsUnicodeError, ctx, start)
        else decodeRest { ctx with codepoint := (c &&& 0x1f).toNat } 1 start
      else if c < 0xf0 then
        decodeLong { ctx with codepoint := (c &&& 0x0f).toNat } 2 c 0xe0 0xed 0xa0 0x9f start
      else if c < 0xf5 then
        decodeLong { ctx with codepoint := (c &&& 0x07).toNat } 3 c 0xf0 0xf4 0x90 0x8f start
      else (njsUnicodeError, ctx, start)

def njsUtf8Consume (ctx : UnicodeDecode) (byte : UInt8) : ℕ × UnicodeDecode :=
  let (cp, ctx, _) := njsUtf8Decode ctx [byte]
  (cp, ctx)

/-! ### Decoding -/

/-- The value of a hexadecimal digit, or none for a -1 of the table `hex`. -/
def hex (c : UInt8) : Option ℕ :=
  if chr '0' ≤ c ∧ c ≤ chr '9' then some (c.toNat - 0x30)
  else if chr 'A' ≤ c ∧ c ≤ chr 'F' then some (c.toNat - 0x41 + 10)
  else if chr 'a' ≤ c ∧ c ≤ chr 'f' then some (c.toNat - 0x61 + 10)
  else none

/-- The byte of an escape sequence at the beginning. -/
def escaped : Bytes → Option (UInt8 × Bytes)
  | c :: p₁ :: p₂ :: p =>
    if c = chr '%' then
      match hex p₁, hex p₂ with
      | some a, some b => some (UInt8.ofNat ((a <<< 4) ||| b), p)
      | _, _ => none
    else none
  | _ => none

/-- The next code point of a string. -/
def nextCodepoint (ctx : UnicodeDecode) (p : Bytes) : Step :=
  match escaped p with
  | some (byte, rest) =>
    let (cp, ctx) := njsUtf8Consume ctx byte
    (cp, ctx, rest)
  | none =>
    match p with
    | c :: rest => if c = chr '+' then (' '.toNat, ctx, rest) else njsUtf8Decode ctx p
    | [] => njsUtf8Decode ctx []

/-- The loop of `njs_query_string_decode`. A pass takes a byte, or the next one does. -/
def decodeLoop : ℕ → UnicodeDecode → ℕ → Bytes → Bytes
  | 0, _, _, _ => []
  | passes + 1, ctx, cp, p =>
    if p = [] then
      if cp = njsUnicodeContinue then njsUtf8Encode njsUnicodeReplacement else []
    else
      let (cp, ctx, p) := nextCodepoint ctx p
      if njsUnicodeMaxCodepoint < cp then
        if cp = njsUnicodeContinue then decodeLoop passes ctx cp p
        else njsUtf8Encode njsUnicodeReplacement ++ decodeLoop passes ctx cp p
      else njsUtf8Encode (UInt32.ofNat cp) ++ decodeLoop passes ctx cp p

def njsQueryStringDecode (str : Bytes) : Bytes :=
  decodeLoop (2 * str.length + 1) njsUtf8DecodeInit 0 str

/-! ### Decoding undoes escaping -/

theorem addBits_eq (codepoint : ℕ) (ch : UInt8) :
    addBits codepoint ch = codepoint * 64 + ch.toNat % 64 := by
  have hch : (ch &&& 0x3f).toNat = ch.toNat % 64 := by
    rw [UInt8.toNat_and]
    exact Nat.and_two_pow_sub_one_eq_mod ch.toNat 6
  rw [addBits, hch, ← Nat.shiftLeft_add_eq_or_of_lt (by omega), Nat.shiftLeft_eq]

variable {b : UInt8}

theorem escaped_encodeByte (hb : njsNeedEscape b = true) (rest : Bytes) :
    escaped (encodeByte b ++ rest) = some (b, rest) := by
  have hdigits : ∀ b : UInt8, hex (hexDigit (b.toNat >>> 4)) = some (b.toNat >>> 4) ∧
      hex (hexDigit (b.toNat &&& 0xf)) = some (b.toNat &&& 0xf) ∧
      UInt8.ofNat (((b.toNat >>> 4) <<< 4) ||| (b.toNat &&& 0xf)) = b :=
    forall_byte (by decide)
  obtain ⟨hhigh, hlow, hbyte⟩ := hdigits b
  rw [encodeByte, if_pos hb]
  simp only [List.cons_append, List.nil_append, escaped, hhigh, hlow, hbyte]
  rfl

theorem plain_byte (hb : njsNeedEscape b = false) : b < 0x80 ∧ b ≠ chr '%' ∧ b ≠ chr '+' := by
  have h : ∀ b : UInt8, njsNeedEscape b = false → b < 0x80 ∧ b ≠ chr '%' ∧ b ≠ chr '+' :=
    forall_byte (by decide)
  exact h b hb

/-- The decoder is between two characters. -/
def Idle (ctx : UnicodeDecode) : Prop := ctx.need = 0 ∧ ctx.lower = 0

theorem njsUtf8Decode_ascii {ctx : UnicodeDecode} (hctx : ctx.need = 0) (hb : b < 0x80)
    (rest : Bytes) : njsUtf8Decode ctx (b :: rest) = (b.toNat, ctx, rest) := by
  rw [njsUtf8Decode, if_neg (by simp [hctx])]
  exact if_pos hb

theorem nextCodepoint_escaped (ctx : UnicodeDecode) (hb : njsNeedEscape b = true) (rest : Bytes) :
    nextCodepoint ctx (encodeByte b ++ rest) =
      ((njsUtf8Consume ctx b).1, (njsUtf8Consume ctx b).2, rest) := by
  rw [nextCodepoint.eq_def, escaped_encodeByte hb]

theorem nextCodepoint_ascii {ctx : UnicodeDecode} (hctx : Idle ctx) (hb : b < 0x80) (rest : Bytes) :
    nextCodepoint ctx (encodeByte b ++ rest) = (b.toNat, ctx, rest) := by
  by_cases hneed : njsNeedEscape b = true
  · rw [nextCodepoint_escaped ctx hneed, njsUtf8Consume, njsUtf8Decode_ascii hctx.1 hb]
  obtain ⟨-, hpercent, hplus⟩ := plain_byte (Bool.eq_false_iff.2 hneed)
  have hescaped : escaped (b :: rest) = none := by
    match rest with
    | [] => rfl
    | [_] => rfl
    | _ :: _ :: _ => exact if_neg hpercent
  rw [encodeByte, if_neg hneed, List.singleton_append, nextCodepoint.eq_def, hescaped]
  dsimp only
  rw [if_neg hplus, njsUtf8Decode_ascii hctx.1 hb]

/-- The next byte is one that the decoder needs. -/
structure Accepts (ctx : UnicodeDecode) (b : UInt8) : Prop where
  low : 0x80 ≤ b.toNat
  high : b.toNat ≤ 0xbf
  lower : ctx.lower ≠ 0 → ctx.lower.toNat ≤ b.toNat ∧ b.toNat ≤ ctx.upper.toNat

theorem Accepts.inside {ctx : UnicodeDecode} (h : Accepts ctx b) : ¬(b < 0x80 ∨ 0xbf < b) := by
  have hlow := h.low
  have hhigh := h.high
  rw [UInt8.lt_iff_toNat_lt, UInt8.lt_iff_toNat_lt]
  have h80 : (0x80 : UInt8).toNat = 0x80 := rfl
  have hbf : (0xbf : UInt8).toNat = 0xbf := rfl
  omega

theorem njsUtf8Consume_next {ctx : UnicodeDecode} (hneed : 2 ≤ ctx.need) (h : Accepts ctx b) :
    njsUtf8Consume ctx b = (njsUnicodeContinue,
      { ctx with codepoint := addBits ctx.codepoint b, need := ctx.need - 1, lower := 0 }) := by
  rw [njsUtf8Consume, njsUtf8Decode, if_pos (by omega)]
  by_cases hlower : ctx.lower = 0
  · simp only [hlower, ne_eq, not_true_eq_false, if_false, decodeRest]
    rw [if_neg h.inside, if_neg (by omega)]
  · have hbounds := h.lower hlower
    simp only [ne_eq, hlower, not_false_eq_true, if_true, decodeBoundary]
    rw [if_neg (by rw [UInt8.lt_iff_toNat_lt, UInt8.lt_iff_toNat_lt]; omega)]
    rfl

theorem njsUtf8Consume_last {ctx : UnicodeDecode} (hneed : ctx.need = 1) (hlower : ctx.lower = 0)
    (h : Accepts ctx b) :
    njsUtf8Consume ctx b = (addBits ctx.codepoint b,
      { ctx with codepoint := addBits ctx.codepoint b, need := 0 }) := by
  rw [njsUtf8Consume, njsUtf8Decode, if_pos (by omega)]
  simp only [hlower, ne_eq, not_true_eq_false, if_false, decodeRest, hneed]
  rw [if_neg h.inside]
  rfl

theorem njsUtf8Consume_two {ctx : UnicodeDecode} (hctx : Idle ctx) (hlow : 0xc2 ≤ b.toNat)
    (hhigh : b.toNat ≤ 0xdf) :
    njsUtf8Consume ctx b =
      (njsUnicodeContinue, { ctx with codepoint := (b &&& 0x1f).toNat, need := 1 }) := by
  have h80 : ¬b < 0x80 := fun h => by have : b.toNat < 0x80 := h; omega
  have hdf : b ≤ 0xdf := hhigh
  have hc2 : ¬b < 0xc2 := fun h => by have : b.toNat < 0xc2 := h; omega
  rw [njsUtf8Consume, njsUtf8Decode, if_neg (by simp [hctx.1])]
  simp only [h80, hdf, hc2, if_true, if_false, decodeRest]

theorem njsUtf8Consume_three {ctx : UnicodeDecode} (hctx : Idle ctx) (hlow : 0xe0 ≤ b.toNat)
    (hhigh : b.toNat < 0xf0) :
    njsUtf8Consume ctx b = (njsUnicodeContinue, { njsUtf8BoundarySet
      { ctx with codepoint := (b &&& 0x0f).toNat } b 0xe0 0xed 0xa0 0x9f with need := 2 }) := by
  have h80 : ¬b < 0x80 := fun h => by have : b.toNat < 0x80 := h; omega
  have hdf : ¬b ≤ 0xdf := fun h => by have : b.toNat ≤ 0xdf := h; omega
  have hf0 : b < 0xf0 := hhigh
  rw [njsUtf8Consume, njsUtf8Decode, if_neg (by simp [hctx.1])]
  simp only [h80, hdf, hf0, if_true, if_false, decodeLong]

theorem njsUtf8Consume_four {ctx : UnicodeDecode} (hctx : Idle ctx) (hlow : 0xf0 ≤ b.toNat)
    (hhigh : b.toNat < 0xf5) :
    njsUtf8Consume ctx b = (njsUnicodeContinue, { njsUtf8BoundarySet
      { ctx with codepoint := (b &&& 0x07).toNat } b 0xf0 0xf4 0x90 0x8f with need := 3 }) := by
  have h80 : ¬b < 0x80 := fun h => by have : b.toNat < 0x80 := h; omega
  have hdf : ¬b ≤ 0xdf := fun h => by have : b.toNat ≤ 0xdf := h; omega
  have hf0 : ¬b < 0xf0 := fun h => by have : b.toNat < 0xf0 := h; omega
  have hf5 : b < 0xf5 := hhigh
  rw [njsUtf8Consume, njsUtf8Decode, if_neg (by simp [hctx.1])]
  simp only [h80, hdf, hf0, hf5, if_true, if_false, decodeLong]

/-- The bytes of a character, one after the other. -/
def Reads (ctx : UnicodeDecode) : Bytes → ℕ → UnicodeDecode → Prop
  | [], _, _ => False
  | [b], cp, ctx' => njsUtf8Consume ctx b = (cp, ctx')
  | b :: l, cp, ctx' =>
    ∃ ctx₁, njsUtf8Consume ctx b = (njsUnicodeContinue, ctx₁) ∧ Reads ctx₁ l cp ctx'

theorem Reads.cons {ctx ctx₁ ctx' : UnicodeDecode} {b : UInt8} {l : Bytes} {cp : ℕ}
    (hb : njsUtf8Consume ctx b = (njsUnicodeContinue, ctx₁)) (h : Reads ctx₁ l cp ctx') :
    Reads ctx (b :: l) cp ctx' := by
  match l with
  | [] => exact h.elim
  | _ :: _ => exact ⟨ctx₁, hb, h⟩

theorem accepts_boundary {ctx : UnicodeDecode} (hctx : Idle ctx) {ch first second : UInt8}
    {lower upper : UInt8} {codepoint need : ℕ} (hlow : 0x80 ≤ b.toNat) (hhigh : b.toNat ≤ 0xbf)
    (hfirst : ch = first → lower.toNat ≤ b.toNat) (hsecond : ch = second → b.toNat ≤ upper.toNat) :
    Accepts { njsUtf8BoundarySet { ctx with codepoint } ch first second lower upper with need } b :=
  by
  refine ⟨hlow, hhigh, ?_⟩
  rw [njsUtf8BoundarySet]
  split_ifs with h₁ h₂
  · exact fun _ => ⟨hfirst h₁, hhigh⟩
  · exact fun _ => ⟨hlow, hsecond h₂⟩
  · exact fun h => absurd hctx.2 h

theorem codepoint_boundarySet (ctx : UnicodeDecode) (ch first second lower upper : UInt8) :
    (njsUtf8BoundarySet ctx ch first second lower upper).codepoint = ctx.codepoint := by
  rw [njsUtf8BoundarySet]
  split_ifs <;> rfl

/-- The bytes of a character, with nothing left over. -/
def Complete (ctx : UnicodeDecode) (l : Bytes) (cp : ℕ) : Prop :=
  ∃ ctx', Idle ctx' ∧ Reads ctx l cp ctx'

theorem Complete.cons {ctx ctx₁ : UnicodeDecode} {b : UInt8} {l : Bytes} {cp : ℕ}
    (h : Complete ctx₁ l cp) (hb : njsUtf8Consume ctx b = (njsUnicodeContinue, ctx₁)) :
    Complete ctx (b :: l) cp := by
  obtain ⟨ctx', hidle, hreads⟩ := h
  exact ⟨ctx', hidle, hreads.cons hb⟩

theorem Complete.last {ctx : UnicodeDecode} {cp : ℕ} (hneed : ctx.need = 1)
    (hlower : ctx.lower = 0) (h : Accepts ctx b) (hcp : addBits ctx.codepoint b = cp) :
    Complete ctx [b] cp := by
  refine ⟨{ ctx with codepoint := addBits ctx.codepoint b, need := 0 }, ⟨rfl, hlower⟩, ?_⟩
  rw [← hcp]
  exact njsUtf8Consume_last hneed hlower h

theorem accepts_plain {ctx : UnicodeDecode} (hlower : ctx.lower = 0) (hlow : 0x80 ≤ b.toNat)
    (hhigh : b.toNat ≤ 0xbf) : Accepts ctx b :=
  ⟨hlow, hhigh, fun h => absurd hlower h⟩

variable {ctx : UnicodeDecode} {n : ℕ} {b₃ b₂ b₁ b₀ : UInt8}

theorem complete_two (hctx : Idle ctx) (hlow : 0x80 ≤ n) (hhigh : n < 0x800)
    (hb₁ : b₁.toNat = 0xc0 + n / 64) (hbits : (b₁ &&& 0x1f).toNat = n / 64)
    (hb₀ : b₀.toNat = 0x80 + n % 64) : Complete ctx [b₁, b₀] n := by
  refine Complete.cons ?_ (njsUtf8Consume_two hctx (by omega) (by omega))
  refine Complete.last rfl hctx.2 (accepts_plain hctx.2 (by omega) (by omega)) ?_
  dsimp only
  rw [addBits_eq, hbits]
  omega

theorem complete_three (hctx : Idle ctx) (hlow : 0x800 ≤ n) (hhigh : n < 0x10000)
    (hsurrogate : n < 0xd800 ∨ 0xdfff < n) (hb₂ : b₂.toNat = 0xe0 + n / 4096)
    (hbits : (b₂ &&& 0x0f).toNat = n / 4096) (hb₁ : b₁.toNat = 0x80 + n / 64 % 64)
    (hb₀ : b₀.toNat = 0x80 + n % 64) : Complete ctx [b₂, b₁, b₀] n := by
  have ha0 : (0xa0 : UInt8).toNat = 0xa0 := rfl
  have h9f : (0x9f : UInt8).toNat = 0x9f := rfl
  refine Complete.cons ?_ (njsUtf8Consume_three hctx (by omega) (by omega))
  have hfirst : b₂ = 0xe0 → (0xa0 : UInt8).toNat ≤ b₁.toNat := by
    intro h
    have : b₂.toNat = 0xe0 := by rw [h]; rfl
    omega
  have hsecond : b₂ = 0xed → b₁.toNat ≤ (0x9f : UInt8).toNat := by
    intro h
    have : b₂.toNat = 0xed := by rw [h]; rfl
    omega
  refine Complete.cons ?_ (njsUtf8Consume_next (Nat.le_refl 2)
    (accepts_boundary hctx (by omega) (by omega) hfirst hsecond))
  refine Complete.last rfl rfl (accepts_plain rfl (by omega) (by omega)) ?_
  show addBits (addBits (njsUtf8BoundarySet _ _ _ _ _ _).codepoint b₁) b₀ = n
  rw [codepoint_boundarySet, addBits_eq, addBits_eq, hbits]
  dsimp only
  omega

theorem complete_four (hctx : Idle ctx) (hlow : 0x10000 ≤ n) (hhigh : n < 0x110000)
    (hb₃ : b₃.toNat = 0xf0 + n / 262144) (hbits : (b₃ &&& 0x07).toNat = n / 262144)
    (hb₂ : b₂.toNat = 0x80 + n / 4096 % 64) (hb₁ : b₁.toNat = 0x80 + n / 64 % 64)
    (hb₀ : b₀.toNat = 0x80 + n % 64) : Complete ctx [b₃, b₂, b₁, b₀] n := by
  have h90 : (0x90 : UInt8).toNat = 0x90 := rfl
  have h8f : (0x8f : UInt8).toNat = 0x8f := rfl
  refine Complete.cons ?_ (njsUtf8Consume_four hctx (by omega) (by omega))
  have hfirst : b₃ = 0xf0 → (0x90 : UInt8).toNat ≤ b₂.toNat := by
    intro h
    have : b₃.toNat = 0xf0 := by rw [h]; rfl
    omega
  have hsecond : b₃ = 0xf4 → b₂.toNat ≤ (0x8f : UInt8).toNat := by
    intro h
    have : b₃.toNat = 0xf4 := by rw [h]; rfl
    omega
  refine Complete.cons ?_ (njsUtf8Consume_next (show 2 ≤ 3 by decide)
    (accepts_boundary hctx (by omega) (by omega) hfirst hsecond))
  refine Complete.cons ?_ (njsUtf8Consume_next (Nat.le_refl 2)
    (accepts_plain rfl (by omega) (by omega)))
  refine Complete.last rfl rfl (accepts_plain rfl (by omega) (by omega)) ?_
  show addBits (addBits (addBits (njsUtf8BoundarySet _ _ _ _ _ _).codepoint b₂) b₁) b₀ = n
  rw [codepoint_boundarySet, addBits_eq, addBits_eq, addBits_eq, hbits]
  dsimp only
  omega

theorem complete_char (hctx : Idle ctx) (c : Char) :
    Complete ctx (String.utf8EncodeChar c) c.val.toNat := by
  have h0 : c.val.toUInt8.toNat = c.val.toNat % 256 := UInt32.toNat_toUInt8 _
  have h6 := toNat_shifted c.val (show (6 : UInt32).toNat = 6 from rfl) (by omega)
  have h12 := toNat_shifted c.val (show (12 : UInt32).toNat = 12 from rfl) (by omega)
  have h18 := toNat_shifted c.val (show (18 : UInt32).toNat = 18 from rfl) (by omega)
  have hlast : ((c.val.toUInt8 &&& 0x3f) ||| 0x80).toNat = 0x80 + c.val.toNat % 64 := by
    rw [toNat_continuation, h0]
    omega
  have hmiddle : (((c.val >>> 6).toUInt8 &&& 0x3f) ||| 0x80).toNat =
      0x80 + c.val.toNat / 64 % 64 := by
    rw [toNat_continuation, h6]
    omega
  have hmax : c.val.toNat < 0xd800 ∨ 0xdfff < c.val.toNat ∧ c.val.toNat < 0x110000 := c.valid
  obtain h | h | h | h := c.utf8Size_eq
  · have hle : c.val.toNat ≤ 0x7f := UInt32.le_iff_toNat_le.mp (Char.utf8Size_eq_one_iff.mp h)
    have hb : c.val.toUInt8 < 0x80 := by
      rw [UInt8.lt_iff_toNat_lt, h0]
      exact Nat.lt_of_le_of_lt (Nat.mod_le _ _) (Nat.lt_succ_of_le hle)
    rw [String.utf8EncodeChar_eq_singleton h]
    refine ⟨ctx, hctx, ?_⟩
    rw [Reads, njsUtf8Consume, njsUtf8Decode_ascii hctx.1 hb, h0, Nat.mod_eq_of_lt (by omega)]
  · obtain ⟨hgt, hle⟩ := Char.utf8Size_eq_two_iff.mp h
    have hgt : 0x7f < c.val.toNat := hgt
    have hle : c.val.toNat ≤ 0x7ff := hle
    have hmod : c.val.toNat / 2 ^ 6 % 256 % 32 = c.val.toNat / 64 := by omega
    obtain ⟨hvalue, hbits⟩ := toNat_two (c.val >>> 6).toUInt8
    rw [h6, hmod] at hvalue hbits
    rw [String.utf8EncodeChar_eq_cons_cons h]
    exact complete_two hctx hgt (by omega) hvalue hbits hlast
  · obtain ⟨hgt, hle⟩ := Char.utf8Size_eq_three_iff.mp h
    have hgt : 0x7ff < c.val.toNat := hgt
    have hle : c.val.toNat ≤ 0xffff := hle
    have hmod : c.val.toNat / 2 ^ 12 % 256 % 16 = c.val.toNat / 4096 := by omega
    obtain ⟨hvalue, hbits⟩ := toNat_three (c.val >>> 12).toUInt8
    rw [h12, hmod] at hvalue hbits
    rw [String.utf8EncodeChar_eq_cons_cons_cons h]
    exact complete_three hctx hgt (by omega) (by omega) hvalue hbits hmiddle hlast
  · have hgt : 0xffff < c.val.toNat := Char.utf8Size_eq_four_iff.mp h
    have hmod : c.val.toNat / 2 ^ 18 % 256 % 8 = c.val.toNat / 262144 := by omega
    obtain ⟨hvalue, hbits⟩ := toNat_four (c.val >>> 18).toUInt8
    rw [h18, hmod] at hvalue hbits
    have hsecond : (((c.val >>> 12).toUInt8 &&& 0x3f) ||| 0x80).toNat =
        0x80 + c.val.toNat / 4096 % 64 := by
      rw [toNat_continuation, h12]
      omega
    rw [String.utf8EncodeChar_eq_cons_cons_cons_cons h]
    exact complete_four hctx hgt (by omega) hvalue hbits hsecond hmiddle hlast

/-! ### The loop -/

theorem encodeByte_ne_nil (b : UInt8) (rest : Bytes) : encodeByte b ++ rest ≠ [] := by
  rw [encodeByte]
  split_ifs <;> exact nofun

variable {ctx' : UnicodeDecode}

theorem decodeLoop_continue {passes : ℕ} {ctx : UnicodeDecode} {cp : ℕ} {rest : Bytes}
    (h : nextCodepoint ctx (encodeByte b ++ rest) = (njsUnicodeContinue, ctx', rest)) :
    decodeLoop (passes + 1) ctx cp (encodeByte b ++ rest) =
      decodeLoop passes ctx' njsUnicodeContinue rest := by
  rw [decodeLoop, if_neg (encodeByte_ne_nil b rest), h]
  dsimp only
  rw [if_pos (by decide), if_pos rfl]

theorem decodeLoop_char {passes : ℕ} {ctx : UnicodeDecode} {cp cp' : ℕ} {rest : Bytes}
    (h : nextCodepoint ctx (encodeByte b ++ rest) = (cp', ctx', rest))
    (hcp : cp' ≤ njsUnicodeMaxCodepoint) :
    decodeLoop (passes + 1) ctx cp (encodeByte b ++ rest) =
      njsUtf8Encode (UInt32.ofNat cp') ++ decodeLoop passes ctx' cp' rest := by
  rw [decodeLoop, if_neg (encodeByte_ne_nil b rest), h]
  dsimp only
  rw [if_neg (Nat.not_lt.2 hcp)]

theorem decodeLoop_reads {l : Bytes} {ctx : UnicodeDecode} {cp' : ℕ} (h : Reads ctx l cp' ctx')
    (hneed : ∀ b ∈ l, njsNeedEscape b = true) (hcp : cp' ≤ njsUnicodeMaxCodepoint) (passes cp : ℕ)
    (rest : Bytes) :
    decodeLoop (passes + l.length) ctx cp (njsQueryStringEncode l ++ rest) =
      njsUtf8Encode (UInt32.ofNat cp') ++ decodeLoop passes ctx' cp' rest := by
  induction l generalizing ctx cp with
  | nil => exact h.elim
  | cons b l ih =>
    have hb := hneed b List.mem_cons_self
    have hencode : njsQueryStringEncode (b :: l) ++ rest =
        encodeByte b ++ (njsQueryStringEncode l ++ rest) := by
      rw [njsQueryStringEncode, List.flatMap_cons, List.append_assoc]
      rfl
    rw [hencode, List.length_cons, ← Nat.add_assoc]
    cases l with
    | nil =>
      have h : njsUtf8Consume ctx b = (cp', ctx') := h
      refine decodeLoop_char ?_ hcp
      rw [nextCodepoint_escaped ctx hb, h]
    | cons b' l =>
      obtain ⟨ctx₁, hconsume, hreads⟩ := h
      have hnext : nextCodepoint ctx (encodeByte b ++ (njsQueryStringEncode (b' :: l) ++ rest)) =
          (njsUnicodeContinue, ctx₁, njsQueryStringEncode (b' :: l) ++ rest) := by
        rw [nextCodepoint_escaped ctx hb, hconsume]
      rw [decodeLoop_continue hnext]
      exact ih hreads (fun b'' h'' => hneed b'' (List.mem_cons_of_mem b h'')) _

theorem utf8EncodeChar_large {c : Char} (hsize : c.utf8Size ≠ 1) :
    ∀ b ∈ String.utf8EncodeChar c, 0x80 ≤ b.toNat := by
  have hfirst : ∀ b : UInt8, b &&& 0x80 ≠ 0 → 0x80 ≤ b.toNat := forall_byte (by decide)
  have hothers : ∀ b : UInt8, isContinuation b = true → 0x80 ≤ b.toNat :=
    forall_byte (by decide)
  obtain ⟨b, l, hchar, hencoded⟩ := utf8EncodeChar_encoded c
  have hlength := String.length_utf8EncodeChar c
  rw [hchar] at hlength ⊢
  intro b' hb'
  rcases List.mem_cons.1 hb' with rfl | hb'
  · refine hfirst b' fun hzero => hsize ?_
    rw [← hlength, hencoded.single hzero]
    rfl
  · exact hothers b' (hencoded.others b' hb')

theorem decodeLoop_utf8 {ctx : UnicodeDecode} (hctx : Idle ctx) (c : Char) (passes cp : ℕ)
    (rest : Bytes) : ∃ ctx', Idle ctx' ∧
      decodeLoop (passes + (String.utf8EncodeChar c).length) ctx cp
          (njsQueryStringEncode (String.utf8EncodeChar c) ++ rest) =
        String.utf8EncodeChar c ++ decodeLoop passes ctx' c.val.toNat rest := by
  have hmax : c.val.toNat ≤ njsUnicodeMaxCodepoint := by
    have hvalid : c.val.toNat < 0xd800 ∨ 0xdfff < c.val.toNat ∧ c.val.toNat < 0x110000 := c.valid
    rw [njsUnicodeMaxCodepoint]
    omega
  have hchar : njsUtf8Encode (UInt32.ofNat c.val.toNat) = String.utf8EncodeChar c := by
    rw [UInt32.ofNat_toNat, Json.njsUtf8Encode_char]
  obtain ⟨ctx', hidle, hreads⟩ := complete_char hctx c
  by_cases hsize : c.utf8Size = 1
  · have hle : c.val.toNat ≤ 0x7f := UInt32.le_iff_toNat_le.mp (Char.utf8Size_eq_one_iff.mp hsize)
    have hbyte : c.val.toUInt8.toNat = c.val.toNat := by
      rw [UInt32.toNat_toUInt8]
      omega
    have hb : c.val.toUInt8 < 0x80 := by
      rw [UInt8.lt_iff_toNat_lt, hbyte]
      exact Nat.lt_succ_of_le hle
    have hnext := nextCodepoint_ascii hctx hb rest
    rw [hbyte] at hnext
    refine ⟨ctx, hctx, ?_⟩
    have hone := String.utf8EncodeChar_eq_singleton hsize
    rw [← hchar]
    conv_lhs => rw [hchar, hone]
    rw [njsQueryStringEncode, List.flatMap_singleton]
    exact decodeLoop_char hnext hmax
  · refine ⟨ctx', hidle, ?_⟩
    have hneed : ∀ b ∈ String.utf8EncodeChar c, njsNeedEscape b = true := by
      intro b hb
      by_contra hplain
      have hlt : b.toNat < 0x80 := (plain_byte (Bool.eq_false_iff.2 hplain)).1
      have := utf8EncodeChar_large hsize b hb
      omega
    rw [decodeLoop_reads hreads hneed hmax passes cp rest, hchar]

theorem decode_encode (text : List Char) :
    njsQueryStringDecode (njsQueryStringEncode (bytes text)) = bytes text := by
  have hloop : ∀ (passes : ℕ) (ctx : UnicodeDecode) (cp : ℕ), Idle ctx → cp ≠ njsUnicodeContinue →
      decodeLoop (passes + 1 + (bytes text).length) ctx cp
        (njsQueryStringEncode (bytes text)) = bytes text := by
    induction text with
    | nil =>
      intro passes ctx cp _ hcp
      exact if_neg hcp
    | cons c text ih =>
      intro passes ctx cp hctx _
      have hcp : c.val.toNat ≠ njsUnicodeContinue := by
        have hvalid : c.val.toNat < 0xd800 ∨ 0xdfff < c.val.toNat ∧ c.val.toNat < 0x110000 :=
          c.valid
        rw [njsUnicodeContinue]
        omega
      obtain ⟨ctx', hidle, hstep⟩ := decodeLoop_utf8 hctx c (passes + 1 + (bytes text).length) cp
        (njsQueryStringEncode (bytes text))
      have hbytes : bytes (c :: text) = String.utf8EncodeChar c ++ bytes text := List.flatMap_cons
      have hlength : passes + 1 + (bytes (c :: text)).length =
          passes + 1 + (bytes text).length + (String.utf8EncodeChar c).length := by
        rw [hbytes, List.length_append]
        omega
      rw [hlength, hbytes, njsQueryStringEncode, List.flatMap_append]
      exact hstep.trans (congrArg _ (ih passes ctx' c.val.toNat hidle hcp))
  have hlonger : ∀ l : Bytes, l.length ≤ (njsQueryStringEncode l).length := by
    intro l
    induction l with
    | nil => exact Nat.le_refl 0
    | cons b l ih =>
      have hpos := List.length_pos_of_ne_nil (encodeByte_ne_nil b [])
      rw [List.append_nil] at hpos
      rw [njsQueryStringEncode, List.flatMap_cons, List.length_append, List.length_cons]
      rw [njsQueryStringEncode] at ih
      omega
  have hlength := hlonger (bytes text)
  have hpasses : 2 * (njsQueryStringEncode (bytes text)).length + 1 =
      2 * (njsQueryStringEncode (bytes text)).length - (bytes text).length + 1 +
        (bytes text).length := by omega
  rw [njsQueryStringDecode, hpasses]
  exact hloop _ njsUtf8DecodeInit 0 ⟨rfl, rfl⟩ (by decide)

end Njs.Query
