import Mathlib
import Njs.Query.Unescape

/-!
# URI coding

The encoders find the size of the result in a pass of their own. The decoders read the code points
of a string one by one, and the bytes of an escape sequence are decoded together once all of them
are there.
-/

namespace Njs.Strings

open Text
open Indices (bytes)
open Query (UnicodeDecode njsUtf8Decode njsUtf8DecodeInit njsUnicodeMaxCodepoint njsUnicodeError hex
  hexDigit hexValue Idle bytes_cons bytes_append)
open SharedDict (njsUtf8Encode njsSurrogateAny njsSurrogateLeading njsSurrogateTrailing
  njsSurrogatePair)
open Decoding (njsUtf8Size)

/-! ### The encoders -/

def escapeUri : List UInt32 :=
  [0xffffffff, 0x50000025, 0x78000000, 0xb8000001, 0xffffffff, 0xffffffff, 0xffffffff, 0xffffffff]

def escapeUriComponent : List UInt32 :=
  [0xffffffff, 0xfc00987d, 0x78000001, 0xb8000001, 0xffffffff, 0xffffffff, 0xffffffff, 0xffffffff]

def tableBit (table : List UInt32) (byte : ℕ) : Bool :=
  (table.getD (byte >>> 5) 0) &&& ((1 : UInt32) <<< (UInt32.ofNat byte &&& 0x1f)) ≠ 0

def njsNeedEscape (escape : List UInt32) (byte : ℕ) : Bool := tableBit escape byte

/-- A byte in `njs_string_encode`. -/
def encodeByte (escape : List UInt32) (byte : UInt8) : Bytes :=
  if njsNeedEscape escape byte.toNat then
    [chr '%', hexDigit (byte.toNat >>> 4), hexDigit (byte.toNat &&& 0xf)]
  else [byte]

def njsStringEncode (escape : List UInt32) (src : Bytes) : Bytes := src.flatMap (encodeByte escape)

def asciiSize (escape : List UInt32) (src : Bytes) : ℕ :=
  src.foldl (fun size byte => size + if njsNeedEscape escape byte.toNat then 3 else 1) 0

/-- The loop of `njs_string_encode_uri` that finds the size, where none is an error. -/
def uriSizeLoop (escape : List UInt32) : ℕ → UnicodeDecode → Bytes → Option ℕ
  | 0, _, _ => some 0
  | passes + 1, ctx, src =>
    if src = [] then some 0
    else
      let (cp, ctx, src) := njsUtf8Decode ctx src
      if cp < 0x80 ∧ ¬njsNeedEscape escape cp then
        (uriSizeLoop escape passes ctx src).map (1 + ·)
      else if njsSurrogateAny (.ofNat cp) then
        if src = [] then none
        else if njsSurrogateLeading (.ofNat cp) then
          let (low, ctx, src) := njsUtf8Decode ctx src
          if ¬njsSurrogateTrailing (.ofNat low) then none
          else
            let cp := njsSurrogatePair (.ofNat cp) (.ofNat low)
            (uriSizeLoop escape passes ctx src).map (njsUtf8Size cp.toNat * 3 + ·)
        else none
      else (uriSizeLoop escape passes ctx src).map (njsUtf8Size cp * 3 + ·)

/-- The loop of `njs_string_encode_uri` that writes the result. -/
def uriEncodeLoop (escape : List UInt32) : ℕ → UnicodeDecode → Bytes → Bytes
  | 0, _, _ => []
  | passes + 1, ctx, src =>
    if src = [] then []
    else
      let (cp, ctx, src) := njsUtf8Decode ctx src
      if njsSurrogateLeading (.ofNat cp) then
        let (low, ctx, src) := njsUtf8Decode ctx src
        njsStringEncode escape (njsUtf8Encode (njsSurrogatePair (.ofNat cp) (.ofNat low))) ++
          uriEncodeLoop escape passes ctx src
      else
        njsStringEncode escape (njsUtf8Encode (.ofNat cp)) ++ uriEncodeLoop escape passes ctx src

def malformedUri : Thrown := .uriError "malformed URI"

/-- `njs_string_encode_uri`, which finds the size and then writes the result. A pass of a loop goes
on by at least a byte. -/
def njsStringEncodeUri (component : Bool) (string : StringProp) : Except Thrown StringProp :=
  let escape := if component then escapeUriComponent else escapeUri
  let passes := string.start.length
  let size :=
    if string.njsIsAsciiString then some (asciiSize escape string.start)
    else uriSizeLoop escape passes njsUtf8DecodeInit string.start
  match size with
  | none => .error malformedUri
  | some size =>
    if size = 0 then .ok string
    else
      let dst :=
        if string.njsIsAsciiString then njsStringEncode escape string.start
        else uriEncodeLoop escape passes njsUtf8DecodeInit string.start
      .ok ⟨dst, size⟩

/-! ### The decoders -/

/-- `njs_string_decode_uri_cp`, with the bytes that are left. -/
def njsStringDecodeUriCp (start : Bytes) (expectPercent : Bool) : ℕ × Bytes :=
  let (cp, _, start) := njsUtf8Decode njsUtf8DecodeInit start
  if cp ≠ 0x25 then (if expectPercent then njsUnicodeError else cp, start)
  else
    match start with
    | p₀ :: p₁ :: p =>
      match hex p₀, hex p₁ with
      | some d₀, some d₁ => ((d₀ <<< 4) + d₁, p)
      | _, _ => (njsUnicodeError, start)
    | _ => (njsUnicodeError, start)

def reserveUri : List UInt32 := [0, 0xac009858, 0x00000001, 0, 0, 0, 0, 0]

def reserveUriComponent : List UInt32 := [0, 0, 0, 0, 0, 0, 0, 0]

def njsReserved (reserve : List UInt32) (byte : ℕ) : Bool := tableBit reserve byte

/-- The loop that finds the number of the bytes of a sequence from its first byte. Behind eight bits
there are no more. -/
def sequenceLength (cp : ℕ) : ℕ → ℕ → ℕ
  | 0, n => n
  | passes + 1, n =>
    let n := n + 1
    if (cp <<< n) &&& 0x80 ≠ 0 then sequenceLength cp passes n else n

def readEscapes : ℕ → Bytes → Option (Bytes × Bytes)
  | 0, src => some ([], src)
  | n + 1, src =>
    let (cp, src) := njsStringDecodeUriCp src true
    if njsUnicodeMaxCodepoint < cp then none
    else (readEscapes n src).map fun r => (.ofNat cp :: r.1, r.2)

/-- The loop of `njs_string_decode_uri`, with the bytes of the chain and the length that are added.
A pass goes on by at least a byte. -/
def uriDecodeLoop (reserve : List UInt32) : ℕ → UnicodeDecode → Bytes → Option (Bytes × ℕ)
  | 0, _, _ => some ([], 0)
  | passes + 1, ctx, src =>
    if src = [] then some ([], 0)
    else
      let percent := src.head? = some (chr '%')
      let (cp, rest) := njsStringDecodeUriCp src false
      let added (ctx : UnicodeDecode) (rest dst : Bytes) (length : ℕ) :=
        (uriDecodeLoop reserve passes ctx rest).map fun r => (dst ++ r.1, length + r.2)
      if njsUnicodeMaxCodepoint < cp then none
      else if ¬percent then added ctx rest (njsUtf8Encode (.ofNat cp)) 1
      else if cp < 0x80 then
        -- The three bytes before what is left are those of the escape.
        if njsReserved reserve cp then added ctx rest (src.take 3) 3
        else added ctx rest [.ofNat cp] 1
      else
        let n := sequenceLength cp 8 1
        if 4 < n ∨ rest.length < 3 * (n - 1) then none
        else
          match readEscapes (n - 1) rest with
          | none => none
          | some (encode, rest) =>
            let (cp, ctx, _) := njsUtf8Decode ctx (.ofNat cp :: encode)
            if njsUnicodeMaxCodepoint < cp then none
            else added ctx rest (njsUtf8Encode (.ofNat cp)) 1

def njsStringDecodeUri (component : Bool) (string : StringProp) : Except Thrown StringProp :=
  let reserve := if component then reserveUriComponent else reserveUri
  match uriDecodeLoop reserve string.start.length njsUtf8DecodeInit string.start with
  | none => .error malformedUri
  | some (chain, length) => if chain.length = 0 then .ok string else .ok ⟨chain, length⟩

/-! ### URIs -/

inductive Escapes : List Char → Bytes → Prop
  | nil : Escapes [] []
  | cons {c₀ c₁ : Char} {d₀ d₁ : ℕ} {run : List Char} {l : Bytes} (h₀ : hexValue c₀ = some d₀)
      (h₁ : hexValue c₁ = some d₁) (h : Escapes run l) :
      Escapes ('%' :: c₀ :: c₁ :: run) (.ofNat (d₀ * 16 + d₁) :: l)

/-- A character that stands for itself, or the escapes of the bytes of a character. -/
inductive Piece
  | plain (c : Char) (hc : c ≠ '%')
  | escaped (run : List Char) (d : Char) (hrun : Escapes run (String.utf8EncodeChar d))

def Piece.text : Piece → List Char
  | .plain c _ => [c]
  | .escaped run _ _ => run

def reservedCharacters : List Char := [';', '/', '?', ':', '@', '&', '=', '+', '$', ',', '#']

/-- A character whose escapes are kept. -/
def isReserved (component : Bool) (c : Char) : Bool := !component && reservedCharacters.contains c

def Piece.decoded (component : Bool) : Piece → List Char
  | .plain c _ => [c]
  | .escaped run d _ => if isReserved component d then run else [d]

/-- Each percent sign of a text begins escapes of the bytes of a character. -/
def WellFormed (text : List Char) : Prop := ∃ pieces : List Piece, text = pieces.flatMap Piece.text

/-- A character that stands for itself in what the encoders give. -/
def isUnescaped (component : Bool) (c : Char) : Bool :=
  c.isAlphanum || ['-', '_', '.', '!', '~', '*', '\x27', '(', ')'].contains c ||
    isReserved component c

def escapeOf (b : UInt8) : List Char :=
  ['%', Char.ofNat (hexDigit (b.toNat / 16)).toNat, Char.ofNat (hexDigit (b.toNat % 16)).toNat]

theorem hexValue_hexDigit : ∀ n < 16, hexValue (Char.ofNat (hexDigit n).toNat) = some n ∧
    (hexDigit n).toNat < 0x80 := by
  simp only [hexDigit, lit_eq_litUndecoded]
  decide

theorem escapes_flatMap (l : Bytes) : Escapes (l.flatMap escapeOf) l := by
  induction l with
  | nil => exact .nil
  | cons b l ih =>
    have hlt := b.toNat_lt
    have hescape := Escapes.cons (hexValue_hexDigit (b.toNat / 16) (by omega)).1
      (hexValue_hexDigit (b.toNat % 16) (by omega)).1 ih
    rwa [Nat.div_add_mod', UInt8.ofNat_toNat] at hescape

variable {c : Char}

theorem ne_percent {component : Bool} (h : isUnescaped component c) : c ≠ '%' := by
  rintro rfl
  revert h
  cases component <;> decide

def pieceOf (component : Bool) (c : Char) : Piece :=
  if h : isUnescaped component c then .plain c (ne_percent h)
  else .escaped ((String.utf8EncodeChar c).flatMap escapeOf) c (escapes_flatMap _)

/-! ### Encoding -/

/-- A table has the characters that are escaped. -/
structure IsEscape (component : Bool) (escape : List UInt32) : Prop where
  ascii : ∀ n < 0x80, njsNeedEscape escape n = !isUnescaped component (Char.ofNat n)
  large : ∀ n < 0x100, 0x80 ≤ n → njsNeedEscape escape n = true

set_option maxRecDepth 3000 in
theorem isEscape (component : Bool) :
    IsEscape component (if component then escapeUriComponent else escapeUri) := by
  have htables : ((∀ n < 0x80, njsNeedEscape escapeUri n = !isUnescaped false (Char.ofNat n)) ∧
      ∀ n < 0x100, 0x80 ≤ n → njsNeedEscape escapeUri n = true) ∧
      (∀ n < 0x80, njsNeedEscape escapeUriComponent n = !isUnescaped true (Char.ofNat n)) ∧
      ∀ n < 0x100, 0x80 ≤ n → njsNeedEscape escapeUriComponent n = true := by
    decide
  cases component with
  | false => exact ⟨htables.1.1, htables.1.2⟩
  | true => exact ⟨htables.2.1, htables.2.2⟩

theorem lt_of_isUnescaped {component : Bool} (h : isUnescaped component c) : c.toNat < 0x80 := by
  have hmem {l : List Char} (hl : l.all (fun x => x.toNat < 0x80) = true) (hc : l.contains c) :
      c.toNat < 0x80 :=
    of_decide_eq_true (List.all_eq_true.1 hl c (List.contains_iff_mem.1 hc))
  rw [isUnescaped, isReserved, Bool.or_eq_true, Bool.or_eq_true, Bool.and_eq_true] at h
  obtain (h | h) | ⟨-, h⟩ := h
  · simp only [Char.isAlphanum, Char.isAlpha, Char.isUpper, Char.isLower, Char.isDigit,
      Bool.or_eq_true, Bool.and_eq_true, decide_eq_true_eq, UInt32.le_iff_toNat_le,
      ge_iff_le] at h
    change c.val.toNat < 0x80
    have hZ : 'Z'.val.toNat = 0x5a := rfl
    have hz : 'z'.val.toNat = 0x7a := rfl
    have h9 : '9'.val.toNat = 0x39 := rfl
    omega
  · exact hmem rfl h
  · exact hmem rfl h

theorem pieceOf_plain {component : Bool} (h : isUnescaped component c) :
    (pieceOf component c).text = [c] := by
  rw [pieceOf, dif_pos h]
  rfl

theorem pieceOf_escaped {component : Bool} (h : ¬isUnescaped component c) :
    (pieceOf component c).text = (String.utf8EncodeChar c).flatMap escapeOf := by
  rw [pieceOf, dif_neg h]
  rfl

theorem decoded_pieceOf (component : Bool) (c : Char) :
    (pieceOf component c).decoded component = [c] := by
  by_cases h : isUnescaped component c
  · rw [pieceOf, dif_pos h]
    rfl
  · have hreserved : ¬isReserved component c := by
      rintro hc
      refine h ?_
      rw [isUnescaped, hc, Bool.or_true]
    rw [pieceOf, dif_neg h, Piece.decoded, if_neg hreserved]

theorem bytes_escapeOf (b : UInt8) :
    bytes (escapeOf b) = [chr '%', hexDigit (b.toNat >>> 4), hexDigit (b.toNat &&& 0xf)] := by
  have hlt := b.toNat_lt
  have hlow : b.toNat &&& 0xf = b.toNat % 16 := Nat.and_two_pow_sub_one_eq_mod b.toNat 4
  have hhigh : b.toNat >>> 4 = b.toNat / 16 := by omega
  have h₀ := (hexValue_hexDigit (b.toNat / 16) (by omega)).2
  have h₁ := (hexValue_hexDigit (b.toNat % 16) (by omega)).2
  rw [escapeOf, bytes_cons, bytes_cons, bytes_cons, utf8EncodeChar_byte h₀, utf8EncodeChar_byte h₁,
    hlow, hhigh]
  rfl

namespace IsEscape

variable {component : Bool} {escape : List UInt32} (h : IsEscape component escape)
include h

theorem njsStringEncode_char (c : Char) :
    njsStringEncode escape (String.utf8EncodeChar c) = bytes (pieceOf component c).text := by
  have hneed {l : Bytes} (hl : ∀ b ∈ l, njsNeedEscape escape b.toNat = true) :
      njsStringEncode escape l = bytes (l.flatMap escapeOf) := by
    induction l with
    | nil => rfl
    | cons b l ih =>
      obtain ⟨hb, hl⟩ := List.forall_mem_cons.1 hl
      rw [njsStringEncode, List.flatMap_cons, encodeByte, if_pos hb, List.flatMap_cons,
        bytes_append, bytes_escapeOf, ← ih hl]
      rfl
  by_cases hc : c.toNat < 0x80
  · obtain ⟨b, hchar, hb⟩ := utf8EncodeChar_ascii hc
    have hbit := h.ascii c.toNat hc
    rw [Char.ofNat_toNat] at hbit
    by_cases hunescaped : isUnescaped component c
    · rw [pieceOf_plain hunescaped, bytes_cons, hchar, njsStringEncode, List.flatMap_singleton,
        encodeByte, hb, hbit, hunescaped]
      rfl
    · rw [pieceOf_escaped hunescaped]
      refine hneed fun b' hb' => ?_
      rw [hchar, List.mem_singleton] at hb'
      rw [hb', hb, hbit, Bool.eq_false_of_not_eq_true hunescaped]
      rfl
  · rw [pieceOf_escaped fun hunescaped => hc (lt_of_isUnescaped hunescaped)]
    exact hneed fun b hb => h.large _ b.toNat_lt (large_of_mem (Nat.le_of_not_lt hc) hb)

theorem njsStringEncode_bytes (text : List Char) : njsStringEncode escape (bytes text) =
    bytes (text.flatMap fun c => (pieceOf component c).text) := by
  induction text with
  | nil => rfl
  | cons c text ih =>
    have hc := h.njsStringEncode_char c
    rw [njsStringEncode] at hc ih
    rw [bytes_cons, njsStringEncode, List.flatMap_append, hc, ih, List.flatMap_cons, bytes_append]

end IsEscape

theorem asciiSize_eq (escape : List UInt32) (src : Bytes) :
    asciiSize escape src = (njsStringEncode escape src).length := by
  have hsize (size : ℕ) :
      src.foldl (fun size byte => size + if njsNeedEscape escape byte.toNat then 3 else 1) size =
        size + (njsStringEncode escape src).length := by
    induction src generalizing size with
    | nil => rfl
    | cons b src ih =>
      have hcons : njsStringEncode escape (b :: src) =
          encodeByte escape b ++ njsStringEncode escape src := rfl
      rw [List.foldl_cons, ih, hcons, List.length_append, encodeByte]
      split_ifs <;> exact Nat.add_assoc ..
  exact (hsize 0).trans (Nat.zero_add _)

theorem not_surrogate (c : Char) : njsSurrogateAny (.ofNat c.toNat) = false ∧
    njsSurrogateLeading (.ofNat c.toNat) = false := by
  have hlt : c.toNat < 2 ^ 32 := c.val.toNat_lt
  have hvalue : (UInt32.ofNat c.toNat).toNat = c.toNat := UInt32.toNat_ofNat_of_lt hlt
  have hvalid : c.toNat < 0xd800 ∨ 0xdfff < c.toNat ∧ c.toNat < 0x110000 := c.valid
  have hany := Json.surrogateAny_iff (.ofNat c.toNat)
  have hleading := Json.surrogateLeading_iff (.ofNat c.toNat)
  rw [hvalue, Json.IsLeading, Json.IsTrailing] at hany
  rw [hvalue, Json.IsLeading] at hleading
  constructor
  · exact Bool.eq_false_of_not_eq_true (hany.not.2 (by omega))
  · exact Bool.eq_false_of_not_eq_true (hleading.not.2 (by omega))

theorem length_char {component : Bool} {escape : List UInt32} (h : IsEscape component escape)
    (c : Char) : (njsStringEncode escape (String.utf8EncodeChar c)).length =
      if c.toNat < 0x80 ∧ ¬njsNeedEscape escape c.toNat then 1 else njsUtf8Size c.toNat * 3 := by
  have hsize {l : Bytes} (hl : ∀ b ∈ l, njsNeedEscape escape b.toNat = true) :
      (njsStringEncode escape l).length = l.length * 3 := by
    induction l with
    | nil => rfl
    | cons b l ih =>
      obtain ⟨hb, hl⟩ := List.forall_mem_cons.1 hl
      have hcons : njsStringEncode escape (b :: l) =
          encodeByte escape b ++ njsStringEncode escape l := rfl
      rw [hcons, List.length_append, encodeByte, if_pos hb, ih hl]
      change 3 + l.length * 3 = (l.length + 1) * 3
      omega
  have hbytes : (String.utf8EncodeChar c).length = njsUtf8Size c.toNat := by
    have hvalid : c.toNat.isValidChar := c.valid
    rw [← Decoding.length_njsUtf8Encode (Decoding.le_max_of_isValidChar hvalid),
      Decoding.njsUtf8Encode_ofNat hvalid, Char.ofNat_toNat]
  by_cases hc : c.toNat < 0x80
  · obtain ⟨b, hchar, hb⟩ := utf8EncodeChar_ascii hc
    by_cases hneed : njsNeedEscape escape c.toNat = true
    · rw [if_neg fun hplain => hplain.2 hneed, ← hbytes]
      refine hsize fun b' hb' => ?_
      rw [hchar, List.mem_singleton] at hb'
      rwa [hb', hb]
    · rw [if_pos ⟨hc, hneed⟩, hchar, njsStringEncode, List.flatMap_singleton, encodeByte, hb,
        if_neg hneed]
      rfl
  · rw [if_neg fun hplain => hc hplain.1, ← hbytes]
    exact hsize fun b hb => h.large _ b.toNat_lt (large_of_mem (Nat.le_of_not_lt hc) hb)

theorem uriSizeLoop_eq {component : Bool} {escape : List UInt32} (h : IsEscape component escape)
    (text : List Char) {passes : ℕ} (hpasses : text.length ≤ passes) {ctx : UnicodeDecode}
    (hctx : Idle ctx) : uriSizeLoop escape passes ctx (bytes text) =
      some (njsStringEncode escape (bytes text)).length := by
  induction text generalizing passes ctx with
  | nil =>
    obtain _ | passes := passes
    · rfl
    · exact if_pos rfl
  | cons c text ih =>
    obtain ⟨passes, rfl⟩ : ∃ k, passes = k + 1 :=
      ⟨passes - 1, by rw [List.length_cons] at hpasses; omega⟩
    obtain ⟨ctx₁, hdecode, hctx₁⟩ := njsUtf8Decode_char hctx c (bytes text)
    have hne : bytes (c :: text) ≠ [] := fun h => List.cons_ne_nil c text (bytes_eq_nil_iff.1 h)
    have hrest := ih (Nat.le_of_succ_le_succ hpasses) hctx₁
    have hlength := length_char h c
    have happend : njsStringEncode escape (String.utf8EncodeChar c ++ bytes text) =
        njsStringEncode escape (String.utf8EncodeChar c) ++ njsStringEncode escape (bytes text) :=
      List.flatMap_append
    rw [uriSizeLoop, if_neg hne, bytes_cons, hdecode, happend, List.length_append, hlength]
    dsimp only
    rw [hrest, (not_surrogate c).1]
    by_cases hplain : c.toNat < 0x80 ∧ ¬njsNeedEscape escape c.toNat
    · rw [if_pos hplain, if_pos hplain]
      rfl
    · rw [if_neg hplain, if_neg hplain]
      rfl

theorem uriEncodeLoop_eq (escape : List UInt32) (text : List Char) {passes : ℕ}
    (hpasses : text.length ≤ passes) {ctx : UnicodeDecode} (hctx : Idle ctx) :
    uriEncodeLoop escape passes ctx (bytes text) = njsStringEncode escape (bytes text) := by
  induction text generalizing passes ctx with
  | nil =>
    obtain _ | passes := passes
    · rfl
    · exact if_pos rfl
  | cons c text ih =>
    obtain ⟨passes, rfl⟩ : ∃ k, passes = k + 1 :=
      ⟨passes - 1, by rw [List.length_cons] at hpasses; omega⟩
    obtain ⟨ctx₁, hdecode, hctx₁⟩ := njsUtf8Decode_char hctx c (bytes text)
    have hne : bytes (c :: text) ≠ [] := fun h => List.cons_ne_nil c text (bytes_eq_nil_iff.1 h)
    have hvalid : c.toNat.isValidChar := c.valid
    have hrest := ih (Nat.le_of_succ_le_succ hpasses) hctx₁
    rw [uriEncodeLoop, if_neg hne, bytes_cons, hdecode]
    dsimp only
    rw [hrest, (not_surrogate c).2, Decoding.njsUtf8Encode_ofNat hvalid, Char.ofNat_toNat]
    exact List.flatMap_append.symm

theorem Piece.text_ne_nil (piece : Piece) : piece.text ≠ [] := by
  obtain ⟨c, -⟩ | ⟨run, d, hrun⟩ := piece
  · exact List.cons_ne_nil c []
  intro hnil
  change run = [] at hnil
  subst hnil
  generalize hbytes : String.utf8EncodeChar d = l at hrun
  cases hrun
  exact (sequence_char d).ne_nil hbytes

theorem ascii_pieceOf {component : Bool} {x : Char} (hx : x ∈ (pieceOf component c).text) :
    x.toNat < 0x80 := by
  by_cases h : isUnescaped component c
  · rw [pieceOf_plain h, List.mem_singleton] at hx
    rw [hx]
    exact lt_of_isUnescaped h
  rw [pieceOf_escaped h] at hx
  obtain ⟨b, -, hx⟩ := List.mem_flatMap.1 hx
  have hlt := b.toNat_lt
  have hdigit {n : ℕ} (hn : n < 16) : (Char.ofNat (hexDigit n).toNat).toNat < 0x80 := by
    rw [toNat_char]
    exact (hexValue_hexDigit n hn).2
  simp only [escapeOf, List.mem_cons, List.not_mem_nil, or_false] at hx
  obtain rfl | rfl | rfl := hx
  · decide
  · exact hdigit (by omega)
  · exact hdigit (by omega)

theorem njsStringEncodeUri_eq (component : Bool) (text : List Char) :
    njsStringEncodeUri component (ofText text) =
      .ok (ofText (text.flatMap fun c => (pieceOf component c).text)) := by
  have h := isEscape component
  have hctx : Idle njsUtf8DecodeInit := ⟨rfl, rfl⟩
  have hbytes := h.njsStringEncode_bytes text
  have hlength : (bytes (text.flatMap fun c => (pieceOf component c).text)).length =
      (text.flatMap fun c => (pieceOf component c).text).length := by
    rw [length_bytes_eq_iff]
    intro x hx
    obtain ⟨c, -, hx⟩ := List.mem_flatMap.1 hx
    exact ascii_pieceOf hx
  have hsize : asciiSize (if component then escapeUriComponent else escapeUri) (bytes text) =
      (text.flatMap fun c => (pieceOf component c).text).length := by
    rw [asciiSize_eq, hbytes, hlength]
  have hloop := uriSizeLoop_eq h text (length_le_bytes text) hctx
  rw [hbytes, hlength] at hloop
  have hwritten := uriEncodeLoop_eq (if component then escapeUriComponent else escapeUri) text
    (length_le_bytes text) hctx
  rw [hbytes] at hwritten
  simp only [njsStringEncodeUri, ofText, hloop, hwritten, hsize, hbytes, ite_self]
  by_cases hempty : (text.flatMap fun c => (pieceOf component c).text).length = 0
  · obtain _ | ⟨c, text⟩ := text
    · rfl
    · rw [List.flatMap_cons, List.length_append] at hempty
      have hpos := List.length_pos_iff.2 (pieceOf component c).text_ne_nil
      omega
  · rw [if_neg hempty]

end Njs.Strings
