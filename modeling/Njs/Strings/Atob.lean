import Mathlib
import Njs.Strings.Base64
import Njs.Strings.Chains

/-!
# `atob` and `btoa`

`btoa` writes the code points of a string as digits of base 64, and `atob` reads the digits of a
string bit by bit. White space is passed over, and padding is counted and checked at the end.
-/

namespace Njs.Strings

open Text
open Indices (bytes)
open Query (UnicodeDecode njsUtf8Decode njsUtf8DecodeInit Idle bytes_cons)
open SharedDict (njsUtf8Encode)
open Base64 (alphabet alphabets decode decode_encode encode encode_lt length_encode_add_pad pad
  standard)

/-! ### The code -/

/-- The code behind the loop of `njs_string_btoa`, where none is an error. -/
def btoaTail (len : ℕ) (ctx : UnicodeDecode) (p : Bytes) : Option Bytes :=
  if 0 < len then
    let (cp0, ctx, p) := njsUtf8Decode ctx p
    if 0xff < cp0 then none
    else if len = 1 then
      some [njsBasis64Enc.getD (cp0 >>> 2) 0, njsBasis64Enc.getD ((cp0 &&& 0x03) <<< 4) 0,
        chr '=', chr '=']
    else
      let (cp1, _, _) := njsUtf8Decode ctx p
      if 0xff < cp1 then none
      else
        some [njsBasis64Enc.getD (cp0 >>> 2) 0,
          njsBasis64Enc.getD (((cp0 &&& 0x03) <<< 4) ||| (cp1 >>> 4)) 0,
          njsBasis64Enc.getD ((cp1 &&& 0x0f) <<< 2) 0, chr '=']
  else some []

/-- The loop of `njs_string_btoa` and what is behind it. -/
def btoaLoop : ℕ → UnicodeDecode → Bytes → Option Bytes
  | len + 3, ctx, p =>
    if p ≠ [] then
      let (cp0, ctx, p) := njsUtf8Decode ctx p
      let (cp1, ctx, p) := njsUtf8Decode ctx p
      let (cp2, ctx, p) := njsUtf8Decode ctx p
      if 0xff < cp0 ∨ 0xff < cp1 ∨ 0xff < cp2 then none
      else
        (btoaLoop len ctx p).map fun dst =>
          njsBasis64Enc.getD (cp0 >>> 2) 0 ::
            njsBasis64Enc.getD (((cp0 &&& 0x03) <<< 4) ||| (cp1 >>> 4)) 0 ::
            njsBasis64Enc.getD (((cp1 &&& 0x0f) <<< 2) ||| (cp2 >>> 6)) 0 ::
            njsBasis64Enc.getD (cp2 &&& 0x3f) 0 :: dst
    else btoaTail (len + 3) ctx p
  | len, ctx, p => btoaTail len ctx p

/-- `njs_string_btoa`, whose string has the length that is found first. -/
def njsStringBtoa (string : StringProp) : Except Thrown StringProp :=
  let length := njsBase64EncodedLength string.length
  match btoaLoop string.length njsUtf8DecodeInit string.start with
  | some dst => .ok ⟨dst, length⟩
  | none => .error (.typeError "invalid character (> U+00FF)")

/-- The variables of the loop of `njs_string_atob`. -/
structure Atob where
  acc : ℕ
  bits : ℕ
  total : ℕ
  pad : ℕ
  chain : Bytes

/-- The white space that `njs_string_atob` passes over. -/
def isBlank (c : UInt8) : Bool :=
  c = chr ' ' || c = chr '\t' || c = chr '\n' || c = chr '\x0c' || c = chr '\r'

def njsChbWriteByteAsUtf8 (chain : Bytes) (byte : ℕ) : Bytes :=
  chain ++ njsUtf8Encode (UInt32.ofNat byte)

/-- A digit in the loop of `njs_string_atob`. -/
def Atob.digit (s : Atob) (v : ℕ) : Atob :=
  let acc := ((s.acc <<< 6) % 2 ^ 32) ||| v
  let bits := s.bits + 6
  if 8 ≤ bits then
    { s with
      acc, bits := bits - 8, total := s.total + 1
      chain := njsChbWriteByteAsUtf8 s.chain ((acc >>> (bits - 8)) &&& 0xff) }
  else { s with acc, bits, total := s.total + 1 }

/-- A pass of the loop of `njs_string_atob`, where none is an error. -/
def atobStep (s : Atob) (c : UInt8) : Option Atob :=
  if isBlank c then some s
  else if c = chr '=' then some { s with pad := s.pad + 1 }
  else if 0 < s.pad then none
  else
    let v := njsBasis64.getD c.toNat 77
    if v = 77 then none else some (s.digit v)

/-- The test behind the loop of `njs_string_atob`. -/
def wrongPadding (total pad : ℕ) : Prop :=
  2 < pad ∨ (total + pad) % 4 = 1 ∨ (0 < pad ∧ (total + pad) % 4 ≠ 0)

instance (total pad : ℕ) : Decidable (wrongPadding total pad) :=
  inferInstanceAs (Decidable (_ ∨ _ ∨ _))

/-- The error of `njs_string_atob`. -/
def notEncoded : Thrown := .typeError "the string to be decoded is not correctly encoded"

def njsStringAtob (string : StringProp) : Except Thrown StringProp :=
  match string.start.foldlM atobStep ⟨0, 0, 0, 0, []⟩ with
  | none => .error notEncoded
  | some s =>
    if wrongPadding s.total s.pad then .error notEncoded
    else if s.total = 0 then .ok ⟨[], 0⟩
    else njsStringCreateChb (some s.chain)

/-! ### Forgiving decoding -/

/-- ASCII white space. -/
def isAsciiWhitespace (c : Char) : Bool :=
  c = ' ' || c = '\t' || c = '\n' || c = '\x0c' || c = '\r'

def digit? (c : Char) : Option ℕ := if c.toNat < 0x80 then standard.value (chr c) else none

/-- A text without an equals sign at the end. -/
def dropEquals (data : List Char) : List Char :=
  if data.getLast? = some '=' then data.dropLast else data

def forgivingDecode (text : List Char) : Option Bytes :=
  let data := text.filter fun c => !isAsciiWhitespace c
  let data := if data.length % 4 = 0 then dropEquals (dropEquals data) else data
  if data.length % 4 = 1 then none else (data.mapM digit?).map decode

/-- The characters of the code points that bytes are. -/
def latin1 (b : Bytes) : List Char := b.map fun x => Char.ofNat x.toNat

/-! ### `btoa` -/

def toLatin1 (text : List Char) : Bytes := text.map fun c => UInt8.ofNat c.toNat

variable {c : Char} {ds : List ℕ} {front : List Char}

theorem toNat_ofNat_latin1 (hc : c.toNat ≤ 0xff) : (UInt8.ofNat c.toNat).toNat = c.toNat := by
  rw [UInt8.toNat_ofNat']
  exact Nat.mod_eq_of_lt (by omega)

/-- The code of `btoa` is that of the encoder. -/
theorem btoaLoop_eq (text : List Char) {ctx : UnicodeDecode} (hctx : Idle ctx) :
    btoaLoop text.length ctx (bytes text) =
      if ∀ c ∈ text, c.toNat ≤ 0xff then some (njsEncodeBase64 (toLatin1 text)) else none := by
  induction hlength : text.length using Nat.strong_induction_on generalizing text ctx with
  | h n ih =>
    subst hlength
    obtain _ | ⟨c0, _ | ⟨c1, _ | ⟨c2, text⟩⟩⟩ := text
    · rw [if_pos fun c hc => absurd hc List.not_mem_nil]
      rfl
    · obtain ⟨ctx₁, h0, -⟩ := njsUtf8Decode_char hctx c0 (bytes [])
      change btoaTail 1 ctx (bytes [c0]) = _
      rw [btoaTail, if_pos Nat.one_pos, bytes_cons, h0]
      dsimp only
      have hall : (∀ c ∈ [c0], c.toNat ≤ 0xff) ↔ c0.toNat ≤ 0xff := List.forall_mem_singleton
      by_cases hc0 : c0.toNat ≤ 0xff
      · have hn0 := toNat_ofNat_latin1 hc0
        rw [if_neg (Nat.not_lt.2 hc0), if_pos (hall.2 hc0), if_pos rfl]
        simp only [toLatin1, List.map_cons, List.map_nil, njsEncodeBase64, njsEncodeBase64Core, hn0]
        rfl
      · rw [if_pos (Nat.lt_of_not_le hc0), if_neg (hall.not.2 hc0)]
    · obtain ⟨ctx₁, h0, hctx₁⟩ := njsUtf8Decode_char hctx c0 (bytes [c1])
      obtain ⟨ctx₂, h1, -⟩ := njsUtf8Decode_char hctx₁ c1 (bytes [])
      change btoaTail 2 ctx (bytes [c0, c1]) = _
      rw [btoaTail, if_pos Nat.two_pos, bytes_cons, h0]
      dsimp only
      rw [if_neg (show ¬2 = 1 by omega), bytes_cons, h1]
      dsimp only
      have hall : (∀ c ∈ [c0, c1], c.toNat ≤ 0xff) ↔ c0.toNat ≤ 0xff ∧ c1.toNat ≤ 0xff := by
        rw [List.forall_mem_cons, List.forall_mem_singleton]
      by_cases hc0 : c0.toNat ≤ 0xff
      · rw [if_neg (Nat.not_lt.2 hc0)]
        by_cases hc1 : c1.toNat ≤ 0xff
        · have hn0 := toNat_ofNat_latin1 hc0
          have hn1 := toNat_ofNat_latin1 hc1
          rw [if_neg (Nat.not_lt.2 hc1), if_pos (hall.2 ⟨hc0, hc1⟩)]
          simp only [toLatin1, List.map_cons, List.map_nil, njsEncodeBase64, njsEncodeBase64Core,
            hn0, hn1]
          rfl
        · rw [if_pos (Nat.lt_of_not_le hc1), if_neg (fun h => hc1 (hall.1 h).2)]
      · rw [if_pos (Nat.lt_of_not_le hc0), if_neg (fun h => hc0 (hall.1 h).1)]
    · obtain ⟨ctx₁, h0, hctx₁⟩ := njsUtf8Decode_char hctx c0 (bytes (c1 :: c2 :: text))
      obtain ⟨ctx₂, h1, hctx₂⟩ := njsUtf8Decode_char hctx₁ c1 (bytes (c2 :: text))
      obtain ⟨ctx₃, h2, hctx₃⟩ := njsUtf8Decode_char hctx₂ c2 (bytes text)
      have hrest := ih text.length (by simp only [List.length_cons]; omega) text hctx₃ rfl
      have hne : bytes (c0 :: c1 :: c2 :: text) ≠ [] := fun h =>
        List.cons_ne_nil _ _ (bytes_eq_nil_iff.1 h)
      change btoaLoop (text.length + 3) ctx _ = _
      rw [btoaLoop, if_pos hne, bytes_cons, h0]
      dsimp only
      rw [bytes_cons, h1]
      dsimp only
      rw [bytes_cons, h2]
      dsimp only
      rw [hrest]
      simp only [List.forall_mem_cons]
      by_cases hc : c0.toNat ≤ 0xff ∧ c1.toNat ≤ 0xff ∧ c2.toNat ≤ 0xff
      · obtain ⟨hc0, hc1, hc2⟩ := hc
        rw [if_neg (by omega)]
        by_cases htext : ∀ c ∈ text, c.toNat ≤ 0xff
        · rw [if_pos htext, if_pos ⟨hc0, hc1, hc2, htext⟩, Option.map_some]
          simp only [toLatin1, List.map_cons, njsEncodeBase64, njsEncodeBase64Core,
            toNat_ofNat_latin1 hc0, toNat_ofNat_latin1 hc1, toNat_ofNat_latin1 hc2]
        · rw [if_neg htext, if_neg (fun h => htext h.2.2.2)]
          rfl
      · rw [if_pos (by omega), if_neg (fun h => hc ⟨h.1, h.2.1, h.2.2.1⟩)]

/-- What `btoa` gives. -/
theorem njsStringBtoa_eq (text : List Char) : njsStringBtoa (ofText text) =
      if ∀ c ∈ text, c.toNat ≤ 0xff then
        .ok ⟨njsEncodeBase64 (toLatin1 text), njsBase64EncodedLength text.length⟩
      else .error (.typeError "invalid character (> U+00FF)") := by
  have hloop := btoaLoop_eq text (show Idle njsUtf8DecodeInit from ⟨rfl, rfl⟩)
  simp only [njsStringBtoa, ofText, hloop]
  by_cases h : ∀ c ∈ text, c.toNat ≤ 0xff
  · rw [if_pos h, if_pos h]
  · rw [if_neg h, if_neg h]

/-! ### The bits of `atob` -/

/-- The bytes that digits complete, with the bits before them. -/
def emitted : ℕ → ℕ → List ℕ → List ℕ
  | _, _, [] => []
  | acc, bits, v :: digits =>
    let acc := ((acc <<< 6) % 2 ^ 32) ||| v
    if 8 ≤ bits + 6 then
      ((acc >>> (bits + 6 - 8)) &&& 0xff) :: emitted acc (bits + 6 - 8) digits
    else emitted acc (bits + 6) digits

theorem accumulate (acc : ℕ) {v : ℕ} (hv : v < 64) :
    ((acc <<< 6) % 2 ^ 32) ||| v = acc % 2 ^ 26 * 64 + v := by
  have hshift : (acc <<< 6) % 2 ^ 32 = (acc % 2 ^ 26) <<< 6 := by omega
  rw [hshift, shift_or (by omega)]
  omega

theorem byte_eq {m n : ℕ} (h : m % 256 = n % 256) : m &&& 0xff = (UInt8.ofNat n).toNat := by
  rw [UInt8.toNat_ofNat', ← h]
  exact mask m 8

theorem emitted_eq {digits : List ℕ} (hdigits : ∀ d ∈ digits, d < 64) (acc : ℕ) :
    emitted acc 0 digits = (decode digits).map UInt8.toNat := by
  fun_induction decode digits generalizing acc with
  | case1 a b c d rest ih =>
    simp only [List.forall_mem_cons] at hdigits
    obtain ⟨ha, hb, hc, hd, hrest⟩ := hdigits
    simp only [emitted, accumulate _ ha, accumulate _ hb, accumulate _ hc, accumulate _ hd,
      Nat.reduceAdd, Nat.reduceSub, Nat.reduceLeDiff, if_true, if_false, List.map_cons]
    exact congrArg₂ List.cons (byte_eq (by omega)) (congrArg₂ List.cons (byte_eq (by omega))
      (congrArg₂ List.cons (byte_eq (by omega)) (ih hrest _)))
  | case2 a b c =>
    simp only [List.forall_mem_cons] at hdigits
    obtain ⟨ha, hb, hc, -⟩ := hdigits
    simp only [emitted, accumulate _ ha, accumulate _ hb, accumulate _ hc,
      Nat.reduceAdd, Nat.reduceSub, Nat.reduceLeDiff, if_true, if_false, List.map_cons,
      List.map_nil]
    exact congrArg₂ List.cons (byte_eq (by omega)) (congrArg₂ List.cons (byte_eq (by omega)) rfl)
  | case3 a b =>
    simp only [List.forall_mem_cons] at hdigits
    obtain ⟨ha, hb, -⟩ := hdigits
    simp only [emitted, accumulate _ ha, accumulate _ hb, Nat.reduceAdd, Nat.reduceSub,
      Nat.reduceLeDiff, if_true, if_false, List.map_cons, List.map_nil]
    exact congrArg₂ List.cons (byte_eq (by omega)) rfl
  | case4 digits h4 h3 h2 =>
    obtain _ | ⟨a, _ | ⟨b, _ | ⟨c, _ | ⟨d, rest⟩⟩⟩⟩ := digits
    · rfl
    · rfl
    · exact absurd rfl (h2 a b)
    · exact absurd rfl (h3 a b c)
    · exact absurd rfl (h4 a b c d rest)

/-! ### The characters of `atob` -/

/-- A pass of the loop for a character. -/
def atobChar (s : Atob) (c : Char) : Option Atob :=
  if isAsciiWhitespace c then some s
  else if c = '=' then some { s with pad := s.pad + 1 }
  else if 0 < s.pad then none
  else (digit? c).map s.digit

theorem getD_njsBasis64 {n : ℕ} (h : 128 ≤ n) : njsBasis64.getD n 77 = 77 := by
  rw [njsBasis64, List.getD_append_right _ _ _ _ h]
  rw [List.getD_eq_getElem?_getD, List.getElem?_replicate]
  split_ifs <;> rfl

theorem digit?_lt {d : ℕ} (h : digit? c = some d) : d < 64 := by
  rw [digit?, Option.ite_none_right_eq_some] at h
  exact standard.value_lt _ _ h.2

theorem getD_first {b : UInt8} {l : Bytes} (hchar : String.utf8EncodeChar c = b :: l) :
    njsBasis64.getD b.toNat 77 = (digit? c).getD 77 := by
  by_cases hc : c.toNat < 0x80
  · rw [digit?, if_pos hc, isBasis.1.value, (first_eq_iff hc hchar).2 rfl]
  · have hlarge := large_of_mem (Nat.le_of_not_lt hc) (b := b) (hchar ▸ List.mem_cons_self)
    rw [digit?, if_neg hc]
    exact getD_njsBasis64 hlarge

theorem isAsciiWhitespace_iff (c : Char) : isAsciiWhitespace c ↔
    c = ' ' ∨ c = '\t' ∨ c = '\n' ∨ c = '\x0c' ∨ c = '\r' := by
  simp [isAsciiWhitespace, or_assoc]

theorem isBlank_first {b : UInt8} {l : Bytes} (hchar : String.utf8EncodeChar c = b :: l) :
    isBlank b = isAsciiWhitespace c := by
  simp only [isBlank, isAsciiWhitespace, first_eq_iff (show ' '.toNat < 0x80 by decide) hchar,
    first_eq_iff (show '\t'.toNat < 0x80 by decide) hchar,
    first_eq_iff (show '\n'.toNat < 0x80 by decide) hchar,
    first_eq_iff (show '\x0c'.toNat < 0x80 by decide) hchar,
    first_eq_iff (show '\r'.toNat < 0x80 by decide) hchar]

theorem atobStep_first {b : UInt8} {l : Bytes} (hchar : String.utf8EncodeChar c = b :: l)
    (s : Atob) : atobStep s b = atobChar s c := by
  have hequals : b = chr '=' ↔ c = '=' := first_eq_iff (by decide) hchar
  rw [atobStep, atobChar, isBlank_first hchar, getD_first hchar]
  simp only [hequals]
  obtain hd | ⟨d, hd⟩ := Option.eq_none_or_eq_some (digit? c)
  · rw [hd]
    rfl
  · have hlt := digit?_lt hd
    rw [hd, Option.getD_some, if_neg (show ¬d = 77 by omega)]
    rfl

theorem foldlM_char (c : Char) (rest : Bytes) (s : Atob) :
    (String.utf8EncodeChar c ++ rest).foldlM atobStep s =
      (atobChar s c).bind fun s' => rest.foldlM atobStep s' := by
  obtain ⟨b, l, hchar⟩ := List.exists_cons_of_ne_nil (sequence_char c).ne_nil
  rw [hchar, List.cons_append, List.foldlM_cons, atobStep_first hchar, Option.bind_eq_bind]
  by_cases hc : c.toNat < 0x80
  · obtain ⟨b', hchar', -⟩ := utf8EncodeChar_ascii hc
    obtain ⟨rfl, rfl⟩ := List.cons.inj (hchar'.symm.trans hchar)
    rfl
  have hspace : ¬isAsciiWhitespace c := by
    rw [isAsciiWhitespace_iff]
    rintro (rfl | rfl | rfl | rfl | rfl) <;> exact hc (by decide)
  have hequals : c ≠ '=' := by
    rintro rfl
    exact hc (by decide)
  rw [atobChar, if_neg hspace, if_neg hequals, digit?, if_neg hc]
  split_ifs <;> rfl

/-! ### The passes of `atob` -/

/-- The characters of a text other than white space. -/
def significant (text : List Char) : List Char := text.filter fun c => !isAsciiWhitespace c

/-- The digits of a text and the number of the equals signs behind them. -/
def split : List Char → Option (List ℕ × ℕ)
  | [] => some ([], 0)
  | c :: l =>
    if c = '=' then if ∀ x ∈ l, x = '=' then some ([], l.length + 1) else none
    else (digit? c).bind fun d => (split l).map fun x => (d :: x.1, x.2)

/-- What the code looks at behind the loop. -/
def Atob.outcome (s : Atob) : ℕ × ℕ × Bytes := (s.total, s.pad, s.chain)

def asUtf8 (b : List ℕ) : Bytes := b.flatMap fun byte => njsUtf8Encode (UInt32.ofNat byte)

theorem significant_space (hc : isAsciiWhitespace c) (text : List Char) :
    significant (c :: text) = significant text :=
  List.filter_cons_of_neg (by simp [hc])

theorem significant_cons (hc : ¬isAsciiWhitespace c) (text : List Char) :
    significant (c :: text) = c :: significant text :=
  List.filter_cons_of_pos (by simp [hc])

@[simp] theorem Atob.digit_total (s : Atob) (v : ℕ) : (s.digit v).total = s.total + 1 := by
  rw [Atob.digit]
  split <;> rfl

@[simp] theorem Atob.digit_pad (s : Atob) (v : ℕ) : (s.digit v).pad = s.pad := by
  rw [Atob.digit]
  split <;> rfl

theorem Atob.digit_chain (s : Atob) (v : ℕ) (digits : List ℕ) :
    (s.digit v).chain ++ asUtf8 (emitted (s.digit v).acc (s.digit v).bits digits) =
      s.chain ++ asUtf8 (emitted s.acc s.bits (v :: digits)) := by
  rw [emitted, Atob.digit]
  split_ifs with hbits
  · rw [asUtf8, asUtf8, List.flatMap_cons, njsChbWriteByteAsUtf8, List.append_assoc]
  · rfl

theorem foldlM_padding (text : List Char) {s : Atob} (hpad : 0 < s.pad) :
    ((bytes text).foldlM atobStep s).map Atob.outcome = if ∀ x ∈ significant text, x = '=' then
        some (s.total, s.pad + (significant text).length, s.chain)
      else none := by
  induction text generalizing s with
  | nil =>
    have hnil : ∀ x ∈ significant [], x = '=' := List.forall_mem_nil _
    rw [if_pos hnil]
    rfl
  | cons c text ih =>
    rw [bytes_cons, foldlM_char, atobChar]
    by_cases hspace : isAsciiWhitespace c
    · rw [if_pos hspace, Option.bind_some, ih hpad, significant_space hspace]
    rw [if_neg hspace, significant_cons hspace]
    by_cases hequals : c = '='
    · have ih := @ih { s with pad := s.pad + 1 } (Nat.succ_pos _)
      rw [if_pos hequals, Option.bind_some, ih]
      simp only [List.forall_mem_cons, hequals, true_and, List.length_cons]
      congr 4
      omega
    · rw [if_neg hequals, if_pos hpad, if_neg fun h => hequals (h c List.mem_cons_self)]
      rfl

theorem foldlM_digits (text : List Char) {s : Atob} (hpad : s.pad = 0) :
    ((bytes text).foldlM atobStep s).map Atob.outcome = (split (significant text)).map fun x =>
        (s.total + x.1.length, x.2, s.chain ++ asUtf8 (emitted s.acc s.bits x.1)) := by
  induction text generalizing s with
  | nil =>
    change some s.outcome = some (s.total, 0, s.chain ++ [])
    rw [List.append_nil, ← hpad]
    rfl
  | cons c text ih =>
    rw [bytes_cons, foldlM_char, atobChar]
    by_cases hspace : isAsciiWhitespace c
    · rw [if_pos hspace, Option.bind_some, ih hpad, significant_space hspace]
    rw [if_neg hspace, significant_cons hspace, split]
    by_cases hequals : c = '='
    · have hpadding := @foldlM_padding text { s with pad := s.pad + 1 } (Nat.succ_pos _)
      rw [if_pos hequals, if_pos hequals, Option.bind_some, hpadding]
      by_cases hall : ∀ x ∈ significant text, x = '='
      · rw [if_pos hall, if_pos hall]
        change some (s.total, s.pad + 1 + _, s.chain) = some (s.total, _, s.chain ++ [])
        rw [List.append_nil, hpad, Nat.zero_add, Nat.add_comm]
      · rw [if_neg hall, if_neg hall]
        rfl
    rw [if_neg hequals, if_neg hequals, if_neg (by omega)]
    obtain hd | ⟨d, hd⟩ := Option.eq_none_or_eq_some (digit? c)
    · rw [hd]
      rfl
    have ih := @ih (s.digit d) (by rw [Atob.digit_pad, hpad])
    rw [hd, Option.map_some, Option.bind_some, ih, Option.bind_some, Option.map_map]
    congr 1
    funext x
    rw [Function.comp_apply, s.digit_chain, Atob.digit_total, List.length_cons,
      Nat.add_assoc, Nat.add_comm 1]

/-! ### Padding -/

theorem digit?_equals : digit? '=' = none := by
  rw [digit?, if_pos (by decide)]
  exact isBasis.1.pad

theorem mapM_cons_some {l : List Char} : (c :: l).mapM digit? = some ds ↔
      ∃ d ds', digit? c = some d ∧ l.mapM digit? = some ds' ∧ ds = d :: ds' := by
  rw [List.mapM_cons]
  simp only [Option.bind_eq_bind, Option.bind_eq_some_iff, Option.pure_def, Option.some.injEq]
  constructor
  · rintro ⟨d, hd, ds', hds', rfl⟩
    exact ⟨d, ds', hd, hds', rfl⟩
  · rintro ⟨d, ds', hd, hds', rfl⟩
    exact ⟨d, hd, ds', hds', rfl⟩

theorem split_append (h : front.mapM digit? = some ds) (p : ℕ) :
    split (front ++ List.replicate p '=') = some (ds, p) := by
  induction front generalizing ds with
  | nil =>
    obtain rfl : ds = [] := (Option.some.inj h).symm
    obtain _ | p := p
    · rfl
    · rw [List.nil_append, List.replicate_succ, split, if_pos rfl,
        if_pos fun x hx => List.eq_of_mem_replicate hx, List.length_replicate]
  | cons c front ih =>
    obtain ⟨d, ds', hd, hds', rfl⟩ := mapM_cons_some.1 h
    have hc : c ≠ '=' := by
      rintro rfl
      rw [digit?_equals] at hd
      exact absurd hd (by simp)
    rw [List.cons_append, split, if_neg hc, hd, ih hds']
    rfl

theorem exists_of_split {data : List Char} {p : ℕ} (h : split data = some (ds, p)) :
    ∃ front, data = front ++ List.replicate p '=' ∧ front.mapM digit? = some ds := by
  induction data generalizing ds with
  | nil =>
    obtain ⟨rfl, rfl⟩ := Prod.mk.inj (Option.some.inj h)
    exact ⟨[], rfl, rfl⟩
  | cons c l ih =>
    rw [split] at h
    by_cases hc : c = '='
    · rw [if_pos hc, Option.ite_none_right_eq_some] at h
      obtain ⟨hall, hsome⟩ := h
      obtain ⟨rfl, rfl⟩ := Prod.mk.inj (Option.some.inj hsome)
      refine ⟨[], ?_, rfl⟩
      rw [List.nil_append, List.replicate_succ, hc, ← List.eq_replicate_of_mem hall]
    rw [if_neg hc, Option.bind_eq_some_iff] at h
    obtain ⟨d, hd, h⟩ := h
    obtain ⟨x, hx, hxs⟩ := Option.map_eq_some_iff.1 h
    obtain ⟨rfl, rfl⟩ := Prod.mk.inj hxs
    obtain ⟨front, rfl, hfront⟩ := ih hx
    exact ⟨c :: front, rfl, mapM_cons_some.2 ⟨d, _, hd, hfront, rfl⟩⟩

theorem length_of_mapM (h : front.mapM digit? = some ds) : front.length = ds.length := by
  induction front generalizing ds with
  | nil =>
    obtain rfl : ds = [] := (Option.some.inj h).symm
    rfl
  | cons c front ih =>
    obtain ⟨d, ds', -, hds', rfl⟩ := mapM_cons_some.1 h
    rw [List.length_cons, List.length_cons, ih hds']

theorem lt_of_mapM (h : front.mapM digit? = some ds) : ∀ d ∈ ds, d < 64 := by
  induction front generalizing ds with
  | nil =>
    obtain rfl : ds = [] := (Option.some.inj h).symm
    exact List.forall_mem_nil _
  | cons c front ih =>
    obtain ⟨d, ds', hd, hds', rfl⟩ := mapM_cons_some.1 h
    exact List.forall_mem_cons.2 ⟨digit?_lt hd, ih hds'⟩

theorem mapM_append_equals (front : List Char) (k : ℕ) :
    (front ++ List.replicate (k + 1) '=').mapM digit? = none := by
  induction front with
  | nil => rw [List.nil_append, List.replicate_succ, List.mapM_cons, digit?_equals]; rfl
  | cons c front ih =>
    rw [List.cons_append, List.mapM_cons, ih]
    cases digit? c <;> rfl

theorem exists_dropEquals (data : List Char) :
    ∃ k, data = dropEquals data ++ List.replicate k '=' := by
  rw [dropEquals]
  split_ifs with h
  · exact ⟨1, (List.dropLast_append_getLast? '=' h).symm⟩
  · exact ⟨0, (List.append_nil data).symm⟩

theorem dropEquals_append (h : front.mapM digit? = some ds) (p : ℕ) :
    dropEquals (front ++ List.replicate p '=') = front ++ List.replicate (p - 1) '=' := by
  obtain _ | p := p
  · rw [List.replicate_zero, List.append_nil, dropEquals, if_neg]
    intro hlast
    have hfront := List.dropLast_append_getLast? '=' hlast
    have hnone := mapM_append_equals front.dropLast 0
    rw [List.replicate_one, hfront, h] at hnone
    exact absurd hnone (by simp)
  · rw [List.replicate_succ', ← List.append_assoc, dropEquals, if_pos (by simp),
      List.dropLast_concat, Nat.add_sub_cancel]

/-- What is left of a text for the digits. -/
def unpadded (data : List Char) : List Char :=
  if data.length % 4 = 0 then dropEquals (dropEquals data) else data

theorem exists_unpadded (data : List Char) : ∃ k, data = unpadded data ++ List.replicate k '=' := by
  rw [unpadded]
  split_ifs with h
  · obtain ⟨j, hj⟩ := exists_dropEquals data
    obtain ⟨k, hk⟩ := exists_dropEquals (dropEquals data)
    refine ⟨k + j, ?_⟩
    rw [List.replicate_add, ← List.append_assoc, ← hk, ← hj]
  · exact ⟨0, (List.append_nil data).symm⟩

theorem mapM_unpadded {data : List Char} (h : split data = none) :
    (unpadded data).mapM digit? = none := by
  obtain ⟨k, hk⟩ := exists_unpadded data
  obtain hnone | ⟨ds, hds⟩ := Option.eq_none_or_eq_some ((unpadded data).mapM digit?)
  · exact hnone
  · have hsplit := split_append hds k
    rw [← hk, h] at hsplit
    exact absurd hsplit (by simp)

theorem forgivingDecode_eq (text : List Char) :
    forgivingDecode text = (split (significant text)).bind fun x =>
      if wrongPadding x.1.length x.2 then none else some (decode x.1) := by
  change (if (unpadded (significant text)).length % 4 = 1 then none
    else ((unpadded (significant text)).mapM digit?).map decode) = _
  generalize significant text = data
  obtain hnone | ⟨⟨ds, p⟩, hsplit⟩ := Option.eq_none_or_eq_some (split data)
  · rw [hnone, mapM_unpadded hnone, Option.map_none, ite_self, Option.bind_none]
  obtain ⟨front, rfl, hfront⟩ := exists_of_split hsplit
  have hlength := length_of_mapM hfront
  have hdigits (k : ℕ) : ((front ++ List.replicate k '=').mapM digit?).map decode =
      if k = 0 then some (decode ds) else none := by
    obtain _ | k := k
    · rw [List.replicate_zero, List.append_nil, hfront]
      rfl
    · rw [mapM_append_equals, if_neg (Nat.succ_ne_zero k)]
      rfl
  rw [hsplit, Option.bind_some, unpadded]
  have hwrong : wrongPadding ds.length p ↔ 2 < p ∨ (ds.length + p) % 4 = 1 ∨
      (0 < p ∧ (ds.length + p) % 4 ≠ 0) := Iff.rfl
  dsimp only
  rw [List.length_append, List.length_replicate, hlength]
  by_cases hmod : (ds.length + p) % 4 = 0
  · rw [if_pos hmod, dropEquals_append hfront, dropEquals_append hfront, hdigits,
      List.length_append, List.length_replicate, hlength]
    by_cases hp : 2 < p
    · rw [if_neg (show ¬p - 1 - 1 = 0 by omega), ite_self, if_pos (hwrong.2 (.inl hp))]
    · rw [if_neg (by omega), if_pos (by omega), if_neg (hwrong.not.2 (by omega))]
  rw [if_neg hmod, hdigits, List.length_append, List.length_replicate, hlength]
  by_cases hone : (ds.length + p) % 4 = 1
  · rw [if_pos hone, if_pos (hwrong.2 (.inr (.inl hone)))]
  · by_cases hp : p = 0
    · rw [if_neg hone, if_pos hp, if_neg (hwrong.not.2 (by omega))]
    · rw [if_neg hone, if_neg hp, if_pos (hwrong.2 (.inr (.inr ⟨Nat.pos_of_ne_zero hp, hmod⟩)))]

/-! ### The functions -/

/-- The bytes written by `atob` are a text of code points. -/
theorem asUtf8_toNat (b : Bytes) : asUtf8 (b.map UInt8.toNat) = bytes (latin1 b) := by
  induction b with
  | nil => rfl
  | cons x b ih =>
    have hvalid : x.toNat.isValidChar := .inl (Nat.lt_trans x.toNat_lt (by decide))
    rw [latin1, List.map_cons, List.map_cons, bytes_cons]
    rw [asUtf8, List.flatMap_cons, Decoding.njsUtf8Encode_ofNat hvalid]
    exact congrArg _ ih

/-- `atob` is the forgiving decoding. -/
theorem njsStringAtob_eq (text : List Char) : njsStringAtob (ofText text) =
      (forgivingDecode text).elim (.error notEncoded) fun b => .ok (ofText (latin1 b)) := by
  have hloop := foldlM_digits text (show (Atob.mk 0 0 0 0 []).pad = 0 from rfl)
  rw [forgivingDecode_eq, njsStringAtob]
  change _ = _
  obtain hnone | ⟨⟨ds, p⟩, hsplit⟩ := Option.eq_none_or_eq_some (split (significant text))
  · rw [hnone, Option.map_none, Option.map_eq_none_iff] at hloop
    simp only [ofText, hloop, hnone, Option.bind_none, Option.elim_none]
  rw [hsplit, Option.map_some, Option.map_eq_some_iff] at hloop
  obtain ⟨s, hs, houtcome⟩ := hloop
  obtain ⟨front, -, hfront⟩ := exists_of_split hsplit
  rw [emitted_eq (lt_of_mapM hfront), asUtf8_toNat] at houtcome
  obtain ⟨htotal, hrest⟩ := Prod.mk.inj houtcome
  obtain ⟨hpad, hchain⟩ := Prod.mk.inj hrest
  simp only [ofText, hs, hsplit, Option.bind_some, htotal, hpad, hchain, Nat.zero_add,
    List.nil_append]
  by_cases hwrong : wrongPadding ds.length p
  · rw [if_pos hwrong, if_pos hwrong]
    rfl
  rw [if_neg hwrong, if_neg hwrong, Option.elim_some]
  by_cases hempty : ds.length = 0
  · rw [if_pos hempty, List.eq_nil_of_length_eq_zero hempty]
    rfl
  · rw [if_neg hempty, njsStringCreateChb_bytes]
    rfl

theorem bytes_latin1 {b : Bytes} (hb : ∀ x ∈ b, x.toNat < 0x80) : bytes (latin1 b) = b := by
  induction b with
  | nil => rfl
  | cons x b ih =>
    obtain ⟨hx, hb⟩ := List.forall_mem_cons.1 hb
    have ih := ih hb
    rw [latin1, List.map_cons, bytes_cons, utf8EncodeChar_byte hx]
    exact congrArg (x :: ·) ih

theorem latin1_toLatin1 {text : List Char} (htext : ∀ c ∈ text, c.toNat ≤ 0xff) :
    latin1 (toLatin1 text) = text := by
  rw [latin1, toLatin1, List.map_map]
  refine (List.map_congr_left fun c hc => ?_).trans (List.map_id text)
  rw [Function.comp_apply, toNat_ofNat_latin1 (htext c hc), Char.ofNat_toNat]
  rfl

theorem letters_plain : ∀ x ∈ chr '=' :: alphabet, x.toNat < 0x80 ∧ isBlank x = false := by
  rw [alphabet, lit_eq_litUndecoded]
  decide +kernel

theorem letter_mem {d : ℕ} (hd : d < 64) : standard.letter d ∈ alphabet := by
  have hlt : d < alphabet.length := alphabets.1.1.symm ▸ hd
  change alphabet.getD d 0 ∈ _
  rw [List.getD_eq_getElem _ _ hlt]
  exact List.getElem_mem hlt

/-- What `btoa` writes are letters and equals signs. -/
theorem plain_of_mem {b : Bytes} {x : UInt8} (hx : x ∈ njsEncodeBase64 b) :
    x.toNat < 0x80 ∧ isBlank x = false := by
  refine letters_plain x ?_
  rw [njsEncodeBase64, isBasis.1.njsEncodeBase64Core_eq, if_pos rfl, List.mem_append,
    List.mem_map] at hx
  obtain ⟨d, hd, rfl⟩ | hx := hx
  · exact List.mem_cons_of_mem _ (letter_mem (encode_lt b d hd))
  · rw [List.eq_of_mem_replicate hx]
    exact List.mem_cons_self

theorem significant_latin1 {l : Bytes} (hl : ∀ x ∈ l, x.toNat < 0x80 ∧ isBlank x = false) :
    significant (latin1 l) = latin1 l := by
  rw [significant, List.filter_eq_self]
  intro c hc
  obtain ⟨x, hx, rfl⟩ := List.mem_map.1 hc
  obtain ⟨hascii, hblank⟩ := hl x hx
  rw [← isBlank_first (utf8EncodeChar_byte hascii), hblank]
  rfl

theorem digit?_letter {d : ℕ} (hd : d < 64) :
    digit? (Char.ofNat (standard.letter d).toNat) = some d := by
  have hascii := (letters_plain _ (List.mem_cons_of_mem _ (letter_mem hd))).1
  have hlow := (toNat_char _).symm ▸ hascii
  rw [digit?, if_pos hlow, ← (first_eq_iff hlow (utf8EncodeChar_byte hascii)).2 rfl]
  exact standard.value_letter d hd

theorem mapM_letters {digits : List ℕ} (hdigits : ∀ d ∈ digits, d < 64) :
    (latin1 (digits.map standard.letter)).mapM digit? = some digits := by
  induction digits with
  | nil => rfl
  | cons d digits ih =>
    obtain ⟨hd, hdigits⟩ := List.forall_mem_cons.1 hdigits
    exact mapM_cons_some.2 ⟨d, digits, digit?_letter hd, ih hdigits, rfl⟩

/-- What `btoa` writes is decoded. -/
theorem forgivingDecode_njsEncodeBase64 (b : Bytes) :
    forgivingDecode (latin1 (njsEncodeBase64 b)) = some b := by
  have hsplit : split (significant (latin1 (njsEncodeBase64 b))) =
      some (encode b, pad b) := by
    rw [significant_latin1 fun _ => plain_of_mem, njsEncodeBase64,
      isBasis.1.njsEncodeBase64Core_eq, if_pos rfl, latin1, List.map_append, List.map_replicate]
    exact split_append (mapM_letters (encode_lt b)) _
  have hlength := length_encode_add_pad b
  have hpad : ¬wrongPadding (encode b).length (pad b) := by
    have hle : pad b ≤ 2 := by
      rw [pad]
      omega
    rw [wrongPadding]
    omega
  rw [forgivingDecode_eq, hsplit, Option.bind_some, if_neg hpad, decode_encode]

theorem length_njsEncodeBase64 (b : Bytes) :
    (njsEncodeBase64 b).length = njsBase64EncodedLength b.length := by
  rw [njsEncodeBase64, isBasis.1.njsEncodeBase64Core_eq, if_pos rfl, List.length_append,
    List.length_map, List.length_replicate, length_encode_add_pad]
  rfl

end Njs.Strings
