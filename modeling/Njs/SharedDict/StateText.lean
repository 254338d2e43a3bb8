import Njs.Lib.Text
import Njs.SharedDict.Zone

/-!
# Strings in the state file

The writer of a string (`ngx_js_render_string`) and its reader (`ngx_js_dict_parse_string`), two
independent state machines. The writer keeps count of the room that is left in the buffer it
has reserved, and the reader computes the size of its own buffer from the escapes it has seen;
writing past either one gives no result here.

The lists are the bytes from a pointer to the end of the input, and the bytes that a loop writes.
-/

namespace Njs.SharedDict

open Text (forall_byte)

/-- A character constant of C. -/
abbrev chr (c : Char) : UInt8 := c.toUInt8

def literal (l : List Char) : Bytes := l.map chr

/-- The UTF-8 encodings of lists of characters. -/
def ValidUtf8 (s : Bytes) : Prop :=
  ∃ l : List Char, s = l.flatMap String.utf8EncodeChar

def isContinuation (b : UInt8) : Bool :=
  b &&& 0xc0 = 0x80

/-! ### The writer -/

def hex2char (i : UInt8) : UInt8 :=
  if i < 10 then chr '0' + i else chr 'a' + (i - 10)

/-- What the writer puts after the backslash. -/
def escape (c : UInt8) : Bytes :=
  if c = chr '\\' then [chr '\\']
  else if c = chr '"' then [chr '"']
  else if c = chr '\r' then [chr 'r']
  else if c = chr '\n' then [chr 'n']
  else if c = chr '\t' then [chr 't']
  else if c = 8 then [chr 'b']
  else if c = 12 then [chr 'f']
  else [chr 'u', chr '0', chr '0', hex2char ((c &&& 0xf0) >>> 4), hex2char (c &&& 0x0f)]

/-- The bytes that the writer escapes. -/
def mustEscape (b : UInt8) : Bool :=
  b < chr ' ' || b = chr '\\' || b = chr '"'

/-- `njs_utf8_copy`: the copied bytes and the rest of the input. After a byte outside ASCII one
more byte is read, whether the input has it or not. -/
def njsUtf8Copy (c : UInt8) (p : Bytes) : Option (Bytes × Bytes) :=
  if c &&& 0x80 ≠ 0 then
    if p = [] then none
    else some (c :: p.takeWhile isContinuation, p.dropWhile isContinuation)
  else some ([c], p)

/-- The loop of `ngx_js_render_string`. Every round consumes a byte at least, so as many rounds
as there are bytes are enough; `room` is `dst_end - dst`. -/
def ngxJsRenderStringLoop : ℕ → ℕ → Bytes → Option Bytes
  | _, _, [] => some []
  | 0, _, _ :: _ => none
  | rounds + 1, room, b :: p =>
    -- `sizeof("\\uXXXX")` is 7.
    let room := if room ≤ 7 then max (p.length + 2) 6 else room
    if mustEscape b then
      let dst := chr '\\' :: escape b
      if dst.length ≤ room then
        (ngxJsRenderStringLoop rounds (room - dst.length) p).map (dst ++ ·)
      else none
    else
      match njsUtf8Copy b p with
      | none => none
      | some (dst, p) =>
        if dst.length ≤ room then
          (ngxJsRenderStringLoop rounds (room - dst.length) p).map (dst ++ ·)
        else none

def ngxJsRenderString (str : Bytes) : Option Bytes :=
  (ngxJsRenderStringLoop str.length (str.length + 1) str).map fun dst =>
    chr '"' :: dst ++ [chr '"']

/-! ### The reader -/

/-- Why the reader stops: an error of the source with the input at `*at`, or a write past the
end of the reader's own buffer. -/
inductive StateError
  | invalid (err : String) (p : Bytes)
  | overflow
  /-- More rounds of a loop than the input has bytes; never reached. -/
  | rounds

/-- The states of the first pass. -/
inductive ScanState
  | usual
  | escape
  | encoded1
  | encoded2
  | encoded3
  | encoded4

def isHexDigit (ch : UInt8) : Bool :=
  (ch ≥ chr '0' && ch ≤ chr '9') || (ch ≥ chr 'A' && ch ≤ chr 'F')
    || (ch ≥ chr 'a' && ch ≤ chr 'f')

/-- The escapes of one character. -/
def isEscapeChar (ch : UInt8) : Bool :=
  ch ∈ literal ['"', '\\', '/', 'n', 'r', 't', 'b', 'f']

/-- One more byte of text, with what it adds to the surplus. -/
def scanned (ch : UInt8) (n : ℕ) :
    Except StateError (Bytes × ℕ × Bytes) → Except StateError (Bytes × ℕ × Bytes)
  | .ok (text, surplus, p) => .ok (ch :: text, surplus + n, p)
  | .error e => .error e

/-- The first pass of `ngx_js_dict_parse_string`: the text up to the closing quote, the surplus
of its escapes over what they stand for, and the input after the quote. -/
def scanString : ScanState → Bytes → Except StateError (Bytes × ℕ × Bytes)
  | _, [] => .error (.invalid "unexpected end of input" [])
  | .usual, ch :: p =>
    if ch = chr '"' then .ok ([], 0, p)
    else if ch = chr '\\' then scanned ch 0 (scanString .escape p)
    else if ch ≥ chr ' ' then scanned ch 0 (scanString .usual p)
    else .error (.invalid "Invalid source char" (ch :: p))
  | .escape, ch :: p =>
    if isEscapeChar ch then scanned ch 1 (scanString .usual p)
    else if ch = chr 'u' then scanned ch 3 (scanString .encoded1 p)
    else .error (.invalid "Invalid escape char" (ch :: p))
  | .encoded1, ch :: p =>
    if isHexDigit ch then scanned ch 0 (scanString .encoded2 p)
    else .error (.invalid "Invalid Unicode escape sequence" (ch :: p))
  | .encoded2, ch :: p =>
    if isHexDigit ch then scanned ch 0 (scanString .encoded3 p)
    else .error (.invalid "Invalid Unicode escape sequence" (ch :: p))
  | .encoded3, ch :: p =>
    if isHexDigit ch then scanned ch 0 (scanString .encoded4 p)
    else .error (.invalid "Invalid Unicode escape sequence" (ch :: p))
  | .encoded4, ch :: p =>
    if isHexDigit ch then scanned ch 0 (scanString .usual p)
    else .error (.invalid "Invalid Unicode escape sequence" (ch :: p))

/-- One digit of `ngx_js_unicode`. -/
def hexValue (b : UInt8) : UInt8 :=
  let c := (b ||| 0x20) - chr '0'
  if c > 9 then c + (chr '0' - chr 'a' + 10) else c

def ngxJsUnicode (a b c d : UInt8) : UInt32 :=
  [a, b, c, d].foldl (fun utf b => (utf <<< 4) ||| (hexValue b).toUInt32) 0

/-- `njs_utf8_encode`; no surrogate pair is above the range. -/
def njsUtf8Encode (u : UInt32) : Bytes :=
  if u < 0x80 then [(u &&& 0xff).toUInt8]
  else if u < 0x800 then [((u >>> 6) ||| 0xc0).toUInt8, ((u &&& 0x3f) ||| 0x80).toUInt8]
  else if u < 0x10000 then
    [((u >>> 12) ||| 0xe0).toUInt8, (((u >>> 6) &&& 0x3f) ||| 0x80).toUInt8,
      ((u &&& 0x3f) ||| 0x80).toUInt8]
  else if u < 0x110000 then
    [((u >>> 18) ||| 0xf0).toUInt8, (((u >>> 12) &&& 0x3f) ||| 0x80).toUInt8,
      (((u >>> 6) &&& 0x3f) ||| 0x80).toUInt8, ((u &&& 0x3f) ||| 0x80).toUInt8]
  else []

def njsSurrogateAny (u : UInt32) : Bool := u - 0xd800 ≤ 0xdfff - 0xd800

def njsSurrogateLeading (u : UInt32) : Bool := u - 0xd800 ≤ 0xdbff - 0xd800

def njsSurrogateTrailing (u : UInt32) : Bool := u - 0xdc00 ≤ 0xdfff - 0xdc00

def njsSurrogatePair (high low : UInt32) : UInt32 :=
  (0x10000 : UInt32) + ((high - 0xd800) <<< 10) + (low - 0xdc00)

/-- `NJS_UNICODE_REPLACEMENT`. -/
def njsUnicodeReplacement : UInt32 := 0xfffd

/-- What the second half of a surrogate pair makes of the two escapes. -/
def encodePair (utf low : UInt32) : Bytes :=
  if njsSurrogateTrailing low then njsUtf8Encode (njsSurrogatePair utf low)
  else if njsSurrogateLeading low then
    njsUtf8Encode njsUnicodeReplacement ++ njsUtf8Encode njsUnicodeReplacement
  else njsUtf8Encode njsUnicodeReplacement ++ njsUtf8Encode low

/-- The character of an escape other than `\u`. -/
def escapedChar (ch : UInt8) : Option UInt8 :=
  if ch = chr '"' ∨ ch = chr '\\' ∨ ch = chr '/' then some ch
  else if ch = chr 'n' then some (chr '\n')
  else if ch = chr 'r' then some (chr '\r')
  else if ch = chr 't' then some (chr '\t')
  else if ch = chr 'b' then some 8
  else if ch = chr 'f' then some 12
  else none

/-- The second pass of `ngx_js_dict_parse_string`, on a text that the first one has accepted. -/
def unescape : Bytes → Bytes
  | [] => []
  | ch :: p =>
    if ch ≠ chr '\\' then ch :: unescape p
    else
      match p with
      | [] => []
      | ch :: p =>
        match escapedChar ch with
        | some s => s :: unescape p
        | none =>
          match p with
          | a :: b :: c :: d :: p =>
            let utf := ngxJsUnicode a b c d
            if njsSurrogateAny utf then
              match p with
              | x :: y :: a :: b :: c :: d :: q =>
                if utf > 0xdbff ∨ x ≠ chr '\\' ∨ y ≠ chr 'u' then
                  njsUtf8Encode njsUnicodeReplacement ++ unescape (x :: y :: a :: b :: c :: d :: q)
                else encodePair utf (ngxJsUnicode a b c d) ++ unescape q
              | p => njsUtf8Encode njsUnicodeReplacement ++ unescape p
            else njsUtf8Encode utf ++ unescape p
          | _ => []

/-- `ngx_js_dict_parse_string`: the string and the input after it. The byte after the input is
a NUL. -/
def ngxJsDictParseString : Bytes → Except StateError (Bytes × Bytes)
  | [] => .error (.invalid "unexpected character, expected '\"'" [])
  | ch :: p =>
    if ch ≠ chr '"' then .error (.invalid "unexpected character, expected '\"'" (ch :: p))
    else
      match scanString .usual p with
      | .error e => .error e
      | .ok (text, surplus, p) =>
        if surplus = 0 then .ok (text, p)
        else if (unescape text).length ≤ text.length - surplus then .ok (unescape text, p)
        else .error .overflow

/-! ### What the writer writes -/

/-- What stands in the file for one byte of a string. -/
def renderByte (b : UInt8) : Bytes :=
  if mustEscape b then chr '\\' :: escape b else [b]

/-- A string as it stands in the file. -/
def rendered (s : Bytes) : Bytes :=
  chr '"' :: s.flatMap renderByte ++ [chr '"']

theorem length_escape_le (b : UInt8) : (chr '\\' :: escape b).length ≤ 6 := by
  rw [escape]
  split_ifs <;> simp

/-- What a byte is to the writer and the reader of strings. -/
structure WrittenByte (b : UInt8) : Prop where
  /-- The bytes of characters that are not ASCII. -/
  high : (0x80 ≤ b → mustEscape b = false) ∧ (isContinuation b = true → 0x80 ≤ b) ∧
    (b &&& 0x80 = 0 → isContinuation b = false) ∧ (b &&& 0x80 ≠ 0 → 0x80 ≤ b) ∧
    (b ≤ 127 → b &&& 0x80 = 0)
  /-- The bytes that `String.utf8EncodeChar` makes. -/
  encoded : isContinuation (b &&& 0x3f ||| 0x80) = true ∧
    ((b &&& 0x1f ||| 0xc0) &&& 0x80 ≠ 0 ∧ isContinuation (b &&& 0x1f ||| 0xc0) = false) ∧
    ((b &&& 0x0f ||| 0xe0) &&& 0x80 ≠ 0 ∧ isContinuation (b &&& 0x0f ||| 0xe0) = false) ∧
    ((b &&& 0x07 ||| 0xf0) &&& 0x80 ≠ 0 ∧ isContinuation (b &&& 0x07 ||| 0xf0) = false)
  /-- The bytes that stand for themselves. -/
  plain : mustEscape b = false → chr ' ' ≤ b ∧ b ≠ chr '\\' ∧ b ≠ chr '"'
  letter : mustEscape b = true → (escape b).length = 1 →
    (escape b).all (fun e => isEscapeChar e && escapedChar e == some b) = true
  /-- The bytes that are given by their codes. -/
  code : mustEscape b = true → (escape b).length ≠ 1 →
    escape b = [chr 'u', chr '0', chr '0', hex2char ((b &&& 0xf0) >>> 4), hex2char (b &&& 0x0f)] ∧
      isHexDigit (hex2char ((b &&& 0xf0) >>> 4)) = true ∧
      isHexDigit (hex2char (b &&& 0x0f)) = true ∧
      ngxJsUnicode (chr '0') (chr '0') (hex2char ((b &&& 0xf0) >>> 4)) (hex2char (b &&& 0x0f)) =
        b.toUInt32 ∧
      b < chr ' '
  control : b < chr ' ' → njsSurrogateAny b.toUInt32 = false ∧ njsUtf8Encode b.toUInt32 = [b]

set_option synthInstance.maxSize 256 in
theorem writtenByte (b : UInt8) : WrittenByte b where
  high := by
    revert b
    exact forall_byte (by decide)
  encoded := by
    revert b
    exact forall_byte (by decide)
  plain := by
    revert b
    exact forall_byte (by decide)
  letter := by
    revert b
    exact forall_byte (by decide)
  code := by
    revert b
    exact forall_byte (by decide)
  control := by
    revert b
    exact forall_byte (by decide)

theorem mustEscape_of_ge (b : UInt8) (h : 0x80 ≤ b) : mustEscape b = false :=
    (writtenByte b).high.1 h

theorem isContinuation_ge (b : UInt8) (h : isContinuation b = true) : 0x80 ≤ b :=
  (writtenByte b).high.2.1 h

/-- A character as the engines encode it: an ASCII byte, or a leading byte with one to three
continuation bytes. QuickJS encodes a lone surrogate so, which is not UTF-8. -/
def EncodedChar (x : Bytes) : Prop :=
  (∃ b, x = [b] ∧ b &&& 0x80 = 0) ∨
  ∃ b l, x = b :: l ∧ b &&& 0x80 ≠ 0 ∧ isContinuation b = false ∧ l ≠ [] ∧ l.length ≤ 3 ∧
    ∀ y ∈ l, isContinuation y = true

/-- The strings that the engines store. -/
def EncodedText (s : Bytes) : Prop :=
  ∃ l : List Bytes, (∀ x ∈ l, EncodedChar x) ∧ s = l.flatten

theorem encodedChar_utf8 (c : Char) : EncodedChar (String.utf8EncodeChar c) := by
  have hcont : ∀ x : UInt8, isContinuation (x &&& 0x3f ||| 0x80) = true := fun x =>
    (writtenByte x).encoded.1
  obtain h | h | h | h := c.utf8Size_eq
  · have hascii : ∀ x : UInt8, x ≤ 127 → x &&& 0x80 = 0 := fun x => (writtenByte x).high.2.2.2.2
    have hc : c.val.toNat ≤ 127 := UInt32.le_iff_toNat_le.mp (Char.utf8Size_eq_one_iff.mp h)
    refine .inl ⟨_, String.utf8EncodeChar_eq_singleton h, hascii _ ?_⟩
    rw [UInt8.le_iff_toNat_le, UInt32.toNat_toUInt8]
    exact (Nat.mod_le _ _).trans hc
  · have hlead := fun x => (writtenByte x).encoded.2.1
    exact .inr ⟨_, _, String.utf8EncodeChar_eq_cons_cons h, (hlead _).1, (hlead _).2, by simp,
      by simp, by simp [hcont]⟩
  · have hlead := fun x => (writtenByte x).encoded.2.2.1
    exact .inr ⟨_, _, String.utf8EncodeChar_eq_cons_cons_cons h, (hlead _).1, (hlead _).2,
      by simp, by simp, by simp [hcont]⟩
  · have hlead := fun x => (writtenByte x).encoded.2.2.2
    exact .inr ⟨_, _, String.utf8EncodeChar_eq_cons_cons_cons_cons h, (hlead _).1, (hlead _).2,
      by simp, by simp, by simp [hcont]⟩

theorem ValidUtf8.encoded {s : Bytes} (h : ValidUtf8 s) : EncodedText s := by
  obtain ⟨l, rfl⟩ := h
  refine ⟨l.map String.utf8EncodeChar, fun x hx => ?_, List.flatMap_def⟩
  obtain ⟨c, -, rfl⟩ := List.mem_map.mp hx
  exact encodedChar_utf8 c

/-- The string does not begin in the middle of a character. -/
def Whole (s : Bytes) : Prop :=
  ∀ b ∈ s.head?, isContinuation b = false

theorem whole_flatten {l : List Bytes} (h : ∀ x ∈ l, EncodedChar x) : Whole l.flatten := by
  cases l with
  | nil => simp [Whole]
  | cons x l =>
    obtain ⟨b, rfl, hb⟩ | ⟨b, t, rfl, -, hcont, -⟩ := h x List.mem_cons_self
    · simp [Whole, (writtenByte b).high.2.2.1 hb]
    · simp [Whole, hcont]

theorem utf8Copy_append {b : UInt8} {l s : Bytes} (hb : b &&& 0x80 ≠ 0) (hl : l ≠ [])
    (hcont : ∀ x ∈ l, isContinuation x = true) (hs : Whole s) :
    njsUtf8Copy b (l ++ s) = some (b :: l, s) := by
  have htake : (l ++ s).takeWhile isContinuation = l := by
    rw [List.takeWhile_append_of_pos hcont]
    cases s with
    | nil => simp
    | cons x s => simp [hs x rfl]
  have hdrop : (l ++ s).dropWhile isContinuation = s := by
    rw [List.dropWhile_append_of_pos hcont]
    cases s with
    | nil => simp
    | cons x s => simp [hs x rfl]
  rw [njsUtf8Copy, if_pos hb, if_neg (by simp [hl]), htake, hdrop]

theorem flatMap_renderByte_of_cont {l : Bytes} (h : ∀ x ∈ l, 0x80 ≤ x) :
    l.flatMap renderByte = l := by
  induction l with
  | nil => rfl
  | cons b l ih =>
    have hb := mustEscape_of_ge b (h b List.mem_cons_self)
    rw [List.flatMap_cons, ih fun x hx => h x (List.mem_cons_of_mem _ hx)]
    simp [renderByte, hb]

theorem renderLoop_eq {l : List Bytes} (h : ∀ x ∈ l, EncodedChar x) :
    ∀ rounds room, l.flatten.length ≤ rounds →
      ngxJsRenderStringLoop rounds room l.flatten = some (l.flatten.flatMap renderByte) := by
  induction l with
  | nil =>
    intro rounds room _
    cases rounds <;> rfl
  | cons x l ih =>
    intro rounds room hrounds
    have hl : ∀ x ∈ l, EncodedChar x := fun x hx => h x (List.mem_cons_of_mem _ hx)
    have hwhole := whole_flatten hl
    have ih := ih hl
    rw [List.flatten_cons] at hrounds ⊢
    generalize l.flatten = s at ih hrounds hwhole
    obtain ⟨b, rfl, hascii⟩ | ⟨b, t, rfl, hlead, -, ht, hlen, hcont⟩ := h x List.mem_cons_self
    · rw [List.singleton_append] at hrounds ⊢
      obtain ⟨rounds, rfl⟩ : ∃ n, rounds = n + 1 := ⟨rounds - 1, by simp at hrounds; omega⟩
      rw [List.length_cons] at hrounds
      have hcopy : njsUtf8Copy b s = some ([b], s) := by simp [njsUtf8Copy, hascii]
      have hesc := length_escape_le b
      rw [ngxJsRenderStringLoop, List.flatMap_cons]
      by_cases hmust : mustEscape b = true
      · rw [if_pos hmust, if_pos (by split <;> omega), ih _ _ (by omega)]
        simp [renderByte, hmust]
      · rw [if_neg hmust, hcopy]
        simp only
        rw [if_pos (by rw [List.length_singleton]; split <;> omega), ih _ _ (by omega)]
        simp [renderByte, hmust]
    · rw [List.cons_append] at hrounds ⊢
      obtain ⟨rounds, rfl⟩ : ∃ n, rounds = n + 1 := ⟨rounds - 1, by simp at hrounds; omega⟩
      rw [List.length_cons, List.length_append] at hrounds
      have hge : ∀ x ∈ b :: t, 0x80 ≤ x := by
        rintro x (_ | ⟨_, hx⟩)
        · exact (writtenByte b).high.2.2.2.1 hlead
        · exact isContinuation_ge x (hcont x hx)
      have hmust := mustEscape_of_ge b (hge b List.mem_cons_self)
      rw [ngxJsRenderStringLoop, utf8Copy_append hlead ht hcont hwhole]
      simp only [hmust, Bool.false_eq_true, if_false]
      rw [if_pos (by rw [List.length_cons]; split <;> omega), ih _ _ (by omega),
        ← List.cons_append, List.flatMap_append, flatMap_renderByte_of_cont hge]
      rfl

theorem renderString_eq {s : Bytes} (h : EncodedText s) :
    ngxJsRenderString s = some (rendered s) := by
  obtain ⟨l, hl, rfl⟩ := h
  rw [ngxJsRenderString, renderLoop_eq hl _ _ le_rfl]
  rfl

theorem renderByte_cases (b : UInt8) :
    (renderByte b = [b] ∧ chr ' ' ≤ b ∧ b ≠ chr '\\' ∧ b ≠ chr '"') ∨
    (∃ e, renderByte b = [chr '\\', e] ∧ isEscapeChar e = true ∧ escapedChar e = some b) ∨
    ∃ h l, renderByte b = [chr '\\', chr 'u', chr '0', chr '0', h, l] ∧
      isHexDigit h = true ∧ isHexDigit l = true ∧
      ngxJsUnicode (chr '0') (chr '0') h l = b.toUInt32 ∧ b < chr ' ' := by
  rw [renderByte]
  by_cases hmust : mustEscape b = true
  · rw [if_pos hmust]
    by_cases hlen : (escape b).length = 1
    · obtain ⟨e, he⟩ := List.length_eq_one_iff.mp hlen
      obtain ⟨hchar, hval⟩ : isEscapeChar e = true ∧ escapedChar e = some b := by
        simpa [he] using (writtenByte b).letter hmust hlen
      exact .inr (.inl ⟨e, by rw [he], hchar, hval⟩)
    · obtain ⟨hesc, hrest⟩ := (writtenByte b).code hmust hlen
      exact .inr (.inr ⟨_, _, by rw [hesc], hrest⟩)
  · rw [if_neg hmust]
    exact .inl ⟨rfl, (writtenByte b).plain (by simpa using hmust)⟩

/-! ### What the reader makes of it -/

/-- The surplus of what stands in the file for one byte. -/
def surplusOf (b : UInt8) : ℕ :=
  match (renderByte b).length with
  | 0 | 1 => 0
  | 2 => 1
  | _ => 3

def surplus (s : Bytes) : ℕ := (s.map surplusOf).sum

theorem scanString_renderByte (b : UInt8) {p text rest : Bytes} {n : ℕ}
    (h : scanString .usual p = .ok (text, n, rest)) :
    scanString .usual (renderByte b ++ p) = .ok (renderByte b ++ text, surplusOf b + n, rest) := by
  have hquote : chr '\\' ≠ chr '"' := by decide
  have hu : isEscapeChar (chr 'u') = false := by decide
  have hzero : isHexDigit (chr '0') = true := by decide
  obtain ⟨hb, hge, hslash, hq⟩ | ⟨e, hb, he, -⟩ | ⟨x, y, hb, hx, hy, -⟩ := renderByte_cases b
  · simp only [surplusOf, hb, List.singleton_append, scanString, if_neg hq, if_neg hslash,
      if_pos hge, h, scanned, List.length_singleton, Nat.zero_add, Nat.add_zero]
  · simp only [surplusOf, hb, List.cons_append, List.nil_append, scanString, if_neg hquote,
      if_true, if_pos he, h, scanned, List.length_cons, List.length_nil, Nat.add_zero]
    simp [Nat.add_comm]
  · simp only [surplusOf, hb, List.cons_append, List.nil_append, scanString, if_neg hquote,
      if_true, hu, hzero, hx, hy, h, scanned, List.length_cons, List.length_nil, Nat.add_zero,
      Bool.false_eq_true, if_false]
    simp [Nat.add_comm]

theorem scanString_rendered (s rest : Bytes) :
    scanString .usual (s.flatMap renderByte ++ chr '"' :: rest) =
      .ok (s.flatMap renderByte, surplus s, rest) := by
  induction s with
  | nil => simp [scanString, surplus]
  | cons b s ih =>
    rw [List.flatMap_cons, List.append_assoc, scanString_renderByte b ih]
    simp [surplus]

theorem unescape_of_ne {ch : UInt8} (h : ch ≠ chr '\\') (p : Bytes) :
    unescape (ch :: p) = ch :: unescape p := by
  rw [unescape.eq_def]
  simp [h]

theorem unescape_letter {ch s : UInt8} (h : escapedChar ch = some s) (p : Bytes) :
    unescape (chr '\\' :: ch :: p) = s :: unescape p := by
  rw [unescape.eq_def]
  simp [h]

theorem unescape_code {a b c d : UInt8} (h : njsSurrogateAny (ngxJsUnicode a b c d) = false)
    (p : Bytes) :
    unescape (chr '\\' :: chr 'u' :: a :: b :: c :: d :: p) =
      njsUtf8Encode (ngxJsUnicode a b c d) ++ unescape p := by
  have hu : escapedChar (chr 'u') = none := by decide
  rw [unescape.eq_def]
  simp [hu, h]

theorem unescape_surrogate {a b c d : UInt8} (h : njsSurrogateAny (ngxJsUnicode a b c d) = true)
    (p : Bytes) :
    unescape (chr '\\' :: chr 'u' :: a :: b :: c :: d :: p) =
      match p with
      | x :: y :: a' :: b' :: c' :: d' :: q =>
        if ngxJsUnicode a b c d > 0xdbff ∨ x ≠ chr '\\' ∨ y ≠ chr 'u' then
          njsUtf8Encode njsUnicodeReplacement ++ unescape (x :: y :: a' :: b' :: c' :: d' :: q)
        else encodePair (ngxJsUnicode a b c d) (ngxJsUnicode a' b' c' d') ++ unescape q
      | p => njsUtf8Encode njsUnicodeReplacement ++ unescape p := by
  have hu : escapedChar (chr 'u') = none := by decide
  rw [unescape.eq_def]
  simp only [ne_eq, not_true, if_false, hu, h, if_true]
  rfl

theorem unescape_renderByte (b : UInt8) (p : Bytes) :
    unescape (renderByte b ++ p) = b :: unescape p := by
  obtain ⟨hb, -, hslash, -⟩ | ⟨e, hb, -, he⟩ | ⟨x, y, hb, -, -, hval, hlt⟩ := renderByte_cases b
  · rw [hb, List.singleton_append, unescape_of_ne hslash]
  · rw [hb]
    exact unescape_letter he p
  · obtain ⟨hany, henc⟩ := (writtenByte b).control hlt
    rw [hb]
    refine (unescape_code (by rw [hval]; exact hany) p).trans ?_
    rw [hval, henc, List.singleton_append]

theorem unescape_rendered (s : Bytes) : unescape (s.flatMap renderByte) = s := by
  induction s with
  | nil => rfl
  | cons b s ih => rw [List.flatMap_cons, unescape_renderByte, ih]

theorem length_add_surplus_le (s : Bytes) :
    s.length + surplus s ≤ (s.flatMap renderByte).length := by
  induction s with
  | nil => exact le_rfl
  | cons b s ih =>
    have hb : 1 + surplusOf b ≤ (renderByte b).length := by
      obtain ⟨hb, -⟩ | ⟨e, hb, -⟩ | ⟨x, y, hb, -⟩ := renderByte_cases b <;> simp [surplusOf, hb]
    simp only [surplus, List.map_cons, List.sum_cons, List.length_cons, List.flatMap_cons,
      List.length_append] at ih ⊢
    omega

theorem flatMap_renderByte_of_surplus {s : Bytes} (h : surplus s = 0) :
    s.flatMap renderByte = s := by
  induction s with
  | nil => rfl
  | cons b s ih =>
    simp only [surplus, List.map_cons, List.sum_cons, Nat.add_eq_zero_iff] at h
    rw [List.flatMap_cons, ih h.2]
    obtain ⟨hb, -⟩ | ⟨e, hb, -⟩ | ⟨x, y, hb, -⟩ := renderByte_cases b
    · rw [hb, List.singleton_append]
    · simp [surplusOf, hb] at h
    · simp [surplusOf, hb] at h

theorem parseString_rendered (s rest : Bytes) :
    ngxJsDictParseString (rendered s ++ rest) = .ok (s, rest) := by
  have happ : rendered s ++ rest = chr '"' :: (s.flatMap renderByte ++ chr '"' :: rest) := by
    simp [rendered]
  rw [happ, ngxJsDictParseString, if_neg (by simp), scanString_rendered]
  simp only
  by_cases hs : surplus s = 0
  · rw [if_pos hs, flatMap_renderByte_of_surplus hs]
  · have hle := length_add_surplus_le s
    rw [if_neg hs, unescape_rendered, if_pos (by omega)]

end Njs.SharedDict
