import Njs.SharedDict.StateText

/-!
# The parser of JSON texts

`JSON.parse` of `njs_json.c` without a reviver. The text is the list of the bytes from a pointer to
its end; the byte behind the end is a NUL, as it is behind every string. A string of the engine is
UTF-8, and `njs_atom_string_create` keeps such a string as it is.

The value of a numeral is a parameter, `njs_atod` being modelled up to the place where it stops.
Memory, and the limits of arrays and objects beyond `2 ^ 26` elements, are left out.
-/

namespace Njs.Json

open Text
open SharedDict (ScanState isHexDigit isEscapeChar unescape)

variable {ν : Type}

/-- A value. The members of an object are in the order of its hash. -/
inductive Value (ν : Type)
  | null
  | boolean (b : Bool)
  | number (num : ν)
  | string (s : Bytes)
  | array (elements : List (Value ν))
  | object (members : List (Bytes × Value ν))

/-- Why the parser stops. -/
inductive Error
  | syntaxError (msg : String) (left : ℕ)
  /-- A write past the end of the buffer of a string; never reached. -/
  | overflow
  /-- More rounds than the text has bytes for; never reached. -/
  | rounds
  deriving DecidableEq

/-- `NJS_JSON_MAX_DEPTH`. -/
def njsJsonMaxDepth : ℕ := 32

/-- `njs_json_parse_exception`. -/
def parseException {α : Type} (msg : String) (p : Bytes) : Except Error α :=
  .error (.syntaxError msg p.length)

/-- The characters that `njs_json_skip_space` skips. -/
def isSpace (ch : UInt8) : Bool :=
  ch = chr ' ' || ch = chr '\t' || ch = chr '\r' || ch = chr '\n'

def njsJsonSkipSpace (p : Bytes) : Bytes := p.dropWhile isSpace

/-! ### Numbers -/

/-- `to_digit` below 10. -/
def isDigit (ch : UInt8) : Bool := chr '0' ≤ ch && ch ≤ chr '9'

/-- `to_digit(p[0]) < 10`. -/
def atDigit (p : Bytes) : Bool := p.head?.any isDigit

/-- A loop of `njs_atod` over digits and one dot: the bytes it passes and those it stops at.
`moved` is `p > p_start` and `dot` is `dot_pos >= 0`. -/
def digitsLoop (digit : UInt8 → Bool) (moved dot : Bool) : Bytes → Bytes × Bool × Bool × Bytes
  | [] => ([], moved, dot, [])
  | ch :: p =>
    if ch = chr '.' && (moved || atDigit p) then
      if dot then ([], moved, dot, ch :: p)
      else
        let (text, r) := digitsLoop digit true true p
        (ch :: text, r)
    else if digit ch then
      let (text, r) := digitsLoop digit true dot p
      (ch :: text, r)
    else ([], moved, dot, ch :: p)

def takeSign (p : Bytes) : Bytes × Bytes :=
  match p with
  | ch :: q => if ch = chr '+' ∨ ch = chr '-' then ([ch], q) else ([], p)
  | [] => ([], [])

/-- The exponent at the beginning of a text; without a digit there is none. -/
def takeExponent (p : Bytes) : Bytes × Bytes :=
  match p with
  | ch :: q =>
    if ch = chr 'e' ∨ ch = chr 'E' then
      let (sign, q) := takeSign q
      if atDigit q then (ch :: (sign ++ q.takeWhile isDigit), q.dropWhile isDigit) else ([], p)
    else ([], p)
  | [] => ([], [])

/-- `njs_atod(p, &end, 10, 0)`: the numeral it reads and the text at `end`, if the result is a
number. -/
def njsAtod (p : Bytes) : Option (Bytes × Bytes) :=
  let (sign, p) := takeSign p
  if lit "Infinity" <+: p then some (sign ++ lit "Infinity", p.drop (lit "Infinity").length)
  else
    let (zeros, moved, dot, p) := digitsLoop (· = chr '0') false false p
    let (digits, moved, _, p) := digitsLoop isDigit moved dot p
    if moved then
      let (exponent, p) := takeExponent p
      some (sign ++ zeros ++ digits ++ exponent, p)
    else none

def njsJsonParseNumber (atod : Bytes → ν) (p : Bytes) : Except Error (Value ν × Bytes) :=
  match njsAtod p with
  | some (text, p) => .ok (.number (atod text), p)
  | none => parseException "Unexpected number" p

/-! ### Strings -/

/-- One more byte of text, with what it adds to the surplus. -/
def scanned (ch : UInt8) (n : ℕ) :
    Except Error (Bytes × ℕ × Bytes) → Except Error (Bytes × ℕ × Bytes)
  | .ok (text, surplus, p) => .ok (ch :: text, surplus + n, p)
  | .error e => .error e

/-- The first pass over a string: the text up to the closing quote, the surplus of its escapes over
what they stand for, and the text after the quote. -/
def scanString : ScanState → Bytes → Except Error (Bytes × ℕ × Bytes)
  | _, [] => parseException "Unexpected end of input" []
  | .usual, ch :: p =>
    if ch = chr '"' then .ok ([], 0, p)
    else if ch = chr '\\' then scanned ch 0 (scanString .escape p)
    else if ch ≥ chr ' ' then scanned ch 0 (scanString .usual p)
    else parseException "Forbidden source char" (ch :: p)
  | .escape, ch :: p =>
    if isEscapeChar ch then scanned ch 1 (scanString .usual p)
    else if ch = chr 'u' then scanned ch 3 (scanString .encoded1 p)
    else parseException "Unknown escape char" (ch :: p)
  | .encoded1, ch :: p =>
    if isHexDigit ch then scanned ch 0 (scanString .encoded2 p)
    else parseException "Invalid Unicode escape sequence" (ch :: p)
  | .encoded2, ch :: p =>
    if isHexDigit ch then scanned ch 0 (scanString .encoded3 p)
    else parseException "Invalid Unicode escape sequence" (ch :: p)
  | .encoded3, ch :: p =>
    if isHexDigit ch then scanned ch 0 (scanString .encoded4 p)
    else parseException "Invalid Unicode escape sequence" (ch :: p)
  | .encoded4, ch :: p =>
    if isHexDigit ch then scanned ch 0 (scanString .usual p)
    else parseException "Invalid Unicode escape sequence" (ch :: p)

/-- `njs_json_parse_string`, from the opening quote on. The second pass is that of the reader of
state files, byte for byte. -/
def njsJsonParseString (p : Bytes) : Except Error (Bytes × Bytes) :=
  match scanString .usual p.tail with
  | .error e => .error e
  | .ok (text, surplus, p) =>
    if surplus = 0 then .ok (text, p)
    else if (unescape text).length ≤ text.length - surplus then .ok (unescape text, p)
    else .error .overflow

/-! ### Values -/

/-- `njs_flathsh_unique_insert` with `replace`: a member of the same name is replaced in its
place. -/
def setMember (name : Bytes) (value : Value ν) : List (Bytes × Value ν) → List (Bytes × Value ν)
  | [] => [(name, value)]
  | m :: members =>
    if m.1 = name then (name, value) :: members else m :: setMember name value members

mutual

/-- `njs_json_parse_value`; `depth` is `ctx->depth`. -/
def njsJsonParseValue (atod : Bytes → ν) : ℕ → ℕ → Bytes → Except Error (Value ν × Bytes)
  | 0, _, _ => .error .rounds
  | rounds + 1, depth, p =>
    let ch := p.headD 0
    if ch = chr '\x7b' then
      if depth - 1 = 0 then parseException "Nested too deep" p
      else
        match objectLoop atod rounds (depth - 1) [] p.tail with
        | .error e => .error e
        | .ok (members, p) => .ok (.object members, p)
    else if ch = chr '[' then
      if depth - 1 = 0 then parseException "Nested too deep" p
      else
        match arrayLoop atod rounds (depth - 1) [] p.tail with
        | .error e => .error e
        | .ok (elements, p) => .ok (.array elements, p)
    else if ch = chr '"' then
      match njsJsonParseString p with
      | .error e => .error e
      | .ok (s, p) => .ok (.string s, p)
    else if ch = chr 't' then
      if lit "true" <+: p then .ok (.boolean true, p.drop 4)
      else parseException "Unexpected token" p
    else if ch = chr 'f' then
      if lit "false" <+: p then .ok (.boolean false, p.drop 5)
      else parseException "Unexpected token" p
    else if ch = chr 'n' then
      if lit "null" <+: p then .ok (.null, p.drop 4)
      else parseException "Unexpected token" p
    -- The difference is an `int`, so that every byte up to the digits passes.
    else if ch = chr '-' ∨ (ch.toNat : ℤ) - (chr '0').toNat ≤ 9 then njsJsonParseNumber atod p
    else parseException "Unexpected token" p

/-- The loop of `njs_json_parse_object`, from the byte after the brace or the comma on. -/
def objectLoop (atod : Bytes → ν) :
    ℕ → ℕ → List (Bytes × Value ν) → Bytes → Except Error (List (Bytes × Value ν) × Bytes)
  | 0, _, _, _ => .error .rounds
  | rounds + 1, depth, members, p =>
    match njsJsonSkipSpace p with
    | [] => parseException "Unexpected end of input" []
    | ch :: p =>
      if ch ≠ chr '"' then
        if ch = chr '\x7d' then
          -- The position is one byte before the brace.
          if members ≠ [] then .error (.syntaxError "Trailing comma" (p.length + 2))
          else .ok (members, p)
        else parseException "Unexpected token" (ch :: p)
      else
        match njsJsonParseString (ch :: p) with
        | .error e => .error e
        | .ok (name, p) =>
          match njsJsonSkipSpace p with
          | [] => parseException "Unexpected token" []
          | ch :: p =>
            if ch ≠ chr ':' then parseException "Unexpected token" (ch :: p)
            else
              match njsJsonSkipSpace p with
              | [] => parseException "Unexpected end of input" []
              | ch :: p =>
                match njsJsonParseValue atod rounds depth (ch :: p) with
                | .error e => .error e
                | .ok (value, p) =>
                  let members := setMember name value members
                  match njsJsonSkipSpace p with
                  | [] => parseException "Unexpected end of input" []
                  | ch :: p =>
                    if ch ≠ chr ',' then
                      if ch = chr '\x7d' then .ok (members, p)
                      else parseException "Unexpected token" (ch :: p)
                    else objectLoop atod rounds depth members p

/-- The loop of `njs_json_parse_array`, from the byte after the bracket or the comma on. -/
def arrayLoop (atod : Bytes → ν) :
    ℕ → ℕ → List (Value ν) → Bytes → Except Error (List (Value ν) × Bytes)
  | 0, _, _, _ => .error .rounds
  | rounds + 1, depth, elements, p =>
    match njsJsonSkipSpace p with
    | [] => parseException "Unexpected end of input" []
    | ch :: p =>
      if ch = chr ']' then
        if elements ≠ [] then .error (.syntaxError "Trailing comma" (p.length + 2))
        else .ok (elements, p)
      else
        match njsJsonParseValue atod rounds depth (ch :: p) with
        | .error e => .error e
        | .ok (element, p) =>
          let elements := elements ++ [element]
          match njsJsonSkipSpace p with
          | [] => parseException "Unexpected end of input" []
          | ch :: p =>
            if ch ≠ chr ',' then
              if ch = chr ']' then .ok (elements, p)
              else parseException "Unexpected token" (ch :: p)
            else arrayLoop atod rounds depth elements p

end

/-- `njs_json_parse`. A value takes two rounds for a byte at most. -/
def njsJsonParse (atod : Bytes → ν) (text : Bytes) : Except Error (Value ν) :=
  match njsJsonSkipSpace text with
  | [] => parseException "Unexpected end of input" []
  | ch :: p =>
    match njsJsonParseValue atod (2 * (ch :: p).length) njsJsonMaxDepth (ch :: p) with
    | .error e => .error e
    | .ok (value, p) =>
      match njsJsonSkipSpace p with
      | [] => .ok value
      | ch :: p => parseException "Unexpected token" (ch :: p)

end Njs.Json
