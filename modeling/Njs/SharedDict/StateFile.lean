import Njs.Lib.Decimal
import Njs.SharedDict.Ops
import Njs.SharedDict.StateText

/-!
# The state file

A zone with a state file is written as JSON by `ngx_js_dict_render_json` and read when the server
starts by `ngx_js_dict_load`, which parses the file and inserts its entries into the empty zone.
Numbers are written by `njs_vsprintf` and read by `strtod`.

Memory for the text, for the parsed strings and for the array of parsed entries is assumed to
suffice.
-/

namespace Njs.SharedDict

open Decimal (Numeral)

/-! ### Numbers -/

/-- `strtod`, with the input up to the NUL that `ngx_js_dict_load` puts behind it. A numeral is
read as the number nearest to its value, and up to `2 ^ 53` every integer is a number. -/
structure Strtod where
  /-- The number and the rest of the input; `none` when there is no number, and `*endptr` is
  `nptr`. -/
  read : Bytes → Option (JsNumber × Bytes)
  round : ℚ → JsNumber
  read_numeral : ∀ (n : Numeral) (ch : UInt8) (p : Bytes), ch = chr ',' ∨ ch = chr '}' →
    read (n.text ++ ch :: p) = some (round n.value, ch :: p)
  read_bracket : ∀ p, read (chr '[' :: p) = none ∧ read (chr '-' :: chr '[' :: p) = none
  read_lt : ∀ p x q, read p = some (x, q) → q.length < p.length
  toMsec_round : ∀ n : ℕ, n ≤ 2 ^ 53 → JsNumber.toMsec (round n) = UInt64.ofNat n

/-- `strtod` on plain decimal numerals, with exact arithmetic. -/
def decimalStrtod : Strtod where
  read p := (Decimal.readNumeral p).map fun (q, p) => (.finite q, p)
  round := .finite
  read_numeral n ch p h := by
    rw [Decimal.readNumeral_text n]
    · rfl
    · rintro b hb
      obtain rfl : ch = b := Option.some.inj hb
      obtain rfl | rfl := h <;> decide
  read_bracket p := by
    constructor <;> rfl
  read_lt p x q h := by
    obtain ⟨⟨y, r⟩, hr, heq⟩ := Option.map_eq_some_iff.mp h
    obtain rfl : r = q := congrArg Prod.snd heq
    exact Decimal.readNumeral_lt hr
  toMsec_round n _ := by
    have hn : JsNumber.truncate (n : ℚ) = n := JsNumber.truncate_intCast n
    rw [JsNumber.toMsec, hn, Int.toNat_natCast]

/-- The loop of `njs_integer` and `njs_float`, which puts the digits before `buf`. -/
def digitLoop (n : ℕ) (buf : Bytes) : Bytes :=
  let buf := UInt8.ofNat (48 + n % 10) :: buf
  if n / 10 = 0 then buf else digitLoop (n / 10) buf
termination_by n
decreasing_by omega

/-- `njs_integer`: the digits after as many zeros as fill the width, cut off at `spf->end`. -/
def njsInteger (width : ℕ) (room : ℕ) (n : ℕ) : Bytes :=
  let digits := digitLoop n []
  (List.replicate (width - digits.length) (chr '0') ++ digits).take room

/-- The format `%.6f` of `njs_vsprintf`, with `room` bytes up to `end`. -/
def njsFloatText (room : ℕ) : JsNumber → Bytes
  | .nan => (literal ['[', 'n', 'a', 'n', ']']).take room
  | .infinity => (literal ['[', 'i', 'n', 'f', 'i', 'n', 'i', 't', 'y', ']']).take room
  | .negInfinity =>
    chr '-' :: (literal ['[', 'i', 'n', 'f', 'i', 'n', 'i', 't', 'y', ']']).take (room - 1)
  | .finite q =>
    let sign := if q < 0 then [chr '-'] else []
    let f := |q|
    let scale : ℕ := 10 ^ 6
    let i := ⌊f⌋₊
    let frac := ⌊(f - i) * scale + 1 / 2⌋₊
    let (i, frac) := if frac = scale then (i + 1, 0) else (i, frac)
    let buf := sign ++ (digitLoop i []).take (room - sign.length)
    if buf.length < room then
      buf ++ chr '.' :: njsInteger 6 (room - (buf.length + 1)) frac
    else buf

/-! ### The writer -/

/-- `"value":` with its quotes. -/
def valueMember : Bytes := literal ['"', 'v', 'a', 'l', 'u', 'e', '"', ':']

/-- `,"expire":` with its quotes. -/
def expireMember : Bytes := literal [',', '"', 'e', 'x', 'p', 'i', 'r', 'e', '"', ':']

/-- The size of the buffer for a number: `sizeof("\"value\":.") + 18 + 6`. -/
def numberSize : ℕ := 10 + 18 + 6

def renderValue (c : Conf) (z : Zone JsNumber) (a : Addr) : Option Bytes :=
  match c.type with
  | .string => (ngxJsRenderString (z.buf (z.node a).str)).map (valueMember ++ ·)
  | .number =>
    some (valueMember ++ njsFloatText (numberSize - valueMember.length) (z.node a).number)

/-- The loop of `ngx_js_dict_render_json`. -/
def renderNodes (c : Conf) (now : Msec) (z : Zone JsNumber) : List Addr → Option Bytes
  | [] => some []
  | rn :: next =>
    if c.timeout ≠ 0 ∧ now ≥ (z.node rn).expire then renderNodes c now z next
    else
      match ngxJsRenderString (z.node rn).key, renderValue c z rn, renderNodes c now z next with
      | some key, some value, some rest =>
        let expire :=
          if c.timeout ≠ 0 then expireMember ++ digitLoop (z.node rn).expire.toNat [] else []
        let comma := if next ≠ [] then [chr ','] else []
        some (key ++ literal [':', '{'] ++ value ++ expire ++ [chr '}'] ++ comma ++ rest)
      | _, _, _ => none

def ngxJsDictRenderJson (c : Conf) (now : Msec) (z : Zone JsNumber) : Option Bytes :=
  (renderNodes c now z z.rbtree).map fun entries => chr '{' :: entries ++ [chr '}']

/-! ### The reader -/

/-- `ngx_js_dict_entry_t`. -/
structure ParsedEntry where
  key : Bytes
  value : Value JsNumber
  expire : Msec

/-- White space of the state file. -/
def isSpace (ch : UInt8) : Bool :=
  ch ∈ literal [' ', '\t', '\r', '\n']

def ngxJsSkipSpace (p : Bytes) : Bytes := p.dropWhile isSpace

/-- The colon after a key, with the space on both sides of it. -/
def parseColon (p : Bytes) : Except StateError Bytes :=
  match ngxJsSkipSpace p with
  | [] => .error (.invalid "unexpected end of json" [])
  | ch :: p =>
    if ch ≠ chr ':' then .error (.invalid "unexpected character, expected ':'" p)
    else
      match ngxJsSkipSpace p with
      | [] => .error (.invalid "unexpected end of json" [])
      | p => .ok p

/-- The comma after a member, which may be missing. -/
def parseComma (p : Bytes) : Except StateError Bytes :=
  match ngxJsSkipSpace p with
  | [] => .error (.invalid "unexpected end of json" [])
  | ch :: p => .ok (if ch = chr ',' then p else ch :: p)

/-- The value of a member of an entry; `seeValue` is set by the member `value`. -/
def parseMember (strtod : Strtod) (c : Conf) (key : Bytes) (entry : ParsedEntry)
    (seeValue : Bool) (p : Bytes) : Except StateError (ParsedEntry × Bool × Bytes) :=
  if p.head? = some (chr '"') then
    match ngxJsDictParseString p with
    | .error e => .error e
    | .ok (str, p) =>
      if key = literal ['v', 'a', 'l', 'u', 'e'] then
        if c.type ≠ .string then .error (.invalid "expected string value" p)
        else .ok ({ entry with value := .str str }, true, p)
      else .ok (entry, seeValue, p)
  else
    match strtod.read p with
    | none => .error (.invalid "invalid number value" p)
    | some (number, p) =>
      if key = literal ['v', 'a', 'l', 'u', 'e'] then
        if c.type = .string then .error (.invalid "expected number value" p)
        else .ok ({ entry with value := .number number }, true, p)
      else if key = literal ['e', 'x', 'p', 'i', 'r', 'e'] then
        .ok ({ entry with expire := JsNumber.toMsec number }, seeValue, p)
      else .ok (entry, seeValue, p)

/-- The loop of `ngx_js_dict_parse_entry`. Every round reads a byte at least. -/
def parseEntryLoop (strtod : Strtod) (c : Conf) :
    ℕ → ParsedEntry → Bool → Bytes → Except StateError (ParsedEntry × Bytes)
  | 0, _, _, _ => .error .rounds
  | rounds + 1, entry, seeValue, p =>
    match ngxJsSkipSpace p with
    | [] => .error (.invalid "unexpected end of json" [])
    | ch :: p =>
      if ch = chr '}' then
        if seeValue then .ok (entry, p) else .error (.invalid "missing value" (ch :: p))
      else do
        let (key, p) ← ngxJsDictParseString (ch :: p)
        let p ← parseColon p
        let (entry, seeValue, p) ← parseMember strtod c key entry seeValue p
        let p ← parseComma p
        parseEntryLoop strtod c rounds entry seeValue p

def ngxJsDictParseEntry (strtod : Strtod) (c : Conf) (entry : ParsedEntry) :
    Bytes → Except StateError (ParsedEntry × Bytes)
  | [] => .error (.invalid "unexpected character, expected '\x7b'" [])
  | ch :: p =>
    if ch ≠ chr '{' then .error (.invalid "unexpected character, expected '\x7b'" p)
    else parseEntryLoop strtod c (p.length + 1) entry false p

/-- The loop of `ngx_js_dict_parse_state`. `junk` is what the memory of the array holds at the
coming entries, which `ngx_array_push` does not clear. -/
def parseStateLoop (strtod : Strtod) (c : Conf) :
    ℕ → (ℕ → ParsedEntry) → Bytes → Except StateError (List ParsedEntry × Bytes)
  | 0, _, _ => .error .rounds
  | rounds + 1, junk, p =>
    match ngxJsSkipSpace p with
    | [] => .error (.invalid "unexpected end of json" [])
    | ch :: p =>
      if ch = chr '}' then .ok ([], p)
      else do
        let (key, p) ← ngxJsDictParseString (ch :: p)
        let p ← parseColon p
        let (entry, p) ← ngxJsDictParseEntry strtod c { junk 0 with key } p
        let p ← parseComma p
        let (entries, p) ← parseStateLoop strtod c rounds (fun i => junk (i + 1)) p
        .ok (entry :: entries, p)

def ngxJsDictParseState (strtod : Strtod) (c : Conf) (junk : ℕ → ParsedEntry) (buf : Bytes) :
    Except StateError (List ParsedEntry) :=
  match ngxJsSkipSpace buf with
  | [] => .error (.invalid "empty json" [])
  | ch :: p =>
    if ch ≠ chr '{' then .error (.invalid "json must start with '\x7b'" p)
    else do
      let (entries, p) ← parseStateLoop strtod c (p.length + 1) junk p
      match ngxJsSkipSpace p with
      | [] => .ok entries
      | p => .error (.invalid "unexpected character, expected end of json" p)

/-! ### The loader -/

/-- `dict->sh->dirty = 1`, set by the loader. -/
def setDirty (z : Zone JsNumber) : Zone JsNumber := { z with dirty := true }

/-- What the loader makes of the expiry time of a parsed entry: the time that it hands to the
insertion, and whether the zone differs from the file; no time for an entry that has expired. -/
def loadExpire (c : Conf) (now : Msec) (expire : Msec) : Option (Msec × Bool) :=
  if c.timeout ≠ 0 then
    if expire ≠ 0 ∧ now ≥ expire then none
    else if expire = 0 then some (now + c.timeout, true)
    else some (expire, false)
  else some (0, false)

/-- The loop of `ngx_js_dict_load`. -/
def loadEntries (c : Conf) (now : Msec) : List ParsedEntry → Zone JsNumber → Zone JsNumber × Rc
  | [], z => (z, .ok)
  | e :: entries, z =>
    match loadExpire c now e.expire with
    | none => loadEntries c now entries (setDirty z)
    | some (expire, dirty) =>
      let z := if dirty then setDirty z else z
      if ngxJsDictLookup z e.key ≠ none then (z, .error)
      else
        match ngxJsDictAddValue c e.key e.value expire 1 z with
        | (z, .ok) => loadEntries c now entries z
        | (z, _) => (z, .error)

/-- `ngx_js_dict_load`, where `file` is the contents of the state file if it exists. -/
def ngxJsDictLoad (strtod : Strtod) (c : Conf) (junk : ℕ → ParsedEntry) (now : Msec)
    (file : Option Bytes) (z : Zone JsNumber) : Zone JsNumber × Rc :=
  if c.stateFile = false then (z, .ok)
  else
    match file with
    | none => (z, .ok)
    | some buf =>
      if buf = [] then (z, .ok)
      else
        match ngxJsDictParseState strtod c junk buf with
        | .error _ => (z, .error)
        | .ok entries => loadEntries c now entries z

end Njs.SharedDict
