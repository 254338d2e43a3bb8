import Njs.Lib.Decimal
import Njs.Lib.HttpFields
import Njs.Lib.Multimap

/-!
# HTTP/1.1 requests

A request as its recipient reads it from the bytes of a connection: the request line, field lines,
and a body, whose end is given by the fields.
-/

namespace Http

open Text Decimal

/-- The end of a line. -/
def crlf : Bytes := [0x0d, 0x0a]

/-! ### Lines -/

def takeLine : Bytes → Option (Bytes × Bytes)
  | [] => none
  | c :: s =>
    if c = 0x0d then
      if s.head? = some 0x0a then some ([], s.tail) else none
    else if c = 0x0a then none
    else (takeLine s).map fun l => (c :: l.1, l.2)

/-- Neither CR nor LF. -/
def isLineChar (c : UInt8) : Bool := c ≠ 0x0d && c ≠ 0x0a

theorem takeLine_append {line : Bytes} (h : line.all isLineChar = true) (s : Bytes) :
    takeLine (line ++ crlf ++ s) = some (line, s) := by
  induction line with
  | nil => rfl
  | cons c line ih =>
    rw [List.all_cons, Bool.and_eq_true, isLineChar, Bool.and_eq_true] at h
    rw [List.cons_append, List.cons_append, takeLine, if_neg (of_decide_eq_true h.1.1),
      if_neg (of_decide_eq_true h.1.2), ih h.2]
    rfl

variable {s rest : Bytes} {fuel : ℕ}

theorem takeLine_eq_some {line : Bytes} (h : takeLine s = some (line, rest)) :
    s = line ++ crlf ++ rest ∧ line.all isLineChar = true := by
  induction s generalizing line with
  | nil => cases h
  | cons c s ih =>
    rw [takeLine] at h
    split_ifs at h with hcr hhead hlf
    · obtain ⟨rfl, rfl⟩ := Prod.mk.inj (Option.some.inj h)
      exact ⟨by rw [hcr, ← List.cons_head?_tail hhead]; rfl, rfl⟩
    obtain ⟨⟨l, r⟩, hl, heq⟩ := Option.map_eq_some_iff.mp h
    obtain ⟨rfl, rfl⟩ := Prod.mk.inj heq
    obtain ⟨hs, hall⟩ := ih hl
    refine ⟨by rw [hs]; rfl, ?_⟩
    rw [List.all_cons, hall, Bool.and_true, isLineChar, Bool.and_eq_true]
    exact ⟨decide_eq_true hcr, decide_eq_true hlf⟩

theorem isLineChar_of_isFieldChar {c : UInt8} (h : isFieldChar c = true) : isLineChar c = true := by
  revert h
  exact forall_byte (p := fun c => isFieldChar c = true → isLineChar c = true)
    (by decide) c

theorem isLineChar_of_isTchar {c : UInt8} (h : isTchar c = true) : isLineChar c = true := by
  revert h
  exact forall_byte (p := fun c => isTchar c = true → isLineChar c = true) (by decide) c

/-! ### Fields -/

def parseField (line : Bytes) : Option (Bytes × Bytes) :=
  match line.dropWhile isTchar with
  | c :: value =>
    if c = chr ':' ∧ line.takeWhile isTchar ≠ [] ∧ value.all isFieldChar = true then
      some (line.takeWhile isTchar, strip value)
    else none
  | [] => none

def parseFields : ℕ → Bytes → Option (List (Bytes × Bytes) × Bytes)
  | 0, _ => none
  | fuel + 1, s =>
    (takeLine s).bind fun l =>
      if l.1 = [] then some ([], l.2)
      else (parseField l.1).bind fun field =>
        (parseFields fuel l.2).map fun fields => (field :: fields.1, fields.2)

def joinLines (lines : List Bytes) : Bytes := lines.flatMap (· ++ crlf)

@[simp] theorem joinLines_nil : joinLines [] = [] := rfl

@[simp] theorem joinLines_cons (line : Bytes) (lines : List Bytes) :
    joinLines (line :: lines) = line ++ crlf ++ joinLines lines := rfl

@[simp] theorem joinLines_append (l₁ l₂ : List Bytes) :
    joinLines (l₁ ++ l₂) = joinLines l₁ ++ joinLines l₂ := List.flatMap_append

theorem parseFields_lines {lines : List Bytes}
    (h : ∀ line ∈ lines, line ≠ [] ∧ line.all isLineChar = true) (s : Bytes)
    (hfuel : lines.length < fuel) :
    parseFields fuel (joinLines lines ++ (crlf ++ s)) =
      (lines.mapM parseField).map fun fields => (fields, s) := by
  induction lines generalizing fuel with
  | nil =>
    obtain ⟨fuel, rfl⟩ : ∃ n, fuel = n + 1 := ⟨fuel - 1, by simp at hfuel; omega⟩
    rfl
  | cons line lines ih =>
    obtain ⟨fuel, rfl⟩ : ∃ n, fuel = n + 1 := ⟨fuel - 1, by simp at hfuel; omega⟩
    obtain ⟨hne, hall⟩ := h line List.mem_cons_self
    have hfuel' : lines.length < fuel := by simpa using hfuel
    have hrest := ih (fun l hl => h l (List.mem_cons_of_mem line hl)) hfuel'
    rw [joinLines_cons, parseFields, List.append_assoc, takeLine_append hall, Option.bind_some,
      if_neg hne, hrest, List.mapM_cons]
    cases parseField line with
    | none => rfl
    | some field =>
      cases lines.mapM parseField with
      | none => rfl
      | some fields => rfl

def ValidField (field : Bytes × Bytes) : Prop :=
  (field.1 ≠ [] ∧ field.1.all isTchar = true) ∧
    strip field.2 = field.2 ∧ field.2.all isFieldChar = true

theorem all_of_sublist {p : UInt8 → Bool} {l₁ l₂ : Bytes} (h : l₁.Sublist l₂)
    (hall : l₂.all p = true) : l₁.all p = true :=
  List.all_eq_true.mpr fun c hc => List.all_eq_true.mp hall c (h.subset hc)

theorem parseField_valid {line : Bytes} {field : Bytes × Bytes}
    (h : parseField line = some field) : ValidField field := by
  rw [parseField] at h
  split at h
  · split_ifs at h with hcond
    obtain ⟨-, hne, hall⟩ := hcond
    cases h
    exact ⟨⟨hne, List.all_takeWhile⟩, strip_strip _, all_of_sublist (strip_sublist _) hall⟩
  · cases h

theorem parseFields_valid {fields : List (Bytes × Bytes)}
    (h : parseFields fuel s = some (fields, rest)) : ∀ field ∈ fields, ValidField field := by
  induction fuel generalizing s fields with
  | zero => cases h
  | succ fuel ih =>
    obtain ⟨l, -, h⟩ := Option.bind_eq_some_iff.mp h
    split_ifs at h with hnil
    · cases h
      exact fun _ hf => nomatch hf
    obtain ⟨field, hfield, h⟩ := Option.bind_eq_some_iff.mp h
    obtain ⟨r, hr, heq⟩ := Option.map_eq_some_iff.mp h
    obtain ⟨rfl, rfl⟩ := Prod.mk.inj heq
    intro f hf
    obtain rfl | hf := List.mem_cons.mp hf
    · exact parseField_valid hfield
    · exact ih hr f hf

def fieldLine (name value : Bytes) : Bytes := name ++ lit ": " ++ value

theorem tchar_ne_colon {c : UInt8} (h : c = chr ':') : isTchar c = false := by
  rw [h]
  decide

theorem strip_cons_space (value : Bytes) : strip (chr ' ' :: value) = strip value := rfl

theorem parseField_fieldLine {name : Bytes} (hname : name.all isTchar = true) {value : Bytes}
    (hvalue : value.all isFieldChar = true) :
    parseField (fieldLine name value) = if name = [] then none else some (name, strip value) := by
  have hall : ∀ c ∈ name, isTchar c = true := List.all_eq_true.mp hname
  have hline : fieldLine name value = name ++ chr ':' :: chr ' ' :: value := by
    rw [fieldLine, List.append_assoc]
    rfl
  have hcolon : isTchar (chr ':') = false := tchar_ne_colon rfl
  have htake : (fieldLine name value).takeWhile isTchar = name := by
    rw [hline, List.takeWhile_append_of_pos hall, List.takeWhile_cons_of_neg (by simp [hcolon]),
      List.append_nil]
  have hdrop : (fieldLine name value).dropWhile isTchar = chr ':' :: chr ' ' :: value := by
    rw [hline, List.dropWhile_append_of_pos hall, List.dropWhile_cons_of_neg (by simp [hcolon])]
  have hspace : (chr ' ' :: value).all isFieldChar = true := by
    rw [List.all_cons, hvalue]
    decide
  rw [parseField, hdrop]
  simp only [htake, hspace, strip_cons_space]
  by_cases hne : name = [] <;> simp [hne]

def Readable (field : Bytes × Bytes) : Prop :=
  field.1.all isTchar = true ∧ strip field.2 = field.2 ∧ field.2.all isFieldChar = true

def fieldLines (fields : List (Bytes × Bytes)) : List Bytes :=
  fields.map fun field => fieldLine field.1 field.2

@[simp] theorem fieldLines_append (l₁ l₂ : List (Bytes × Bytes)) :
    fieldLines (l₁ ++ l₂) = fieldLines l₁ ++ fieldLines l₂ := List.map_append

theorem mapM_fieldLines {fields : List (Bytes × Bytes)} (h : ∀ field ∈ fields, Readable field) :
    (fieldLines fields).mapM parseField =
      if ∀ field ∈ fields, field.1 ≠ [] then some fields else none := by
  induction fields with
  | nil => rfl
  | cons field fields ih =>
    obtain ⟨hname, hstrip, hvalue⟩ := h field List.mem_cons_self
    have hrest := ih fun f hf => h f (List.mem_cons_of_mem field hf)
    rw [fieldLines] at hrest ⊢
    rw [List.map_cons, List.mapM_cons, parseField_fieldLine hname hvalue, hrest, hstrip]
    by_cases hne : field.1 = []
    · have hnot : ¬∀ f ∈ field :: fields, f.1 ≠ [] := fun h => h field List.mem_cons_self hne
      rw [if_pos hne, if_neg hnot]
      rfl
    have hcons : (∀ f ∈ field :: fields, f.1 ≠ []) ↔ ∀ f ∈ fields, f.1 ≠ [] := by
      simp [hne]
    rw [if_neg hne]
    by_cases hall : ∀ f ∈ fields, f.1 ≠ []
    · rw [if_pos hall, if_pos (hcons.mpr hall)]
      rfl
    · rw [if_neg hall, if_neg (mt hcons.mp hall)]
      rfl

theorem fieldLines_isLine {fields : List (Bytes × Bytes)} (h : ∀ field ∈ fields, Readable field) :
    ∀ line ∈ fieldLines fields, line ≠ [] ∧ line.all isLineChar = true := by
  intro line hline
  obtain ⟨field, hfield, rfl⟩ := List.mem_map.mp hline
  obtain ⟨hname, -, hvalue⟩ := h field hfield
  refine ⟨by simp [fieldLine, lit], ?_⟩
  have hn : field.1.all isLineChar = true :=
    List.all_eq_true.mpr fun c hc => isLineChar_of_isTchar (List.all_eq_true.mp hname c hc)
  have hv : field.2.all isLineChar = true :=
    List.all_eq_true.mpr fun c hc => isLineChar_of_isFieldChar (List.all_eq_true.mp hvalue c hc)
  rw [fieldLine, List.all_append, List.all_append, hn, hv]
  decide

/-! ### The chunked coding -/

def hexValue (c : UInt8) : Option ℕ :=
  if chr '0' ≤ c ∧ c ≤ chr '9' then some (c - chr '0').toNat
  else if chr 'a' ≤ Http.lower c ∧ Http.lower c ≤ chr 'f' then
    some ((Http.lower c - chr 'a').toNat + 10)
  else none

def chunkSize (line : Bytes) : Option ℕ :=
  let digits := line.takeWhile fun c => (hexValue c).isSome
  let extension := line.dropWhile fun c => (hexValue c).isSome
  if digits ≠ [] ∧ extension.all isFieldChar = true ∧
      (extension = [] ∨ (extension.dropWhile isOws).head? = some (chr ';')) then
    some ((digits.filterMap hexValue).foldl (fun n d => 16 * n + d) 0)
  else none

def decodeChunked : ℕ → Bytes → Option (Bytes × Bytes)
  | 0, _ => none
  | fuel + 1, s =>
    (takeLine s).bind fun l =>
      (chunkSize l.1).bind fun size =>
        if size = 0 then (parseFields (l.2.length + 1) l.2).map fun t => ([], t.2)
        else if l.2.length < size then none
        else
          match l.2.drop size with
          | 0x0d :: 0x0a :: s => (decodeChunked fuel s).map fun r => (l.2.take size ++ r.1, r.2)
          | _ => none

theorem parseFields_length {fields : List (Bytes × Bytes)}
    (h : parseFields fuel s = some (fields, rest)) : rest.length < s.length := by
  induction fuel generalizing s fields with
  | zero => cases h
  | succ fuel ih =>
    obtain ⟨⟨line, s'⟩, hl, h⟩ := Option.bind_eq_some_iff.mp h
    have hlen : s'.length + 2 ≤ s.length := by
      rw [(takeLine_eq_some hl).1]
      simp [crlf]
    simp only at h
    split_ifs at h with hnil
    · cases h
      omega
    · obtain ⟨field, -, h⟩ := Option.bind_eq_some_iff.mp h
      obtain ⟨r, hr, heq⟩ := Option.map_eq_some_iff.mp h
      obtain ⟨rfl, rfl⟩ := Prod.mk.inj heq
      have hrest := ih hr
      omega

theorem decodeChunked_length {data : Bytes} (h : decodeChunked fuel s = some (data, rest)) :
    data.length + rest.length < s.length := by
  induction fuel generalizing s data with
  | zero => cases h
  | succ fuel ih =>
    obtain ⟨⟨line, s'⟩, hl, h⟩ := Option.bind_eq_some_iff.mp h
    obtain ⟨size, -, h⟩ := Option.bind_eq_some_iff.mp h
    have hlen : s'.length + 2 ≤ s.length := by
      rw [(takeLine_eq_some hl).1]
      simp [crlf]
    simp only at h
    split_ifs at h with hzero hshort
    · obtain ⟨⟨fields, r⟩, hr, heq⟩ := Option.map_eq_some_iff.mp h
      obtain ⟨rfl, rfl⟩ := Prod.mk.inj heq
      have hfields := parseFields_length hr
      simp only [List.length_nil] at hfields ⊢
      omega
    split at h
    · rename_i s'' hdrop
      obtain ⟨r, hr, heq⟩ := Option.map_eq_some_iff.mp h
      obtain ⟨rfl, rfl⟩ := Prod.mk.inj heq
      have hchunks := ih hr
      have hlen' := congrArg List.length hdrop
      simp only [List.length_drop, List.length_cons] at hlen'
      simp only [List.length_append, List.length_take]
      omega
    · cases h

/-! ### Requests -/

structure Request where
  method : Bytes
  target : Bytes
  fields : List (Bytes × Bytes)
  body : Bytes
  deriving DecidableEq

def isTargetChar (c : UInt8) : Bool := 0x21 ≤ c && c ≠ 0x7f

def parseRequestLine (line : Bytes) : Option (Bytes × Bytes) :=
  let method := line.takeWhile isTchar
  let rest := line.dropWhile isTchar
  let target := rest.tail.takeWhile isTargetChar
  if method ≠ [] ∧ rest.head? = some (chr ' ') ∧ target ≠ [] ∧
      rest.tail.dropWhile isTargetChar = lit " HTTP/1.1" then
    some (method, target)
  else none

def contentLength (value : Bytes) : Option ℕ :=
  match readDigits value with
  | (d :: l, []) => some (ofDigits (d :: l))
  | _ => none

/-- The body that fields announce, and the bytes after it. The coding of a transfer comes before a
length, and the last of the codings has to be the chunked one; there is one length at most. -/
def takeBody (fields : List (Bytes × Bytes)) (s : Bytes) : Option (Bytes × Bytes) :=
  match Multimap.values fold (lit "Transfer-Encoding") fields with
  | [] =>
    match Multimap.values fold (lit "Content-Length") fields with
    | [] => some ([], s)
    | [value] =>
      (contentLength value).bind fun n =>
        if s.length < n then none else some (s.take n, s.drop n)
    | _ => none
  | [value] => if fold value = lit "chunked" then decodeChunked s.length s else none
  | _ => none

def parseRequest (s : Bytes) : Option (Request × Bytes) :=
  (takeLine s).bind fun l =>
    (parseRequestLine l.1).bind fun line =>
      (parseFields l.2.length l.2).bind fun fields =>
        if (Multimap.values fold (lit "Host") fields.1).length = 1 then
          (takeBody fields.1 fields.2).map fun body => (⟨line.1, line.2, fields.1, body.1⟩, body.2)
        else none

theorem parseRequest_valid {r : Request} (h : parseRequest s = some (r, rest)) :
    (r.method ≠ [] ∧ r.method.all isTchar = true) ∧ r.target.all isTargetChar = true ∧
      ∀ field ∈ r.fields, ValidField field := by
  obtain ⟨l, -, h⟩ := Option.bind_eq_some_iff.mp h
  obtain ⟨line, hline, h⟩ := Option.bind_eq_some_iff.mp h
  obtain ⟨fields, hfields, h⟩ := Option.bind_eq_some_iff.mp h
  split_ifs at h with hhost
  obtain ⟨body, -, heq⟩ := Option.map_eq_some_iff.mp h
  obtain ⟨rfl, rfl⟩ := Prod.mk.inj heq
  rw [parseRequestLine] at hline
  split_ifs at hline with hcond
  cases hline
  exact ⟨⟨hcond.1, List.all_takeWhile⟩, List.all_takeWhile, parseFields_valid hfields⟩

theorem parseRequestLine_append {method target : Bytes} (hne : method ≠ [])
    (hmethod : method.all isTchar = true) (hne' : target ≠ [])
    (htarget : target.all isTargetChar = true) :
    parseRequestLine (method ++ lit " " ++ target ++ lit " HTTP/1.1") = some (method, target) := by
  have hall : ∀ c ∈ method, isTchar c = true := List.all_eq_true.mp hmethod
  have hall' : ∀ c ∈ target, isTargetChar c = true := List.all_eq_true.mp htarget
  have hline : method ++ lit " " ++ target ++ lit " HTTP/1.1" =
      method ++ chr ' ' :: (target ++ lit " HTTP/1.1") := by
    simp [lit]
  have hspace : isTchar (chr ' ') = false := by decide
  have hversion : (lit " HTTP/1.1").takeWhile isTargetChar = [] ∧
      (lit " HTTP/1.1").dropWhile isTargetChar = lit " HTTP/1.1" := by decide
  rw [parseRequestLine, hline]
  simp only [List.takeWhile_append_of_pos hall, List.dropWhile_append_of_pos hall,
    List.takeWhile_cons, List.dropWhile_cons, hspace, Bool.false_eq_true, if_false,
    List.append_nil, List.tail_cons, List.head?_cons, List.takeWhile_append_of_pos hall',
    List.dropWhile_append_of_pos hall', hversion.1, hversion.2]
  rw [if_pos ⟨hne, trivial, hne', trivial⟩]

theorem parseRequest_lines {method target : Bytes} (hne : method ≠ [])
    (hmethod : method.all isTchar = true) (hne' : target ≠ [])
    (htarget : target.all isTargetChar = true) {lines : List Bytes}
    (hlines : ∀ line ∈ lines, line ≠ [] ∧ line.all isLineChar = true) (s : Bytes) :
    parseRequest (method ++ lit " " ++ target ++ lit " HTTP/1.1" ++ crlf ++
        (joinLines lines ++ (crlf ++ s))) =
      (lines.mapM parseField).bind fun fields =>
        if (Multimap.values fold (lit "Host") fields).length = 1 then
          (takeBody fields s).map fun body => (⟨method, target, fields, body.1⟩, body.2)
        else none := by
  have hline : (method ++ lit " " ++ target ++ lit " HTTP/1.1").all isLineChar = true := by
    have hm : method.all isLineChar = true :=
      List.all_eq_true.mpr fun c hc => isLineChar_of_isTchar (List.all_eq_true.mp hmethod c hc)
    have ht : target.all isLineChar = true := List.all_eq_true.mpr fun c hc => by
      have hc := List.all_eq_true.mp htarget c hc
      refine isLineChar_of_isFieldChar ?_
      rw [isFieldChar, Bool.or_eq_true]
      exact .inr hc
    rw [List.all_append, List.all_append, List.all_append, hm, ht]
    decide
  have hfuel : lines.length < (joinLines lines ++ (crlf ++ s)).length := by
    have hle : lines.length ≤ (joinLines lines).length := by
      clear hlines
      induction lines with
      | nil => exact Nat.le_refl 0
      | cons line lines ih =>
        simp [crlf]
        omega
    simp [crlf]
    omega
  rw [parseRequest, takeLine_append hline, Option.bind_some,
    parseRequestLine_append hne hmethod hne' htarget, Option.bind_some,
    parseFields_lines hlines s hfuel]
  cases lines.mapM parseField with
  | none => rfl
  | some fields => rfl

end Http
