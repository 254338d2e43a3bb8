import Njs.Query.Parts

/-!
# Query strings are read back
-/

namespace Njs.Query

open Indices Text

/-- A string, or an array of at least two strings. -/
inductive Field
  | string (text : List Char)
  | array (first second : List Char) (texts : List (List Char))

namespace Field

/-- The strings. -/
def texts : Field → List (List Char)
  | string text => [text]
  | array first second texts => first :: second :: texts

/-- The value as `stringify` reads it. -/
def item : Field → Item
  | string text => .scalar (.string (bytes text))
  | array first second texts =>
    .array ((first :: second :: texts).map fun text => .string (bytes text))

/-- The value as `parse` makes it. -/
def value : Field → PropValue
  | string text => .string (bytes text)
  | array first second texts =>
    .array ((first :: second :: texts).map fun text => .string (bytes text))

end Field

/-- Keys and values in the order in which they are enumerated. -/
abbrev Fields : Type := List (List Char × Field)

/-- The object as `stringify` reads it. -/
def toItems (object : Fields) : List (Bytes × Item) := object.map fun p => (bytes p.1, p.2.item)

def valueOf (object : Fields) (name : Bytes) : Option PropValue :=
  (object.find? fun p => bytes p.1 = name).map fun p => p.2.value

/-- An object is read back from its query string: the result has its keys and values. -/
def RoundTrips (realm : Realm) (sep eq : Char) (object : Fields) : Prop :=
  let sep := String.utf8EncodeChar sep
  let eq := String.utf8EncodeChar eq
  let str := njsQueryStringStringify (toItems object) (some sep) (some eq)
  ∀ name, (njsQueryStringParse realm str (some sep) (some eq) none).own.lookup name =
    valueOf object name

def textPairs (object : Fields) : List TextPair :=
  object.flatMap fun p => p.2.texts.map fun text => (p.1, text)

/-! ### Objects from pairs -/

/-- The value of a key from the strings that belong to it. -/
def represent : List Bytes → Option PropValue
  | [] => none
  | [s] => some (.string s)
  | values => some (.array (values.map .string))

/-- The strings that belong to a key. -/
def valuesOf (name : Bytes) (pairs : List (Bytes × Bytes)) : List Bytes :=
  (pairs.filter fun p => p.1 = name).map Prod.snd

theorem represent_append {values : List Bytes} (hvalues : values ≠ []) (s : Bytes) :
    represent (values ++ [s]) = some (.array ((values ++ [s]).map .string)) := by
  match values with
  | [] => exact absurd rfl hvalues
  | [_] => rfl
  | _ :: _ :: _ => rfl

theorem represent_injective {values values' : List Bytes}
    (h : represent values = represent values') : values = values' := by
  have hmap : Function.Injective (List.map PropValue.string) :=
    List.map_injective_iff.2 fun a b hab => PropValue.string.inj hab
  match values, values' with
  | [], [] => rfl
  | [], [_] => exact nomatch h
  | [], _ :: _ :: _ => exact nomatch h
  | [_], [] => exact nomatch h
  | [a], [b] => exact congrArg (fun s => [s]) (PropValue.string.inj (Option.some.inj h))
  | [_], _ :: _ :: _ => exact nomatch h
  | _ :: _ :: _, [] => exact nomatch h
  | _ :: _ :: _, [_] => exact nomatch h
  | a :: b :: l, c :: d :: l' => exact hmap (PropValue.array.inj (Option.some.inj h))

theorem valuesOf_append (name : Bytes) (pairs pairs' : List (Bytes × Bytes)) :
    valuesOf name (pairs ++ pairs') = valuesOf name pairs ++ valuesOf name pairs' := by
  rw [valuesOf, List.filter_append, List.map_append]
  rfl

variable {p : Bytes × Bytes} {pairs : List (Bytes × Bytes)} {realm : Realm} {obj : Obj}
  {name : Bytes}

theorem valuesOf_ne_nil (hp : p ∈ pairs) : valuesOf p.1 pairs ≠ [] := by
  have hmem : p.2 ∈ valuesOf p.1 pairs :=
    List.mem_map_of_mem (List.mem_filter.2 ⟨hp, decide_eq_true rfl⟩)
  exact List.ne_nil_of_mem hmem

def Inherits (realm : Realm) (name : Bytes) : Prop :=
  name = protoName ∨ realm.object name ≠ none

/-- An object into which only own keys have been put. -/
structure Holds (realm : Realm) (pairs : List (Bytes × Bytes)) (obj : Obj) : Prop where
  proto : obj.proto = none
  inherited : obj.inherited = realm.object
  own : ∀ name, obj.own.lookup name = represent (valuesOf name pairs)

theorem Holds.get (h : Holds realm pairs obj) (hname : ¬Inherits realm name) :
    obj.get name = represent (valuesOf name pairs) := by
  rw [Inherits, not_or, not_not] at hname
  have hlookup : obj.lookup name = none := by
    rw [Obj.lookup, h.proto]
    exact (if_neg hname.1).trans (h.inherited ▸ hname.2)
  rw [Obj.get, h.own]
  split
  · rename_i value heq
    exact heq.symm
  · rename_i heq
    rw [hlookup, heq]

theorem Holds.insert (h : Holds realm pairs obj) {value : PropValue}
    (hvalue : represent (valuesOf p.1 pairs ++ [p.2]) = some value) :
    Holds realm (pairs ++ [p]) { obj with own := obj.own.insert p.1 value } := by
  refine ⟨h.proto, h.inherited, fun name => ?_⟩
  rw [valuesOf_append]
  by_cases hname : name = p.1
  · have hp : valuesOf name [p] = [p.2] := by simp [valuesOf, hname]
    rw [hp, hname, hvalue]
    exact AList.lookup_insert _
  · have hp : valuesOf name [p] = [] := by simp [valuesOf, Ne.symm hname]
    rw [hp, List.append_nil, ← h.own]
    exact AList.lookup_insert_ne hname

theorem Holds.addValue (h : Holds realm pairs obj) (hp : ¬Inherits realm p.1) :
    Holds realm (pairs ++ [p]) (addValue realm false obj p) := by
  have hget := h.get hp
  have hown := h.own p.1
  have hset : ∀ value, obj.set realm p.1 value = { obj with own := obj.own.insert p.1 value } := by
    intro value
    exact if_neg fun hproto => hp (.inl hproto.1)
  rw [Query.addValue, hget]
  rcases hvalues : valuesOf p.1 pairs with _ | ⟨v, _ | ⟨w, values⟩⟩
  · show Holds realm _ (obj.set realm p.1 (.string p.2))
    rw [hset]
    exact h.insert (by rw [hvalues]; rfl)
  · show Holds realm _ (obj.set realm p.1 (.array [.string v, .string p.2]))
    rw [hset]
    exact h.insert (by rw [hvalues]; rfl)
  rw [hvalues] at hown
  have hsome : obj.own.lookup p.1 ≠ none := by
    rw [hown]
    exact nofun
  have hlast := represent_append (List.cons_ne_nil v (w :: values)) p.2
  rw [List.map_append] at hlast
  show Holds realm _ (obj.push p.1 ((v :: w :: values).map .string) (.string p.2))
  rw [Obj.push, if_neg hsome]
  refine h.insert ?_
  rw [hvalues]
  exact hlast

theorem lookup_addValues (h : ∀ p ∈ pairs, ¬Inherits realm p.1) :
    Holds realm pairs (pairs.foldl (addValue realm false) (.new realm)) := by
  induction pairs using List.reverseRecOn with
  | nil => exact ⟨rfl, rfl, fun _ => rfl⟩
  | append_singleton pairs p ih =>
    rw [List.foldl_append]
    exact (ih fun q hq => h q (List.mem_append_left [p] hq)).addValue
      (h p (List.mem_append_right pairs (List.mem_singleton_self p)))

/-! ### Inherited names -/

/-- `__proto__` never becomes an own key. -/
theorem lookup_protoName (realm : Realm) (pairs : List (Bytes × Bytes))
    (h : obj.own.lookup protoName = none) :
    (pairs.foldl (addValue realm false) obj).own.lookup protoName = none := by
  have hset : ∀ (obj : Obj) (name : Bytes) (value : PropValue), obj.own.lookup protoName = none →
      (obj.set realm name value).own.lookup protoName = none := by
    intro obj name value h
    rw [Obj.set.eq_def]
    split_ifs with hname
    · split
      · exact h
      · exact h
    · have hne : protoName ≠ name := fun heq => hname ⟨heq.symm, heq ▸ h⟩
      exact (AList.lookup_insert_ne hne).trans h
  have hpush : ∀ (obj : Obj) (name : Bytes) (values : List PropValue) (value : PropValue),
      obj.own.lookup protoName = none →
      (obj.push name values value).own.lookup protoName = none := by
    intro obj name values value h
    rw [Obj.push]
    split_ifs with hown hname
    · exact h
    · exact h
    · have hne : protoName ≠ name := fun heq => hown (heq ▸ h)
      exact (AList.lookup_insert_ne hne).trans h
  induction pairs generalizing obj with
  | nil => exact h
  | cons p pairs ih =>
    refine ih ?_
    rw [addValue]
    split
    · exact hset _ _ _ h
    · exact hpush _ _ _ _ h
    · exact hset _ _ _ h
    · exact hset _ _ _ h

def NoString (value : PropValue) : Prop := ∀ s, value ≠ .string s

/-- An object that still inherits a name or has it as an array that begins with what it
inherited. -/
structure Spoilt (name : Bytes) (obj : Obj) : Prop where
  proto : obj.proto = none
  spoilt : (obj.own.lookup name = none ∧ ∃ value, obj.inherited name = some value ∧
    NoString value) ∨
    ∃ value values, obj.own.lookup name = some (.array (value :: values)) ∧ NoString value

theorem Spoilt.insert (h : Spoilt name obj) {key : Bytes} {value : PropValue}
    (hvalue : key = name → ∃ first values, value = .array (first :: values) ∧ NoString first) :
    Spoilt name { obj with own := obj.own.insert key value } := by
  refine ⟨h.proto, ?_⟩
  by_cases hkey : key = name
  · obtain ⟨first, values, rfl, hfirst⟩ := hvalue hkey
    exact .inr ⟨first, values, hkey ▸ AList.lookup_insert _, hfirst⟩
  · have hlookup : (obj.own.insert key value).lookup name = obj.own.lookup name :=
      AList.lookup_insert_ne (Ne.symm hkey)
    rcases h.spoilt with ⟨hown, hinherited⟩ | ⟨first, values, hown, hfirst⟩
    · exact .inl ⟨hlookup.trans hown, hinherited⟩
    · exact .inr ⟨first, values, hlookup.trans hown, hfirst⟩

theorem Spoilt.get (h : Spoilt name obj) (hname : name ≠ protoName) :
    (obj.own.lookup name = none ∧ ∃ value, obj.get name = some value ∧ NoString value) ∨
      (obj.own.lookup name ≠ none ∧ ∃ value values,
        obj.get name = some (.array (value :: values)) ∧ NoString value) := by
  rcases h.spoilt with ⟨hown, value, hinherited, hvalue⟩ | ⟨value, values, hown, hvalue⟩
  · refine .inl ⟨hown, value, ?_, hvalue⟩
    rw [Obj.get, hown]
    dsimp only
    rw [Obj.lookup, h.proto]
    exact (if_neg hname).trans hinherited
  · refine .inr ⟨by rw [hown]; exact nofun, value, values, ?_, hvalue⟩
    rw [Obj.get, hown]

theorem Spoilt.addValue (realm : Realm) (h : Spoilt name obj) (hname : name ≠ protoName)
    (hp : p.1 ≠ protoName) : Spoilt name (addValue realm false obj p) := by
  have hset : ∀ value, obj.set realm p.1 value =
      { obj with own := obj.own.insert p.1 value } := fun value =>
    if_neg fun hproto => hp hproto.1
  by_cases hkey : p.1 = name
  · rcases h.get hname with ⟨hown, value, hget, hvalue⟩ | ⟨hown, value, values, hget, hvalue⟩
    · rw [Query.addValue, hkey, hget]
      rw [hkey] at hset
      match value with
      | .string s => exact absurd rfl (hvalue s)
      | .array values =>
        dsimp only
        rw [Obj.push, if_pos hown, if_neg hname]
        exact ⟨h.proto, .inl ⟨hown, _, Function.update_self _ _ _, nofun⟩⟩
      | .undefined =>
        dsimp only
        rw [if_neg Bool.false_ne_true, hset]
        exact h.insert fun _ => ⟨_, _, rfl, nofun⟩
      | .other name' =>
        dsimp only
        rw [hset]
        exact h.insert fun _ => ⟨_, _, rfl, nofun⟩
    · rw [Query.addValue, hkey, hget]
      dsimp only
      rw [Obj.push, if_neg hown]
      exact h.insert fun _ => ⟨value, values ++ [.string p.2], rfl, hvalue⟩
  · have hother : ∀ value, Spoilt name (obj.set realm p.1 value) := by
      intro value
      rw [hset]
      exact h.insert fun heq => absurd heq hkey
    rw [Query.addValue]
    split
    · exact hother _
    · rename_i values _
      rw [Obj.push, if_neg hp]
      split_ifs
      · refine ⟨h.proto, ?_⟩
        have hupdate : Function.update obj.inherited p.1
            (some (.array (values ++ [.string p.2]))) name = obj.inherited name :=
          Function.update_of_ne (Ne.symm hkey) _ _
        show (obj.own.lookup name = none ∧ ∃ value,
          Function.update obj.inherited p.1 _ name = some value ∧ NoString value) ∨ _
        rw [hupdate]
        exact h.spoilt
      · exact h.insert fun heq => absurd heq hkey
    · exact hother _
    · exact hother _

theorem spoilt_addValues (hname : name ≠ protoName) (hinherited : realm.object name ≠ none)
    (hpairs : ∀ p ∈ pairs, p.1 ≠ protoName) :
    Spoilt name (pairs.foldl (addValue realm false) (.new realm)) := by
  obtain ⟨value, hvalue⟩ := Option.ne_none_iff_exists'.1 hinherited
  have hnew : Spoilt name (.new realm) :=
    ⟨rfl, .inl ⟨rfl, value, hvalue, fun s heq => realm.object_ne_string name s (heq ▸ hvalue)⟩⟩
  induction pairs using List.reverseRecOn with
  | nil => exact hnew
  | append_singleton pairs p ih =>
    rw [List.foldl_append]
    exact (ih fun q hq => hpairs q (List.mem_append_left [p] hq)).addValue realm hname
      (hpairs p (List.mem_append_right pairs (List.mem_singleton_self p)))

theorem Spoilt.ne_represent (h : Spoilt name obj) {values : List Bytes} (hvalues : values ≠ []) :
    obj.own.lookup name ≠ represent values := by
  rcases h.spoilt with ⟨hown, -⟩ | ⟨value, rest, hown, hvalue⟩
  · rw [hown]
    match values with
    | [_] => exact nofun
    | _ :: _ :: _ => exact nofun
  rw [hown]
  match values with
  | [_] => exact nofun
  | a :: _ :: _ =>
    intro heq
    have heq := PropValue.array.inj (Option.some.inj heq)
    exact hvalue a (List.cons.inj heq).1

/-! ### Reading back -/

def bytesPair (p : TextPair) : Bytes × Bytes := (bytes p.1, bytes p.2)

theorem pairsOf_toItems (object : Fields) :
    pairsOf (toItems object) = (textPairs object).map toPair := by
  rw [pairsOf, toItems, textPairs, List.flatMap_map, List.map_flatMap]
  refine List.flatMap_congr fun p _ => ?_
  cases p.2 with
  | string text => rfl
  | array first second texts =>
    show List.map _ (List.map _ _) = List.map toPair (List.map _ _)
    rw [List.map_map, List.map_map]
    rfl

theorem noEmptyArray_toItems (object : Fields) : NoEmptyArray (toItems object) := by
  intro q hq
  obtain ⟨p, -, rfl⟩ := List.mem_map.1 hq
  cases p.2 with
  | string text => exact nofun
  | array first second texts => exact nofun

theorem separator_utf8EncodeChar (default : UInt8) (c : Char) :
    separator default (some (String.utf8EncodeChar c)) = String.utf8EncodeChar c :=
  if_neg String.utf8EncodeChar_ne_nil

theorem stringify_toItems (sep eq : Char) (object : Fields) :
    njsQueryStringStringify (toItems object) (some (String.utf8EncodeChar sep))
        (some (String.utf8EncodeChar eq)) = restBytes sep eq (textPairs object) := by
  rw [njsQueryStringStringify, separator_utf8EncodeChar, separator_utf8EncodeChar,
    stringify_eq String.utf8EncodeChar_ne_nil (noEmptyArray_toItems object), pairsOf_toItems]
  cases textPairs object with
  | nil => rfl
  | cons p pairs => exact addPairs_chars sep eq p pairs

theorem length_le_restBytes (sep eq : Char) (pairs : List TextPair) :
    pairs.length ≤ (restBytes sep eq pairs).length := by
  have hpos (c : Char) : 0 < (String.utf8EncodeChar c).length :=
    List.length_pos_iff.2 String.utf8EncodeChar_ne_nil
  have hlater : ∀ pairs : List TextPair,
      pairs.length ≤ (bytes (laterChars sep eq pairs)).length := by
    intro pairs
    induction pairs with
    | nil => exact Nat.zero_le _
    | cons p pairs ih =>
      have hcons : laterChars sep eq (p :: pairs) =
          sep :: (pairChars eq p ++ laterChars sep eq pairs) := List.flatMap_cons
      have hsep := hpos sep
      rw [hcons, bytes_cons, bytes_append, List.length_append, List.length_append, List.length_cons]
      omega
  cases pairs with
  | nil => exact Nat.zero_le _
  | cons p pairs =>
    have hp := hlater pairs
    have heq := hpos eq
    rw [restBytes, pairChars, List.append_assoc, bytes_append, List.cons_append, bytes_cons,
      bytes_append, List.length_append, List.length_append, List.length_append, List.length_cons]
    omega

theorem parse_stringify_plain (realm : Realm) {sep eq : Char} (hsep : NeverLeft sep)
    (heq : NeverLeft eq) (hne : sep ≠ eq) (object : Fields) :
    njsQueryStringParse realm
        (njsQueryStringStringify (toItems object) (some (String.utf8EncodeChar sep))
          (some (String.utf8EncodeChar eq)))
        (some (String.utf8EncodeChar sep)) (some (String.utf8EncodeChar eq)) none =
      (((textPairs object).take 1000).map bytesPair).foldl (addValue realm false) (.new realm) := by
  rw [stringify_toItems, njsQueryStringParse, separator_utf8EncodeChar, separator_utf8EncodeChar]
  exact parser_addPairs realm false hsep heq hne (by decide) (textPairs object)
    (length_le_restBytes sep eq _) (Nat.zero_le _) _

theorem Field.represent_texts (field : Field) :
    represent (field.texts.map bytes) = some field.value := by
  cases field with
  | string text => rfl
  | array first second texts =>
    show some (PropValue.array (((first :: second :: texts).map bytes).map .string)) = _
    rw [List.map_map]
    rfl

theorem valuesOf_field (p : List Char × Field) (name : Bytes) :
    valuesOf name ((p.2.texts.map fun text => (p.1, text)).map bytesPair) =
      if bytes p.1 = name then p.2.texts.map bytes else [] := by
  have hmap : (p.2.texts.map fun text => (p.1, text)).map bytesPair =
      p.2.texts.map fun text => (bytes p.1, bytes text) := List.map_map
  rw [valuesOf, hmap]
  split_ifs with hname
  · rw [List.filter_eq_self.2, List.map_map]
    · rfl
    · intro q hq
      obtain ⟨text, -, rfl⟩ := List.mem_map.1 hq
      exact decide_eq_true hname
  · rw [List.filter_eq_nil_iff.2]
    · rfl
    · intro q hq hkey
      obtain ⟨text, -, rfl⟩ := List.mem_map.1 hq
      exact hname (of_decide_eq_true hkey)

theorem represent_valuesOf {object : Fields} (hkeys : (object.map Prod.fst).Nodup) (name : Bytes) :
    represent (valuesOf name ((textPairs object).map bytesPair)) = valueOf object name := by
  have hnone : ∀ object : Fields, (∀ p ∈ object, bytes p.1 ≠ name) →
      valuesOf name ((textPairs object).map bytesPair) = [] := by
    intro object hobject
    induction object with
    | nil => rfl
    | cons p object ih =>
      have hcons : textPairs (p :: object) =
          (p.2.texts.map fun text => (p.1, text)) ++ textPairs object := List.flatMap_cons
      rw [hcons, List.map_append, valuesOf_append, valuesOf_field,
        if_neg (hobject p List.mem_cons_self),
        ih fun q hq => hobject q (List.mem_cons_of_mem p hq)]
      rfl
  induction object with
  | nil => rfl
  | cons p object ih =>
    rw [List.map_cons, List.nodup_cons] at hkeys
    have hcons : textPairs (p :: object) =
        (p.2.texts.map fun text => (p.1, text)) ++ textPairs object := List.flatMap_cons
    rw [hcons, List.map_append, valuesOf_append, valuesOf_field, valueOf]
    split_ifs with hname
    · have hrest : ∀ q ∈ object, bytes q.1 ≠ name := by
        intro q hq heq
        have hsame : q.1 = p.1 := bytes_injective (heq.trans hname.symm)
        exact hkeys.1 (hsame ▸ List.mem_map_of_mem hq)
      have hfind : (p :: object).find? (fun q => bytes q.1 = name) = some p :=
        List.find?_cons_of_pos (decide_eq_true hname)
      rw [hnone object hrest, List.append_nil, Field.represent_texts, hfind]
      rfl
    · have hfind : (p :: object).find? (fun q => bytes q.1 = name) =
          object.find? fun q => bytes q.1 = name :=
        List.find?_cons_of_neg fun h => hname (of_decide_eq_true h)
      rw [List.nil_append, hfind]
      exact ih hkeys.2

theorem neverLeft_of_byte {c : Char} {b : UInt8} (hc : String.utf8EncodeChar c = [b])
    (hb : ∀ b', b ∉ encodeByte b') : NeverLeft c := by
  intro s t ht hmem
  have hbyte : b ∈ bytes t := by
    refine List.mem_flatMap.2 ⟨c, hmem, ?_⟩
    rw [hc]
    exact List.mem_singleton_self b
  rw [ht] at hbyte
  obtain ⟨b', -, hb'⟩ := List.mem_flatMap.1 hbyte
  exact hb b' hb'

theorem neverLeft_ampersand : NeverLeft '&' :=
  neverLeft_of_byte (b := chr '&') (by decide) (forall_byte (by decide))

theorem neverLeft_equals : NeverLeft '=' :=
  neverLeft_of_byte (b := chr '=') (by decide) (forall_byte (by decide))

/-- Prototypes with a function. -/
def toStringRealm : Realm where
  object name := if name = lit "toString" then some (.other name) else none
  array _ := none
  object_ne_string name s := by
    split_ifs
    · exact nofun
    · exact nofun

end Njs.Query
