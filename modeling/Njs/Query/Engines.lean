import Mathlib.Data.List.TakeWhile
import Njs.Query.RoundTrip

/-!
# The two engines

The modules of the engines are compared for the default codec. They differ in the limit on keys, in
the numbers that they print and in what their built-in prototypes hold.
-/

namespace Njs.Query

open Text

/-! ### The parts of a string -/

/-- The parts of a string, with nothing for an empty one. -/
def parts (sep eq : Bytes) : ℕ → Bytes → List (Option (Bytes × Bytes))
  | 0, _ => []
  | passes + 1, key =>
    if key = [] then []
    else
      let part := separatorMatch sep key
      let val := separatorMatch eq (key.take part)
      let value := if val ≠ part then (key.take part).drop (val + eq.length) else []
      (if part = 0 then none else some (key.take val, value)) ::
        parts sep eq passes (key.drop (part + sep.length))

/-- The decoded keys and values of the first parts. -/
def decodedPairs (sep eq : Bytes) (limit : ℕ) (str : Bytes) : List (Bytes × Bytes) :=
  (((parts sep eq str.length str).take limit).filterMap id).map fun p =>
    (njsQueryStringDecode p.1, njsQueryStringDecode p.2)

variable {sep eq : Bytes}

theorem length_parts_le (hsep : sep ≠ []) (passes : ℕ) (key : Bytes) :
    (parts sep eq passes key).length ≤ key.length := by
  have hpos : 0 < sep.length := List.length_pos_iff.2 hsep
  induction passes generalizing key with
  | zero => exact Nat.zero_le _
  | succ passes ih =>
    rw [parts]
    split_ifs with hkey
    · exact Nat.zero_le _
    · have hrest := ih (key.drop (separatorMatch sep key + sep.length))
      have hlength := List.length_pos_iff.2 hkey
      rw [List.length_drop] at hrest
      rw [List.length_cons]
      omega

theorem parser_eq (append : Obj → Bytes → Bytes → Obj) {width maxKeys : ℕ}
    (hwidth : maxKeys < 2 ^ width) (passes : ℕ) {count : ℕ} (hcount : count ≤ maxKeys)
    (key : Bytes) (obj : Obj) :
    parser append width sep eq maxKeys passes count key obj =
      (((parts sep eq passes key).take (maxKeys - count)).filterMap id).foldl
        (fun obj p => append obj p.1 p.2) obj := by
  induction passes generalizing count key obj with
  | zero =>
    rw [parts, List.take_nil]
    rfl
  | succ passes ih =>
    rw [parser, parts]
    by_cases hkey : key = []
    · rw [if_pos hkey, if_pos hkey, List.take_nil]
      rfl
    rw [if_neg hkey, if_neg hkey]
    by_cases hlimit : count = maxKeys
    · rw [if_pos hlimit, hlimit, Nat.sub_self]
      rfl
    have htake : maxKeys - count = maxKeys - (count + 1) + 1 := by omega
    have hmod : (count + 1) % 2 ^ width = count + 1 := Nat.mod_eq_of_lt (by omega)
    rw [if_neg hlimit, hmod, htake, List.take_succ_cons]
    dsimp only
    rw [ih (by omega)]
    by_cases hpart : separatorMatch sep key = 0
    · rw [if_pos hpart, if_pos hpart, List.filterMap_cons_none rfl]
    · rw [if_neg hpart, if_neg hpart]
      rfl

theorem separator_ne_nil (default : UInt8) (s : Option Bytes) : separator default s ≠ [] := by
  cases s with
  | none => exact nofun
  | some s =>
    rw [separator]
    split_ifs with hs
    · exact nofun
    · exact hs

theorem parser_append (realm : Realm) (undefinedIsMissing : Bool) {width maxKeys : ℕ}
    (hwidth : maxKeys < 2 ^ width) (str : Bytes) :
    parser (append realm undefinedIsMissing) width sep eq maxKeys str.length 0 str (.new realm) =
      (decodedPairs sep eq maxKeys str).foldl (addValue realm undefinedIsMissing) (.new realm) := by
  rw [parser_eq _ hwidth _ (Nat.zero_le maxKeys), decodedPairs, List.foldl_map]
  rfl

/-! ### The limit -/

theorem njsMaxKeys_lt (maxKeys : Option ℤ) : njsMaxKeys maxKeys < 2 ^ 64 := by
  cases maxKeys with
  | none => decide
  | some maxKeys =>
    rw [njsMaxKeys]
    omega

theorem qjsMaxKeys_lt (maxKeys : Option ℤ) : qjsMaxKeys maxKeys < 2 ^ 32 := by
  cases maxKeys with
  | none => decide
  | some maxKeys =>
    rw [qjsMaxKeys]
    omega

theorem take_maxKeys {α : Type} {maxKeys : Option ℤ}
    (hbits : ∀ m ∈ maxKeys, -2 ^ 31 ≤ m ∧ m < 2 ^ 32) (hne : maxKeys ≠ some 0) {l : List α}
    (hl : l.length < 2 ^ 31) : l.take (njsMaxKeys maxKeys) = l.take (qjsMaxKeys maxKeys) := by
  cases maxKeys with
  | none => rfl
  | some m =>
    have hm := hbits m rfl
    have hzero : m ≠ 0 := fun heq => hne (congrArg some heq)
    rw [njsMaxKeys, qjsMaxKeys, if_neg hzero]
    split_ifs with hneg
    · rw [List.take_of_length_le (by omega), List.take_of_length_le]
      rw [int64Max]
      omega
    · congr 1
      omega

/-! ### What an object holds -/

/-- Built-in prototypes whose properties are no arrays. -/
structure NoArray (realm : Realm) : Prop where
  object : ∀ name values, realm.object name ≠ some (.array values)
  array : ∀ name values, realm.array name ≠ some (.array values)

/-- The array that has been assigned to `__proto__`. -/
def protoValues (pairs : List (Bytes × Bytes)) : List PropValue :=
  .other (lit "Object.prototype") :: (valuesOf protoName pairs).map .string

/-- What a new key inherits from the object that has been built from some pairs. -/
def origin (realm : Realm) (pairs : List (Bytes × Bytes)) (name : Bytes) : Option PropValue :=
  if protoName ∈ pairs.map Prod.fst then
    (Obj.protoElement (protoValues pairs) name).orElse fun _ =>
      (realm.array name).orElse fun _ => realm.object name
  else realm.object name

def before (name : Bytes) (pairs : List (Bytes × Bytes)) : List (Bytes × Bytes) :=
  pairs.takeWhile fun p => p.1 ≠ name

/-- What an engine takes for an earlier value. -/
def seen (undefinedIsMissing : Bool) : Option PropValue → Option PropValue
  | some .undefined => if undefinedIsMissing then none else some .undefined
  | value => value

def outcome (inherited : Option PropValue) (values : List Bytes) : Option PropValue :=
  match inherited with
  | none => represent values
  | some value => some (.array (value :: values.map .string))

def expected (realm : Realm) (undefinedIsMissing : Bool) (pairs : List (Bytes × Bytes))
    (name : Bytes) : Option PropValue :=
  if name ∈ pairs.map Prod.fst then
    outcome (seen undefinedIsMissing (origin realm (before name pairs) name)) (valuesOf name pairs)
  else none

/-- What an object holds after some pairs. -/
structure Built (realm : Realm) (undefinedIsMissing : Bool) (pairs : List (Bytes × Bytes))
    (obj : Obj) : Prop where
  proto : obj.proto = if protoName ∈ pairs.map Prod.fst then some (protoValues pairs) else none
  inherited : ∀ name, obj.inherited name = if protoName ∈ pairs.map Prod.fst then
      (realm.array name).orElse fun _ => realm.object name
    else realm.object name
  own_proto : obj.own.lookup protoName = none
  own : ∀ name, name ≠ protoName →
    obj.own.lookup name = expected realm undefinedIsMissing pairs name

variable {realm : Realm} {undefinedIsMissing : Bool} {pairs : List (Bytes × Bytes)} {obj : Obj}

/-- `__proto__` is no element of an array. -/
theorem protoElement_protoName (values : List PropValue) :
    Obj.protoElement values protoName = none := by
  have hrepr : ∀ n : ℕ, lit (Nat.repr n) ≠ protoName := by
    intro n heq
    have hmem : chr '_' ∈ lit (Nat.repr n) := heq ▸ List.mem_cons_self
    obtain ⟨c, hc, hchr⟩ := List.mem_map.1 hmem
    rw [Nat.repr, String.toList_ofList] at hc
    have hdigit := Nat.isDigit_of_mem_toDigits (by decide) (by decide) hc
    rw [Char.isDigit_iff_toNat] at hdigit
    have hnat : (chr c).toNat = c.toNat % 2 ^ 8 := UInt32.toNat_toUInt8 c.val
    have hbyte : (chr c).toNat = 95 := congrArg UInt8.toNat hchr
    have hzero : '0'.toNat = 48 := rfl
    have hnine : '9'.toNat = 57 := rfl
    omega
  rw [Obj.protoElement, if_neg (by decide), Option.map_eq_none_iff, List.find?_eq_none]
  intro p _ heq
  exact hrepr p.2 (of_decide_eq_true heq)

variable {name : Bytes} {p : Bytes × Bytes}

theorem Built.lookup (h : Built realm undefinedIsMissing pairs obj) (hname : name ≠ protoName) :
    obj.lookup name = origin realm pairs name := by
  rw [Obj.lookup, h.proto, h.inherited, origin]
  split_ifs with hproto
  · rw [Option.bind_some]
    cases Obj.protoElement (protoValues pairs) name with
    | none => rfl
    | some value => rfl
  · rfl

theorem origin_ne_array (hrealm : NoArray realm) (pairs : List (Bytes × Bytes)) (name : Bytes)
    (values : List PropValue) : origin realm pairs name ≠ some (.array values) := by
  have helement : Obj.protoElement (protoValues pairs) name ≠ some (.array values) := by
    rw [Obj.protoElement]
    split_ifs
    · exact nofun
    intro heq
    obtain ⟨⟨value, n⟩, hfind, hvalue⟩ := Option.map_eq_some_iff.1 heq
    have hmem := List.fst_mem_of_mem_zipIdx (List.mem_of_find?_eq_some hfind)
    rw [protoValues, List.mem_cons] at hmem
    rcases hmem with hmem | hmem
    · exact nomatch hmem.symm.trans hvalue
    · obtain ⟨s, -, hs⟩ := List.mem_map.1 hmem
      exact nomatch hs.trans hvalue
  rw [origin]
  split_ifs
  · cases h : Obj.protoElement (protoValues pairs) name with
    | some value =>
      rw [h] at helement
      exact helement
    | none =>
      have harray := hrealm.array name values
      show ((realm.array name).orElse fun _ => realm.object name) ≠ _
      cases h : realm.array name with
      | some value =>
        rw [h] at harray
        exact harray
      | none => exact hrealm.object name values
  · exact hrealm.object name values

/-! ### Adding a pair -/

theorem mem_keys_append :
    name ∈ (pairs ++ [p]).map Prod.fst ↔ name ∈ pairs.map Prod.fst ∨ name = p.1 := by
  rw [List.map_append, List.mem_append]
  exact or_congr_right List.mem_singleton

theorem before_append_of_mem (h : name ∈ pairs.map Prod.fst) (pairs' : List (Bytes × Bytes)) :
    before name (pairs ++ pairs') = before name pairs := by
  obtain ⟨p, hp, rfl⟩ := List.mem_map.1 h
  rw [before, List.takeWhile_append, if_neg]
  · rfl
  · intro hlength
    have hall := List.takeWhile_eq_self_iff.1 ((List.takeWhile_prefix _).eq_of_length hlength)
    exact of_decide_eq_true (hall p hp) rfl

theorem before_of_not_mem (h : name ∉ pairs.map Prod.fst) : before name pairs = pairs :=
  List.takeWhile_eq_self_iff.2 fun _ hp =>
    decide_eq_true fun heq => h (heq ▸ List.mem_map_of_mem hp)

theorem valuesOf_of_not_mem (h : name ∉ pairs.map Prod.fst) : valuesOf name pairs = [] := by
  rw [valuesOf, List.filter_eq_nil_iff.2]
  · rfl
  · exact fun p hp heq => h (of_decide_eq_true heq ▸ List.mem_map_of_mem hp)

theorem valuesOf_singleton (p : Bytes × Bytes) : valuesOf p.1 [p] = [p.2] := by
  simp [valuesOf]

theorem expected_append_of_ne (hne : name ≠ p.1) :
    expected realm undefinedIsMissing (pairs ++ [p]) name =
      expected realm undefinedIsMissing pairs name := by
  have hvalues : valuesOf name [p] = [] :=
    valuesOf_of_not_mem fun hmem => hne (List.mem_singleton.1 hmem)
  rw [expected, expected]
  by_cases hmem : name ∈ pairs.map Prod.fst
  · rw [if_pos (mem_keys_append.2 (.inl hmem)), if_pos hmem, before_append_of_mem hmem,
      valuesOf_append, hvalues, List.append_nil]
  · rw [if_neg hmem, if_neg]
    exact fun h => (mem_keys_append.1 h).elim hmem hne

theorem expected_append_self (p : Bytes × Bytes) :
    expected realm undefinedIsMissing (pairs ++ [p]) p.1 =
      outcome (seen undefinedIsMissing (origin realm (before p.1 pairs) p.1))
        (valuesOf p.1 pairs ++ [p.2]) := by
  have hbefore : before p.1 (pairs ++ [p]) = before p.1 pairs := by
    by_cases hmem : p.1 ∈ pairs.map Prod.fst
    · exact before_append_of_mem hmem [p]
    · rw [before_of_not_mem hmem, before, List.takeWhile_append_of_pos, List.takeWhile_cons_of_neg]
      · exact List.append_nil pairs
      · simp
      · exact fun q hq => decide_eq_true fun heq => hmem (heq ▸ List.mem_map_of_mem hq)
  rw [expected, if_pos (mem_keys_append.2 (.inr rfl)), hbefore, valuesOf_append, valuesOf_singleton]

theorem Built.insert (h : Built realm undefinedIsMissing pairs obj) (hp : p.1 ≠ protoName)
    {value : PropValue}
    (hvalue : expected realm undefinedIsMissing (pairs ++ [p]) p.1 = some value) :
    Built realm undefinedIsMissing (pairs ++ [p]) { obj with own := obj.own.insert p.1 value } := by
  have hkeys : (protoName ∈ (pairs ++ [p]).map Prod.fst) = (protoName ∈ pairs.map Prod.fst) :=
    propext (mem_keys_append.trans (or_iff_left hp.symm))
  have hvalues : protoValues (pairs ++ [p]) = protoValues pairs := by
    have hnone : valuesOf protoName [p] = [] :=
      valuesOf_of_not_mem fun hmem => hp (List.mem_singleton.1 hmem).symm
    rw [protoValues, valuesOf_append, hnone, List.append_nil]
    rfl
  refine ⟨?_, ?_, ?_, ?_⟩
  · simp only [hkeys, hvalues]
    exact h.proto
  · simp only [hkeys]
    exact h.inherited
  · exact (AList.lookup_insert_ne hp.symm).trans h.own_proto
  intro name hname
  by_cases heq : name = p.1
  · subst heq
    exact (AList.lookup_insert _).trans hvalue.symm
  · rw [expected_append_of_ne heq]
    exact (AList.lookup_insert_ne heq).trans (h.own name hname)

/-- `__proto__` gets its next string. -/
theorem Built.addValue_protoName (h : Built realm undefinedIsMissing pairs obj)
    (hp : p.1 = protoName) :
    Built realm undefinedIsMissing (pairs ++ [p]) (addValue realm undefinedIsMissing obj p) := by
  have hkeys : protoName ∈ (pairs ++ [p]).map Prod.fst := mem_keys_append.2 (.inr hp.symm)
  have hvalues : valuesOf protoName [p] = [p.2] := hp ▸ valuesOf_singleton p
  have hown : ∀ name, name ≠ protoName →
      obj.own.lookup name = expected realm undefinedIsMissing (pairs ++ [p]) name := by
    intro name hname
    rw [expected_append_of_ne (hp ▸ hname)]
    exact h.own name hname
  by_cases hmem : protoName ∈ pairs.map Prod.fst
  · have hget : obj.get p.1 = some (.array (protoValues pairs)) := by
      rw [hp, Obj.get, h.own_proto, Obj.lookup, h.proto, if_pos hmem, Option.bind_some,
        protoElement_protoName]
      exact if_pos rfl
    have hadd : addValue realm undefinedIsMissing obj p =
        { obj with proto := some (protoValues (pairs ++ [p])) } := by
      rw [addValue, hget]
      show obj.push p.1 (protoValues pairs) (.string p.2) = _
      rw [Obj.push, hp, if_pos h.own_proto, if_pos rfl, protoValues, protoValues, valuesOf_append,
        hvalues, List.map_append, List.cons_append]
      rfl
    rw [hadd]
    refine ⟨(if_pos hkeys).symm, fun name => ?_, h.own_proto, hown⟩
    rw [if_pos hkeys]
    exact (h.inherited name).trans (if_pos hmem)
  · have hget : obj.get p.1 = some (.other (lit "Object.prototype")) := by
      rw [hp, Obj.get, h.own_proto, Obj.lookup, h.proto, if_neg hmem, Option.bind_none]
      exact if_pos rfl
    have hadd : addValue realm undefinedIsMissing obj p = { obj with
          proto := some (protoValues (pairs ++ [p]))
          inherited := fun name => (realm.array name).orElse fun _ => obj.inherited name } := by
      rw [addValue, hget]
      show obj.set realm p.1 (.array [.other (lit "Object.prototype"), .string p.2]) = _
      rw [Obj.set, if_pos ⟨hp, hp ▸ h.own_proto⟩, protoValues, valuesOf_append,
        valuesOf_of_not_mem hmem, hvalues]
      rfl
    rw [hadd]
    refine ⟨(if_pos hkeys).symm, fun name => ?_, h.own_proto, hown⟩
    show ((realm.array name).orElse fun _ => obj.inherited name) = _
    rw [if_pos hkeys, h.inherited, if_neg hmem]

theorem Built.addValue_of_ne (hrealm : NoArray realm)
    (h : Built realm undefinedIsMissing pairs obj) (hp : p.1 ≠ protoName) :
    Built realm undefinedIsMissing (pairs ++ [p]) (addValue realm undefinedIsMissing obj p) := by
  have hset (value : PropValue) : obj.set realm p.1 value =
      { obj with own := obj.own.insert p.1 value } := if_neg fun hproto => hp hproto.1
  have hown := h.own p.1 hp
  rw [Query.addValue]
  by_cases hmem : p.1 ∈ pairs.map Prod.fst
  · -- the key has an own value
    have hvalues : valuesOf p.1 pairs ≠ [] := by
      obtain ⟨q, hq, hqp⟩ := List.mem_map.1 hmem
      exact hqp ▸ valuesOf_ne_nil hq
    rw [expected, if_pos hmem] at hown
    have hnext := @expected_append_self realm undefinedIsMissing pairs p
    cases horigin : seen undefinedIsMissing (origin realm (before p.1 pairs) p.1) with
    | none =>
      rw [horigin] at hown hnext
      rcases hlist : valuesOf p.1 pairs with _ | ⟨v, _ | ⟨w, values⟩⟩
      · exact absurd hlist hvalues
      · rw [hlist] at hown hnext
        have hget : obj.get p.1 = some (.string v) := by
          rw [Obj.get, hown]
          rfl
        rw [hget]
        show Built _ _ _ (obj.set realm p.1 (.array [.string v, .string p.2]))
        rw [hset]
        exact h.insert hp hnext
      rw [hlist] at hown hnext
      have hget : obj.get p.1 = some (.array ((v :: w :: values).map .string)) := by
        rw [Obj.get, hown]
        rfl
      have hsome : obj.own.lookup p.1 ≠ none := by
        rw [hown]
        exact Option.some_ne_none _
      rw [hget]
      show Built _ _ _ (obj.push p.1 ((v :: w :: values).map .string) (.string p.2))
      rw [Obj.push, if_neg hsome]
      refine h.insert hp (hnext.trans ?_)
      have hlast := represent_append (List.cons_ne_nil v (w :: values)) p.2
      rwa [List.map_append] at hlast
    | some value =>
      rw [horigin] at hown hnext
      have hget : obj.get p.1 = some (.array (value :: (valuesOf p.1 pairs).map .string)) := by
        rw [Obj.get, hown]
        rfl
      have hsome : obj.own.lookup p.1 ≠ none := by
        rw [hown]
        exact Option.some_ne_none _
      rw [hget]
      show Built _ _ _ (obj.push p.1 (value :: (valuesOf p.1 pairs).map .string) (.string p.2))
      rw [Obj.push, if_neg hsome]
      refine h.insert hp (hnext.trans ?_)
      rw [outcome, List.map_append, List.cons_append]
      rfl
  · -- the key may be inherited
    have hnext := @expected_append_self realm undefinedIsMissing pairs p
    rw [before_of_not_mem hmem, valuesOf_of_not_mem hmem, List.nil_append] at hnext
    rw [expected, if_neg hmem] at hown
    have hget : obj.get p.1 = origin realm pairs p.1 := by
      rw [Obj.get, hown]
      exact h.lookup hp
    rw [hget]
    have harray := origin_ne_array hrealm pairs p.1
    revert hnext harray
    cases origin realm pairs p.1 with
    | none =>
      intro hnext _
      show Built _ _ _ (obj.set realm p.1 (.string p.2))
      rw [hset]
      exact h.insert hp hnext
    | some value =>
      intro hnext harray
      cases value with
      | array values => exact absurd rfl (harray values)
      | undefined =>
        show Built _ _ _ (if undefinedIsMissing then obj.set realm p.1 (.string p.2)
          else obj.set realm p.1 (.array [.undefined, .string p.2]))
        rw [seen] at hnext
        split_ifs with hmissing
        · rw [if_pos hmissing] at hnext
          rw [hset]
          exact h.insert hp hnext
        · rw [if_neg hmissing] at hnext
          rw [hset]
          exact h.insert hp hnext
      | string s =>
        show Built _ _ _ (obj.set realm p.1 (.array [.string s, .string p.2]))
        rw [hset]
        exact h.insert hp hnext
      | other name =>
        show Built _ _ _ (obj.set realm p.1 (.array [.other name, .string p.2]))
        rw [hset]
        exact h.insert hp hnext

theorem built_addValues (hrealm : NoArray realm) (undefinedIsMissing : Bool)
    (pairs : List (Bytes × Bytes)) : Built realm undefinedIsMissing pairs
      (pairs.foldl (addValue realm undefinedIsMissing) (.new realm)) := by
  induction pairs using List.reverseRecOn with
  | nil => exact ⟨rfl, fun _ => rfl, rfl, fun _ _ => rfl⟩
  | append_singleton pairs p ih =>
    rw [List.foldl_append]
    by_cases hp : p.1 = protoName
    · exact ih.addValue_protoName hp
    · exact ih.addValue_of_ne hrealm hp

/-! ### Agreement -/

theorem outcome_injective {values : List Bytes} (hvalues : values ≠ [])
    {inherited inherited' : Option PropValue}
    (h : outcome inherited values = outcome inherited' values) : inherited = inherited' := by
  have hne (value : PropValue) : outcome none values ≠ outcome (some value) values := by
    intro heq
    match values with
    | [_] => exact nomatch heq
    | v :: w :: values =>
      have hlength := congrArg List.length (PropValue.array.inj (Option.some.inj heq))
      simp only [List.length_map, List.length_cons] at hlength
      omega
  cases inherited with
  | none =>
    cases inherited' with
    | none => rfl
    | some value => exact absurd h (hne value)
  | some value =>
    cases inherited' with
    | none => exact absurd h.symm (hne value)
    | some value' =>
      have hlist := PropValue.array.inj (Option.some.inj h)
      rw [(List.cons.inj hlist).1]

theorem seen_false (value : Option PropValue) : seen false value = value := by
  rcases value with _ | _ | _ | _ | _
  · rfl
  · rfl
  · rfl
  · rfl
  · rfl

theorem expected_ne_none (hmem : name ∈ pairs.map Prod.fst) :
    expected realm undefinedIsMissing pairs name ≠ none := by
  obtain ⟨q, hq, rfl⟩ := List.mem_map.1 hmem
  have hvalues := valuesOf_ne_nil hq
  rw [expected, if_pos hmem, outcome.eq_def]
  split
  · intro hnone
    exact hvalues (@represent_injective _ [] hnone)
  · exact nofun

/-- Each key inherits the same in both engines. -/
def SameOrigins (njs qjs : Realm) (pairs : List (Bytes × Bytes)) : Prop :=
  ∀ name ∈ pairs.map Prod.fst, name ≠ protoName →
    origin njs (before name pairs) name = seen true (origin qjs (before name pairs) name)

theorem lookup_addValues_iff {njs qjs : Realm} (hnjs : NoArray njs) (hqjs : NoArray qjs)
    (pairs : List (Bytes × Bytes)) :
    (∀ name, (pairs.foldl (addValue njs false) (.new njs)).own.lookup name =
      (pairs.foldl (addValue qjs true) (.new qjs)).own.lookup name) ↔
        SameOrigins njs qjs pairs := by
  have hbuilt := built_addValues hnjs false pairs
  have hbuilt' := built_addValues hqjs true pairs
  constructor
  · intro h name hmem hname
    have hlookup := h name
    rw [hbuilt.own name hname, hbuilt'.own name hname, expected, expected, if_pos hmem,
      if_pos hmem, seen_false] at hlookup
    obtain ⟨q, hq, hqname⟩ := List.mem_map.1 hmem
    exact outcome_injective (hqname ▸ valuesOf_ne_nil hq) hlookup
  intro h name
  by_cases hname : name = protoName
  · rw [hname, hbuilt.own_proto, hbuilt'.own_proto]
  · rw [hbuilt.own name hname, hbuilt'.own name hname, expected, expected]
    split_ifs with hmem
    · rw [seen_false, h name hmem hname]
    · rfl

/-- An object without own keys is built if and only if the only key is `__proto__`. -/
theorem lookup_addValues_none_iff (hrealm : NoArray realm) (pairs : List (Bytes × Bytes)) :
    (∀ name, (pairs.foldl (addValue realm undefinedIsMissing) (.new realm)).own.lookup name =
      none) ↔ ∀ p ∈ pairs, p.1 = protoName := by
  have hbuilt := built_addValues hrealm undefinedIsMissing pairs
  constructor
  · intro h p hp
    by_contra hname
    have hlookup := h p.1
    rw [hbuilt.own p.1 hname] at hlookup
    exact expected_ne_none (List.mem_map_of_mem hp) hlookup
  intro h name
  by_cases hname : name = protoName
  · rw [hname, hbuilt.own_proto]
  · rw [hbuilt.own name hname, expected, if_neg]
    intro hmem
    obtain ⟨p, hp, hpname⟩ := List.mem_map.1 hmem
    exact hname (hpname ▸ h p hp)

/-! ### Numbers that are not finite -/

/-- The values that are no `NaN` and no infinity. -/
def Scalar.finite : Scalar → Bool
  | .nan | .infinity _ => false
  | .string _ | .number _ | .boolean _ | .other => true

def AllFinite (object : List (Bytes × Item)) : Prop := ∀ p ∈ pairsOf object, p.2.finite

/-- What njs and QuickJS have written. It is the same as long as all values are finite. -/
structure Written (allFinite : Prop) (chain chain' : Bytes) : Prop where
  nil : chain = [] ↔ chain' = []
  same : allFinite → chain = chain'
  shorter : ¬allFinite → chain.length < chain'.length

variable {allFinite : Prop} {chain chain' : Bytes}

theorem Written.append (h : Written allFinite chain chain') (s : Bytes) :
    Written allFinite (chain ++ s) (chain' ++ s) := by
  refine ⟨?_, fun hall => by rw [h.same hall], fun hall => ?_⟩
  · rw [List.append_eq_nil_iff, List.append_eq_nil_iff, h.nil]
  · have hlt := h.shorter hall
    rw [List.length_append, List.length_append]
    omega

theorem Written.push (heq : eq ≠ []) (h : Written allFinite chain chain') (key : Bytes)
    (value : Scalar) : Written (allFinite ∧ value.finite) (push njsPrinted eq chain key value)
      (push qjsPrinted eq chain' key value) := by
  have hkey := (h.append (njsQueryStringEncode key)).append eq
  have hnil : chain' ++ njsQueryStringEncode key ++ eq ≠ [] := fun hnil =>
    heq (List.append_eq_nil_iff.1 hnil).2
  have hmissing (text : Bytes) (htext : njsQueryStringEncode text ≠ []) :
      Written (allFinite ∧ false = true) (chain ++ njsQueryStringEncode key ++ eq)
        (chain' ++ njsQueryStringEncode key ++ eq ++ njsQueryStringEncode text) := by
    have hle : (chain ++ njsQueryStringEncode key ++ eq).length ≤
        (chain' ++ njsQueryStringEncode key ++ eq).length := by
      by_cases hall : allFinite
      · rw [hkey.same hall]
      · exact (hkey.shorter hall).le
    have hpos := List.length_pos_iff.2 htext
    have hlt : (chain' ++ njsQueryStringEncode key ++ eq).length <
        (chain' ++ njsQueryStringEncode key ++ eq ++ njsQueryStringEncode text).length := by
      rw [@List.length_append _ _ (njsQueryStringEncode text)]
      omega
    refine ⟨iff_of_false (fun hn => hnil (hkey.nil.1 hn)) fun hn =>
      htext (List.append_eq_nil_iff.1 hn).2, fun hall => (nomatch hall.2), fun _ =>
        hle.trans_lt hlt⟩
  have hprinted (text : Bytes) : Written (allFinite ∧ true = true)
      (chain ++ njsQueryStringEncode key ++ eq ++ njsQueryStringEncode text)
      (chain' ++ njsQueryStringEncode key ++ eq ++ njsQueryStringEncode text) := by
    rw [eq_self, and_true]
    exact hkey.append _
  cases value with
  | string s => exact hprinted s
  | number text => exact hprinted text
  | boolean b => exact hprinted (if b then lit "true" else lit "false")
  | nan => exact hmissing (lit "NaN") (by decide)
  | infinity negative =>
    have htext : njsQueryStringEncode (Scalar.infinity negative).toText ≠ [] := by
      cases negative with
      | true => decide
      | false => decide
    exact hmissing _ htext
  | other =>
    have hand : (allFinite ∧ Scalar.finite .other) = allFinite := by
      rw [Scalar.finite, eq_self, and_true]
    rw [hand]
    exact hkey

theorem Written.pushArray (heq : eq ≠ []) (sep key : Bytes) (values : List Scalar)
    (h : Written allFinite chain chain') :
    Written (allFinite ∧ ∀ value ∈ values, value.finite)
      (pushArray njsPrinted sep eq key values chain)
      (pushArray qjsPrinted sep eq key values chain') := by
  induction values generalizing allFinite chain chain' with
  | nil => simpa [Query.pushArray] using h
  | cons value values ih =>
    have hsep : Written allFinite (if chain ≠ [] then chain ++ sep else chain)
        (if chain' ≠ [] then chain' ++ sep else chain') := by
      by_cases hnil : chain = []
      · rw [if_neg (not_not.2 hnil), if_neg (not_not.2 (h.nil.1 hnil))]
        exact h
      · rw [if_pos hnil, if_pos fun hnil' => hnil (h.nil.2 hnil')]
        exact h.append sep
    have hrest := ih (hsep.push heq key value)
    rw [and_assoc] at hrest
    rwa [List.forall_mem_cons]

theorem Written.pushItem (heq : eq ≠ []) (sep : Bytes) (h : Written allFinite chain chain')
    (p : Bytes × Item) (n : ℕ) :
    Written (allFinite ∧ ∀ q ∈ pairsOfItem p.1 p.2, q.2.finite)
      (pushItem njsPrinted sep eq chain (p, n)) (pushItem qjsPrinted sep eq chain' (p, n)) := by
  obtain ⟨key, item⟩ := p
  cases item with
  | scalar value =>
    have hsep : Written allFinite (if n ≠ 0 then chain ++ sep else chain)
        (if n ≠ 0 then chain' ++ sep else chain') := by
      split_ifs
      · exact h.append sep
      · exact h
    have hall : (∀ q ∈ pairsOfItem key (.scalar value), q.2.finite) = value.finite := by
      simp [pairsOfItem]
    rw [hall]
    exact hsep.push heq key value
  | array values =>
    have hall : (∀ q ∈ pairsOfItem key (.array values), q.2.finite) =
        ∀ value ∈ values, value.finite := by
      simp [pairsOfItem]
    rw [hall]
    exact h.pushArray heq sep key values

theorem stringify_iff (object : List (Bytes × Item)) (sep eq : Option Bytes) :
    njsQueryStringStringify object sep eq = qjsQueryStringStringify object sep eq ↔
      AllFinite object := by
  have hloop : ∀ (object : List (Bytes × Item)) (n : ℕ) {allFinite : Prop} {chain chain' : Bytes},
      Written allFinite chain chain' →
      Written (allFinite ∧ AllFinite object) ((object.zipIdx n).foldl
          (pushItem njsPrinted (separator (chr '&') sep) (separator (chr '=') eq)) chain)
        ((object.zipIdx n).foldl
          (pushItem qjsPrinted (separator (chr '&') sep) (separator (chr '=') eq)) chain') := by
    intro object
    induction object with
    | nil =>
      intro n allFinite chain chain' h
      simpa [AllFinite, pairsOf] using h
    | cons p object ih =>
      intro n allFinite chain chain' h
      have hrest := ih (n + 1)
        (h.pushItem (separator_ne_nil (chr '=') eq) (separator (chr '&') sep) p n)
      have hall : AllFinite (p :: object) =
          ((∀ q ∈ pairsOfItem p.1 p.2, q.2.finite) ∧ AllFinite object) := by
        rw [AllFinite, pairsOf, List.flatMap_cons, List.forall_mem_append]
        rfl
      rw [hall, ← and_assoc]
      exact hrest
  have hstart : Written True [] [] := ⟨Iff.rfl, fun _ => rfl, fun hfalse => absurd trivial hfalse⟩
  have h := hloop object 0 hstart
  constructor
  · intro heq
    by_contra hall
    exact absurd (congrArg List.length heq) (h.shorter fun hand => hall hand.2).ne
  · exact fun hall => h.same ⟨trivial, hall⟩

/-! ### The modules -/

/-- Prototypes without properties. -/
def emptyRealm : Realm := ⟨fun _ => none, fun _ => none, fun _ _ => nofun⟩

theorem noArray_emptyRealm : NoArray emptyRealm := ⟨fun _ _ => nofun, fun _ _ => nofun⟩

theorem noArray_toStringRealm : NoArray toStringRealm := by
  refine ⟨fun name values => ?_, fun _ _ => nofun⟩
  rw [toStringRealm]
  dsimp only
  split_ifs
  · exact nofun
  · exact nofun

end Njs.Query
