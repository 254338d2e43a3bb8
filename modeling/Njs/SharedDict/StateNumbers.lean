import Njs.SharedDict.StateRoundTrip
import Mathlib.Algebra.Order.Floor.Semifield

/-!
# The state file of a number zone

The values of a number zone are written with six digits after the point into a buffer that has
room for 26 characters, and a NaN or an infinity in brackets, which `strtod` refuses. What is cut
off at the end of the buffer is lost without an error. Here `strtod` and the arithmetic of the
writer are taken to be exact.
-/

namespace Njs.SharedDict

open Decimal (Numeral digitChar digits digits_of_lt length_digits_pos length_padded lt_of_mem_digits
  lt_of_mem_padded ofDigits ofDigits_digits ofDigits_padded ofDigits_take padded)

variable {c : Conf} {now : Msec} {z : Zone JsNumber} {strtod : Strtod}

def numberRoom : ℕ := 26

/-- A number in millionths, rounded to the nearest one. -/
def millionths (q : ℚ) : ℕ := ⌊|q| * 10 ^ 6 + 1 / 2⌋₊

def signLength (q : ℚ) : ℕ := if q < 0 then 1 else 0

theorem signLength_le (q : ℚ) : signLength q ≤ 1 := by
  rw [signLength]
  split <;> omega

/-- The digits before the point that fit into the buffer. -/
def intDigits (q : ℚ) : List ℕ :=
  (digits (millionths q / 10 ^ 6)).take (numberRoom - signLength q)

/-- The digits after the point that fit into the buffer, if the point does. -/
def fracDigits (q : ℚ) : Option (List ℕ) :=
  if signLength q + (intDigits q).length < numberRoom then
    some ((padded 6 (millionths q % 10 ^ 6)).take
      (numberRoom - (signLength q + (intDigits q).length + 1)))
  else none

/-- The numeral that stands in the file for a finite number. -/
def floatNumeral (q : ℚ) : Numeral where
  neg := q < 0
  int := intDigits q
  frac := fracDigits q
  int_ne := by
    have := signLength_le q
    have := length_digits_pos (millionths q / 10 ^ 6)
    rw [← List.length_pos_iff, intDigits, List.length_take, numberRoom]
    omega
  int_lt d hd := lt_of_mem_digits (List.mem_of_mem_take hd)
  frac_lt l hl d hd := by
    rw [fracDigits] at hl
    split at hl
    · obtain rfl := Option.some.inj hl
      exact lt_of_mem_padded (List.mem_of_mem_take hd)
    · simp at hl

theorem millionths_split (q : ℚ) :
    let frac := ⌊(|q| - ⌊|q|⌋₊) * ((10 ^ 6 : ℕ) : ℚ) + 1 / 2⌋₊
    (if frac = 10 ^ 6 then (⌊|q|⌋₊ + 1, 0) else (⌊|q|⌋₊, frac)) =
      (millionths q / 10 ^ 6, millionths q % 10 ^ 6) := by
  intro frac
  have hnonneg : 0 ≤ |q| := abs_nonneg q
  have hlo := Nat.floor_le hnonneg
  have hhi := Nat.lt_floor_add_one |q|
  have hfrac : frac ≤ 10 ^ 6 := by
    refine Nat.lt_succ_iff.mp ((Nat.floor_lt (by nlinarith)).mpr ?_)
    push_cast
    nlinarith
  have hsum : millionths q = frac + ⌊|q|⌋₊ * 10 ^ 6 := by
    rw [millionths, ← Nat.floor_add_natCast (by nlinarith)]
    congr 1
    push_cast
    ring
  rw [hsum]
  split
  · next h =>
    rw [h]
    ext
    · change _ = (10 ^ 6 + ⌊|q|⌋₊ * 10 ^ 6) / 10 ^ 6
      omega
    · change _ = (10 ^ 6 + ⌊|q|⌋₊ * 10 ^ 6) % 10 ^ 6
      omega
  next h =>
  ext
  · change _ = (frac + ⌊|q|⌋₊ * 10 ^ 6) / 10 ^ 6
    omega
  · change _ = (frac + ⌊|q|⌋₊ * 10 ^ 6) % 10 ^ 6
    omega

theorem njsInteger_eq (width room n : ℕ) :
    njsInteger width room n = ((padded width n).take room).map digitChar := by
  have hzero : digitChar 0 = chr '0' := by decide
  rw [njsInteger, digitLoop_eq, List.append_nil, List.length_map, padded, List.map_take,
    List.map_append, List.map_replicate, hzero]

theorem floatText_finite (q : ℚ) : njsFloatText numberRoom (.finite q) = (floatNumeral q).text := by
  have hsign : (if q < 0 then [chr '-'] else []).length = signLength q := by
    rw [signLength]
    split <;> rfl
  have hsplit := millionths_split q
  simp only at hsplit
  rw [njsFloatText]
  simp only [hsplit, hsign, digitLoop_eq, List.append_nil, ← List.map_take, List.length_append,
    List.length_map, njsInteger_eq]
  rw [← intDigits, Numeral.text]
  change _ = (if decide (q < 0) = true then [45] else []) ++ ((intDigits q).map digitChar ++
    Numeral.fracText (fracDigits q))
  rw [fracDigits]
  simp only [decide_eq_true_eq]
  split
  · rw [Numeral.fracText, List.append_assoc]
    rfl
  · rw [Numeral.fracText, List.append_nil]
    rfl

/-! ### Which numbers are written exactly -/

/-- The number of digits after the point for which there is room after `d` digits before it. -/
def fracRoom (q : ℚ) (d : ℕ) : ℕ := min 6 (numberRoom - (signLength q + d + 1))

/-- The sign and the digits before the point fit into the buffer, and the digits after the point
for which there is room are all that the number has. -/
def FitsBuffer (q : ℚ) : Prop :=
  signLength q + (digits ⌊|q|⌋₊).length ≤ numberRoom ∧
    ∃ m : ℕ, |q| * 10 ^ fracRoom q (digits ⌊|q|⌋₊).length = m

theorem millionths_of_eq {q : ℚ} {k m : ℕ} (hk : k ≤ 6) (h : |q| * 10 ^ k = m) :
    millionths q = m * 10 ^ (6 - k) ∧ millionths q / 10 ^ 6 = ⌊|q|⌋₊ := by
  have hpow : (10 : ℚ) ^ 6 = 10 ^ k * 10 ^ (6 - k) := by
    rw [← pow_add, Nat.add_sub_cancel' hk]
  have hmul : |q| * 10 ^ 6 = ((m * 10 ^ (6 - k) : ℕ) : ℚ) := by
    rw [hpow, ← mul_assoc, h]
    push_cast
    ring
  have hmill : millionths q = m * 10 ^ (6 - k) := by
    rw [millionths, hmul, add_comm, Nat.floor_add_natCast (by norm_num)]
    norm_num
  refine ⟨hmill, ?_⟩
  have hq : |q| = (millionths q : ℚ) / (10 ^ 6 : ℕ) := by
    rw [hmill, ← hmul]
    norm_num
  rw [hq, Nat.floor_div_eq_div]

theorem millionths_div (N : ℕ) {k : ℕ} (hk : k ≤ 6) :
    N / 10 ^ (6 - k) = N / 10 ^ 6 * 10 ^ k + N % 10 ^ 6 / 10 ^ (6 - k) := by
  have hpow : 10 ^ 6 = 10 ^ (6 - k) * 10 ^ k := by
    rw [← pow_add, Nat.sub_add_cancel hk]
  have hN : 10 ^ (6 - k) * (N / 10 ^ 6 * 10 ^ k) + N % 10 ^ 6 = N := by
    rw [mul_left_comm, ← hpow]
    exact Nat.div_add_mod' N (10 ^ 6)
  conv_lhs => rw [← hN]
  exact Nat.mul_add_div (by positivity) _ _

theorem floatNumeral_magnitude {q : ℚ} {d : ℕ}
    (hd : d = (digits (millionths q / 10 ^ 6)).length)
    (hfit : signLength q + d ≤ numberRoom) :
    (floatNumeral q).magnitude =
      ((millionths q / 10 ^ (6 - fracRoom q d) : ℕ) : ℚ) / 10 ^ fracRoom q d := by
  have hint : intDigits q = digits (millionths q / 10 ^ 6) :=
    List.take_of_length_le (by omega)
  have hk : fracRoom q d ≤ 6 := min_le_left _ _
  rw [Numeral.magnitude, millionths_div _ hk]
  change ((ofDigits (intDigits q) : ℕ) : ℚ) + ofDigits ((fracDigits q).getD []) /
    10 ^ ((fracDigits q).getD []).length = _
  rw [fracDigits, hint, ← hd, ofDigits_digits]
  by_cases hlt : signLength q + d < numberRoom
  · have hlen : (padded 6 (millionths q % 10 ^ 6)).length = 6 :=
      length_padded (by omega) (Nat.mod_lt _ (by positivity))
    have hsub : 6 - (numberRoom - (signLength q + d + 1)) = 6 - fracRoom q d := by
      rw [fracRoom]
      omega
    rw [if_pos hlt, Option.getD_some,
      ofDigits_take (fun _ hx => lt_of_mem_padded hx), hlen, hsub,
      ofDigits_padded, List.length_take, hlen, min_comm, ← fracRoom]
    push_cast
    field_simp
  · have hzero : fracRoom q d = 0 := by
      rw [fracRoom]
      omega
    have hmod : millionths q % 10 ^ 6 / 10 ^ 6 = 0 := Nat.div_eq_of_lt (Nat.mod_lt _
      (by positivity))
    rw [if_neg hlt, hzero, Nat.sub_zero, hmod]
    simp

theorem floatNumeral_magnitude_lt {q : ℚ}
    (hfit : ¬ signLength q + (digits (millionths q / 10 ^ 6)).length ≤ numberRoom) :
    (floatNumeral q).magnitude < |q| := by
  obtain ⟨D, hD⟩ : ∃ D, D = millionths q / 10 ^ 6 := ⟨_, rfl⟩
  rw [← hD, not_le] at hfit
  have hsign := signLength_le q
  have hroom : numberRoom = 26 := rfl
  have hint : (intDigits q).length = numberRoom - signLength q := by
    rw [intDigits, ← hD, List.length_take]
    omega
  have hten : 10 ≤ D := by
    by_contra hlt
    rw [digits_of_lt (by omega), List.length_singleton] at hfit
    omega
  have hvalue : (floatNumeral q).magnitude = (ofDigits (intDigits q) : ℕ) := by
    change ((ofDigits (intDigits q) : ℕ) : ℚ) + ofDigits ((fracDigits q).getD []) /
      10 ^ ((fracDigits q).getD []).length = _
    rw [fracDigits, if_neg (by omega)]
    simp
  have hcut : ofDigits (intDigits q) ≤ D / 10 := by
    rw [intDigits, ← hD, ofDigits_take (fun _ hx => lt_of_mem_digits hx),
      ofDigits_digits]
    refine Nat.div_le_div_left ?_ (by omega)
    exact Nat.le_self_pow (by omega) 10
  have hq : (D : ℚ) * 10 ^ 6 ≤ |q| * 10 ^ 6 + 1 / 2 := by
    have hfloor : (millionths q : ℚ) ≤ |q| * 10 ^ 6 + 1 / 2 :=
      Nat.floor_le (by positivity)
    have hdiv : D * 10 ^ 6 ≤ millionths q := by
      rw [hD]
      exact Nat.div_mul_le_self _ _
    have hcast : ((D * 10 ^ 6 : ℕ) : ℚ) ≤ millionths q := Nat.cast_le.mpr hdiv
    push_cast at hcast
    exact hcast.trans hfloor
  have hlt : ofDigits (intDigits q) + 1 < D := by omega
  have hcast : ((ofDigits (intDigits q) + 1 : ℕ) : ℚ) < D := Nat.cast_lt.mpr hlt
  push_cast at hcast
  rw [hvalue]
  nlinarith

theorem floatNumeral_value_iff (q : ℚ) : (floatNumeral q).value = q ↔ FitsBuffer q := by
  have habs : (floatNumeral q).value = q ↔ (floatNumeral q).magnitude = |q| := by
    rw [Numeral.value]
    change (if decide (q < 0) = true then _ else _) = q ↔ _
    by_cases hq : q < 0
    · rw [decide_eq_true hq, if_pos rfl, abs_of_neg hq, neg_eq_iff_eq_neg]
    · rw [decide_eq_false hq, if_neg (by decide), abs_of_nonneg (not_lt.mp hq)]
  rw [habs]
  obtain ⟨d, hd⟩ : ∃ d, d = (digits (millionths q / 10 ^ 6)).length := ⟨_, rfl⟩
  constructor
  · intro h
    have hfit : signLength q + d ≤ numberRoom := by
      by_contra hfit
      exact (floatNumeral_magnitude_lt (hd ▸ hfit)).ne h
    rw [floatNumeral_magnitude hd hfit, div_eq_iff (by positivity)] at h
    have hfloor := (millionths_of_eq (min_le_left _ _) h.symm).2
    rw [hfloor] at hd
    exact ⟨hd ▸ hfit, _, hd ▸ h.symm⟩
  rintro ⟨hfit, m, hm⟩
  obtain ⟨hmill, hfloor⟩ := millionths_of_eq (min_le_left _ _) hm
  rw [hfloor] at hd
  rw [← hd] at hfit hm hmill
  rw [floatNumeral_magnitude (by rw [hfloor, hd]) hfit, div_eq_iff (by positivity), hm, hmill]
  congr 1
  exact Nat.mul_div_cancel _ (by positivity)

/-! ### What the reader makes of the values -/

theorem readable_numeral (ht : c.type = .number) (n : Numeral) :
    Readable strtod c n.text (.number (strtod.round n.value)) where
  head := by
    obtain ⟨b, p, htext, hb, -⟩ := numeral_text_head n
    exact ⟨b, p, htext, hb⟩
  read entry see ch p hch := by
    obtain ⟨b, l, htext, -, hquote⟩ := numeral_text_head n
    have hhead : (n.text ++ ch :: p).head? ≠ some (chr '"') := by
      simpa [htext] using hquote
    rw [parseMember, if_neg hhead, strtod.read_numeral n ch p hch]
    simp [ht]

theorem unreadable_bracket (text : Bytes) : Unreadable strtod c (chr '[' :: text) where
  head := ⟨_, _, rfl, by decide⟩
  read entry see p := by
    refine ⟨.invalid "invalid number value" (chr '[' :: text ++ p), ?_⟩
    have hhead : (chr '[' :: text ++ p).head? ≠ some (chr '"') := by
      change some (chr '[') ≠ some (chr '"')
      decide
    rw [parseMember, if_neg hhead, List.cons_append, (strtod.read_bracket _).1]

theorem unreadable_minus (text : Bytes) : Unreadable strtod c (chr '-' :: chr '[' :: text) where
  head := ⟨_, _, rfl, by decide⟩
  read entry see p := by
    refine ⟨.invalid "invalid number value" (chr '-' :: chr '[' :: text ++ p), ?_⟩
    have hhead : (chr '-' :: chr '[' :: text ++ p).head? ≠ some (chr '"') := by
      change some (chr '-') ≠ some (chr '"')
      decide
    rw [parseMember, if_neg hhead, List.cons_append, List.cons_append, (strtod.read_bracket _).2]

def readNumber (strtod : Strtod) : JsNumber → JsNumber
  | .finite q => strtod.round (floatNumeral q).value
  | x => x

theorem floatText_read (strtod : Strtod) (ht : c.type = .number) (x : JsNumber) :
    ((∃ q, x = .finite q) ∧
      Readable strtod c (njsFloatText numberRoom x) (.number (readNumber strtod x))) ∨
    ((¬ ∃ q, x = .finite q) ∧ Unreadable strtod c (njsFloatText numberRoom x)) := by
  cases x with
  | finite q =>
    rw [floatText_finite]
    exact .inl ⟨⟨q, rfl⟩, readable_numeral ht _⟩
  | nan => exact .inr ⟨by simp, unreadable_bracket _⟩
  | infinity => exact .inr ⟨by simp, unreadable_bracket _⟩
  | negInfinity => exact .inr ⟨by simp, unreadable_minus _⟩

/-! ### The file of a number zone -/

/-- The file of a zone is read, and every live entry with a finite value is among the entries
that are read, with that value, and is inserted by a loader that runs at the same time. -/
def NumbersKept (strtod : Strtod) (c : Conf) (junk : ℕ → ParsedEntry) (now : Msec)
    (z : Zone JsNumber) : Prop :=
  ∃ file l, ngxJsDictRenderJson c now z = some file ∧
    ngxJsDictParseState strtod c junk file = .ok l ∧
    ∀ e ∈ live c now z, ∀ q, e.value = .number (.finite q) →
      ∃ p ∈ l, p.key = e.key ∧ p.value = e.value ∧ loadExpire c now p.expire ≠ none

theorem loadExpire_readTime (hexact : ∀ q, strtod.round q = .finite q) {expire : Msec}
    (hlt : now < expire) : loadExpire c now (readTime strtod expire) ≠ none := by
  have hread : readTime strtod expire = expire := by
    have hn : JsNumber.truncate (expire.toNat : ℚ) = expire.toNat :=
      JsNumber.truncate_intCast expire.toNat
    rw [readTime, hexact, JsNumber.toMsec, hn, Int.toNat_natCast, UInt64.ofNat_toNat]
  rw [hread, loadExpire]
  have hge : ¬ now ≥ expire := UInt64.not_le.mpr hlt
  split
  · rw [if_neg (fun h => hge h.2)]
    split <;> simp
  · simp

theorem numbersKept_iff (hexact : ∀ q, strtod.round q = .finite q) (ht : c.type = .number)
    (h : Inv c z [] []) (hkeys : ∀ e ∈ live c now z, EncodedText e.key)
    (junk : ℕ → ParsedEntry) :
    NumbersKept strtod c junk now z ↔
      ∀ e ∈ live c now z, ∃ q, e.value = .number (.finite q) ∧ FitsBuffer q := by
  set text := fun a => njsFloatText numberRoom (z.node a).number with htext
  set v := fun a => Value.number (readNumber strtod (z.node a).number) with hv
  have hmem : ∀ a ∈ z.rbtree, isExpired c now z a = false → entry c z a ∈ live c now z :=
    fun a ha hlive => mem_live.mpr ⟨mem_entries.mpr ⟨a, ha, rfl⟩, by rw [isLive_entry, hlive]; rfl⟩
  have hvalue : ∀ a, (entry c z a).value = .number (z.node a).number := fun a => by
    simp [entry, nodeValue, ht]
  have hrender : ngxJsDictRenderJson c now z = some (stateText c now z text) :=
    renderJson_eq (fun a ha hlive => hkeys _ (hmem a ha hlive)) fun a _ _ => by
      simp only [renderValue, ht, htext]
      rfl
  have hread : ∀ a ∈ z.rbtree, isExpired c now z a = false →
      Readable strtod c (text a) (v a) ∨ Unreadable strtod c (text a) := fun a _ _ =>
    (floatText_read strtod ht (z.node a).number).imp (fun h => h.2) fun h => h.2
  have hnode : ∀ e ∈ live c now z, ∃ a ∈ z.rbtree, isExpired c now z a = false ∧
      entry c z a = e := fun e he => by
    obtain ⟨hin, hlive⟩ := mem_live.mp he
    obtain ⟨a, ha, rfl⟩ := mem_entries.mp hin
    refine ⟨a, ha, ?_, rfl⟩
    rw [isLive_entry] at hlive
    simpa using hlive
  constructor
  · rintro ⟨file, l, hfile, hparse, hkept⟩ e he
    rw [hrender] at hfile
    obtain rfl := Option.some.inj hfile
    -- The reader has refused no value, so that every value is finite.
    have hfinite : ∀ a ∈ z.rbtree, isExpired c now z a = false →
        (∃ q, (z.node a).number = .finite q) ∧ Readable strtod c (text a) (v a) := by
      intro a ha hlive
      obtain hok | ⟨-, hun⟩ := floatText_read strtod ht (z.node a).number
      · exact hok
      · obtain ⟨err, herr⟩ := parseState_unreadable hread ⟨a, ha, hlive, hun⟩ junk
        rw [herr] at hparse
        simp at hparse
    obtain ⟨a, ha, hlive, rfl⟩ := hnode e he
    obtain ⟨⟨q, hq⟩, -⟩ := hfinite a ha hlive
    refine ⟨q, by rw [hvalue, hq], (floatNumeral_value_iff q).mp ?_⟩
    obtain ⟨p, hp, hkey, hpv, -⟩ := hkept _ he q (by rw [hvalue, hq])
    rw [parseState_fileText (fun a ha hlive => (hfinite a ha hlive).2)] at hparse
    obtain rfl := Except.ok.inj hparse
    obtain ⟨b, hb, -, hbkey, hbv, -⟩ := mem_parsedEntries hp
    obtain rfl := h.eq_of_key hb ha (hbkey.symm.trans hkey)
    rw [hpv, hvalue, hq] at hbv
    have hnum : JsNumber.finite q = readNumber strtod (.finite q) := by
      have := Value.number.inj hbv
      rwa [hq] at this
    rw [readNumber, hexact] at hnum
    exact (JsNumber.finite.inj hnum).symm
  · intro hfits
    have hback : ∀ a ∈ z.rbtree, isExpired c now z a = false → v a = (entry c z a).value ∧
        Readable strtod c (text a) (v a) := by
      intro a ha hlive
      obtain ⟨q, hq, hfit⟩ := hfits _ (hmem a ha hlive)
      rw [hvalue] at hq
      have hnum : (z.node a).number = .finite q := Value.number.inj hq
      have hsame : readNumber strtod (z.node a).number = (z.node a).number := by
        rw [hnum, readNumber, hexact, (floatNumeral_value_iff q).mpr hfit]
      obtain ⟨-, hok⟩ | ⟨hnot, -⟩ := floatText_read strtod ht (z.node a).number
      · refine ⟨?_, hok⟩
        rw [hvalue, hv]
        simp only [hsame]
      · exact absurd ⟨q, hnum⟩ hnot
    refine ⟨_, _, hrender, parseState_fileText (fun a ha hlive => (hback a ha hlive).2) junk,
      fun e he q hq => ?_⟩
    obtain ⟨a, ha, hlive, rfl⟩ := hnode e he
    obtain ⟨p, hp, hkey, hpv, hexpire⟩ := exists_parsedEntry strtod c v ha hlive junk
    refine ⟨p, hp, hkey, hpv.trans (hback a ha hlive).1, ?_⟩
    by_cases htimeout : c.timeout = 0
    · simp [loadExpire, htimeout]
    · rw [hexpire htimeout]
      refine loadExpire_readTime hexact ?_
      simpa [isExpired, htimeout] using hlive

/-- A number zone survives being written and read exactly when every live value is finite and
its decimals fit into the buffer. -/
theorem stateFile_number_iff (strtod : Strtod) (hexact : ∀ q, strtod.round q = .finite q)
    (ht : c.type = .number) (hz : Reached c z) (now : Msec)
    (hkeys : ∀ e ∈ live c now z, EncodedText e.key) (junk : ℕ → ParsedEntry) :
    NumbersKept strtod c junk now z ↔
      ∀ e ∈ live c now z, ∃ q, e.value = .number (.finite q) ∧ FitsBuffer q := by
  obtain ⟨n, steps, rfl⟩ := hz
  exact numbersKept_iff hexact ht ((Inv.init c n).run steps) hkeys junk

/-- A number zone that has a state file. -/
def numberConf : Conf where
  timeout := 60000
  evict := false
  type := .number
  stateFile := true
  evict_timeout := minuteConf.evict_timeout

/-- A zone after `set('a', x)`. -/
def numberZone (x : JsNumber) : Zone JsNumber :=
  run numberConf [⟨.njs (.set .none [97] (.number x) none), 0, twoAnswers 0 1⟩]
    (Zone.init blankNode)

/-- It keeps one half. -/
theorem numberZone_half : NumbersKept decimalStrtod numberConf blankEntries 0
    (numberZone (.finite (1 / 2))) := by
  refine (stateFile_number_iff decimalStrtod (fun _ => rfl) rfl ⟨blankNode, _, rfl⟩ 0
    (fun e he => ?_) blankEntries).mpr fun e he => ?_
  · obtain rfl : e = ⟨[97], .number (.finite (1 / 2)), 60000⟩ := List.mem_singleton.mp he
    exact validUtf8_ascii.1.encoded
  obtain rfl : e = ⟨[97], .number (.finite (1 / 2)), 60000⟩ := List.mem_singleton.mp he
  refine ⟨_, rfl, ?_⟩
  have hfloor : ⌊|(1 / 2 : ℚ)|⌋₊ = 0 := by
    rw [Nat.floor_eq_zero, abs_of_pos (by norm_num)]
    norm_num
  have hsign : signLength (1 / 2) = 0 := if_neg (by norm_num)
  rw [FitsBuffer, fracRoom, hfloor, hsign]
  refine ⟨by decide, 500000, ?_⟩
  rw [abs_of_pos (by norm_num), Decimal.digits_of_lt (by norm_num)]
  norm_num [numberRoom]

/-- It writes a file that is refused when the value is a NaN. -/
theorem numberZone_nan : Reached numberConf (numberZone .nan) ∧
    ¬ NumbersKept decimalStrtod numberConf blankEntries 0 (numberZone .nan) := by
  refine ⟨⟨blankNode, _, rfl⟩, fun h => ?_⟩
  have hlive : live numberConf 0 (numberZone .nan) = [⟨[97], .number .nan, 60000⟩] := by
    decide
  have hkeys : ∀ e ∈ live numberConf 0 (numberZone .nan), EncodedText e.key := by
    intro e he
    rw [hlive, List.mem_singleton] at he
    rw [he]
    exact validUtf8_ascii.1.encoded
  have hinv : Inv numberConf (numberZone .nan) [] [] := (Inv.init numberConf blankNode).run _
  have hfits := (numbersKept_iff (fun _ => rfl) rfl hinv hkeys blankEntries).mp h
  obtain ⟨q, hq, -⟩ := hfits ⟨[97], .number .nan, 60000⟩ (by rw [hlive]; exact List.mem_cons_self)
  simp at hq

end Njs.SharedDict
