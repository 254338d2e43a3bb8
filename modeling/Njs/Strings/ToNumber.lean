import Mathlib.Order.WellFounded
import Njs.Strings.Trim

/-!
# Numbers of strings

White space before a number is removed character by character. What follows the number is compared
byte by byte.
-/

namespace Njs.Strings

open Text
open Indices (bytes)
open Query (bytes_append bytes_cons)

variable {ν : Type}

/-- The conversion `njs_atod` of the bytes from a position on: how many of them are read and the
number. The flag is `JS_ATOD_INT_ONLY`. -/
abbrev Atod (ν : Type) : Type := Bool → Bytes → ℕ × ν

def hasRadix (p : Bytes) : Bool :=
  2 ≤ p.length && p.getD 0 0 = chr '0' &&
    (p.getD 1 0 = chr 'x' || p.getD 1 0 = chr 'X' || p.getD 1 0 = chr 'b' || p.getD 1 0 = chr 'B' ||
      p.getD 1 0 = chr 'o' || p.getD 1 0 = chr 'O')

def njsStringToNumber (njsAtod : Atod ν) (zero nan : ν) (value : StringProp) : ν :=
  let (_, string) := njsStringTrim value true false
  if string.start = [] then zero
  else
    let p := string.start
    let (size, num) := njsAtod (hasRadix p) p
    if (p.drop size).all njsIsWhitespace then num else nan

/-- A conversion that reads the longest numeral at the start, and no number where there is none.
Numerals consist of graphic ASCII characters. -/
structure ReadsNumerals (njsAtod : Atod ν) (nan : ν) (Numeral : Bool → Bytes → Prop)
    (value : Bool → Bytes → ν) : Prop where
  graphic : ∀ flag n, Numeral flag n → ∀ b ∈ n, 0x21 ≤ b.toNat ∧ b.toNat ≤ 0x7e
  number : ∀ flag n, Numeral flag n → value flag n ≠ nan
  longest : ∀ flag s n, Numeral flag n → n <+: s →
    (∀ m, Numeral flag m → m <+: s → m.length ≤ n.length) →
      njsAtod flag s = (n.length, value flag n)
  none : ∀ flag s, (∀ n, Numeral flag n → ¬n <+: s) → (njsAtod flag s).2 = nan

def trailing (text : List Char) : List Char := (trimStart text).rtakeWhile isWhiteSpace

theorem trimStart_eq_append (text : List Char) :
    trimStart text = trimmed true true text ++ trailing text :=
  (List.rdropWhile_append_rtakeWhile).symm

variable {text : List Char}

theorem trimStart_eq_nil_iff : trimStart text = [] ↔ trimmed true true text = [] := by
  constructor
  · intro h
    have happend := trimStart_eq_append text
    rw [h] at happend
    exact (List.append_eq_nil_iff.1 happend.symm).1
  intro h
  have hall : ∀ c ∈ trimStart text, isWhiteSpace c = true := List.rdropWhile_eq_nil_iff.1 h
  by_contra hne
  have hhead : isWhiteSpace ((trimStart text).head hne) = false :=
    List.head_dropWhile_not isWhiteSpace hne
  rw [hall _ (List.head_mem hne)] at hhead
  exact absurd hhead (by decide)

theorem toNat_of_whitespace {b : UInt8} (hb : njsIsWhitespace b = true) : b.toNat < 0x21 := by
  simp only [njsIsWhitespace, List.contains_iff_mem, List.mem_cons, List.not_mem_nil,
    or_false] at hb
  obtain rfl | rfl | rfl | rfl | rfl | rfl := hb
  all_goals decide

theorem all_whitespace_iff (c : Char) : (∀ b ∈ String.utf8EncodeChar c, njsIsWhitespace b = true) ↔
    isWhiteSpace c = true ∧ c.toNat < 0x80 := by
  by_cases hc : c.toNat < 0x80
  · obtain ⟨b, hchar, hb⟩ := utf8EncodeChar_ascii hc
    rw [hchar, List.forall_mem_singleton, njsIsWhitespace_eq hb, decide_eq_true hc, Bool.and_true]
    exact (and_iff_left hc).symm
  obtain ⟨b, l, hchar, -⟩ := Indices.utf8EncodeChar_encoded c
  refine iff_of_false (fun h => ?_) fun h => hc h.2
  have hmem : b ∈ String.utf8EncodeChar c := hchar ▸ List.mem_cons_self
  have hlarge := large_of_mem (Nat.le_of_not_lt hc) hmem
  have hsmall := toNat_of_whitespace (h b hmem)
  omega

theorem isWhiteSpace_of_mem_trailing {c : Char} (hc : c ∈ trailing text) :
    isWhiteSpace c = true := List.mem_rtakeWhile_imp hc

theorem not_graphic {c : Char} (hc : isWhiteSpace c = true) {b : UInt8}
    (hb : b ∈ String.utf8EncodeChar c) : ¬(0x21 ≤ b.toNat ∧ b.toNat ≤ 0x7e) := by
  by_cases hascii : c.toNat < 0x80
  · have := toNat_of_whitespace ((all_whitespace_iff c).2 ⟨hc, hascii⟩ b hb)
    omega
  · have := large_of_mem (Nat.le_of_not_lt hascii) hb
    omega

theorem not_graphic_trailing {b : UInt8} (hb : b ∈ bytes (trailing text)) :
    ¬(0x21 ≤ b.toNat ∧ b.toNat ≤ 0x7e) := by
  obtain ⟨c, hc, hb⟩ := List.mem_flatMap.1 hb
  exact not_graphic (isWhiteSpace_of_mem_trailing hc) hb

theorem all_trailing_iff (text : List Char) :
    (bytes (trailing text)).all njsIsWhitespace = true ↔ ∀ c ∈ trailing text, c.toNat < 0x80 := by
  rw [List.all_eq_true, bytes, List.forall_mem_flatMap]
  refine forall₂_congr fun c hc => ?_
  rw [all_whitespace_iff]
  exact and_iff_right (isWhiteSpace_of_mem_trailing hc)

theorem not_all_of_suffix {text : List Char} {r : Bytes} (hr : r ≠ [])
    (hsuffix : r <:+ bytes (trimmed true true text)) : ¬r.all njsIsWhitespace = true := by
  have hcore : trimmed true true text ≠ [] := by
    intro hnil
    rw [hnil] at hsuffix
    exact hr (List.suffix_nil.1 hsuffix)
  have hlast : ¬isWhiteSpace ((trimmed true true text).getLast hcore) = true :=
    List.rdropWhile_last_not isWhiteSpace (trimStart text) hcore
  generalize hc : (trimmed true true text).getLast hcore = c at hlast
  obtain ⟨t, ht⟩ := hsuffix
  rw [← List.dropLast_append_getLast hcore, hc, bytes_append, bytes_cons] at ht
  obtain ⟨b, l, hchar, -⟩ := Indices.utf8EncodeChar_encoded c
  have hne : String.utf8EncodeChar c ≠ [] := hchar ▸ List.cons_ne_nil b l
  have hget := congrArg List.getLast? ht
  rw [List.getLast?_append_of_ne_nil _ hr, List.getLast?_append_of_ne_nil _ (by simp [hne]),
    bytes, List.flatMap_nil, List.append_nil, List.getLast?_eq_some_getLast hr,
    List.getLast?_eq_some_getLast hne] at hget
  intro hall
  have hspace := List.all_eq_true.1 hall _ (List.getLast_mem hr)
  rw [Option.some.inj hget] at hspace
  have hmem := List.getLast_mem hne
  by_cases hascii : c.toNat < 0x80
  · obtain ⟨b', hchar', -⟩ := utf8EncodeChar_ascii hascii
    have hall : ∀ x ∈ String.utf8EncodeChar c, x = (String.utf8EncodeChar c).getLast hne := by
      intro x hx
      simp only [hchar', List.mem_singleton, List.getLast_singleton] at hx ⊢
      exact hx
    exact hlast ((all_whitespace_iff c).1 fun x hx => hall x hx ▸ hspace).1
  · have hlarge := large_of_mem (Nat.le_of_not_lt hascii) hmem
    have hsmall := toNat_of_whitespace hspace
    omega

/-! ### Numerals -/

section Numerals

variable {njsAtod : Atod ν} {zero nan : ν} {Numeral : Bool → Bytes → Prop}
  {value : Bool → Bytes → ν}

theorem exists_longest {flag : Bool} {s : Bytes} (h : ∃ n, Numeral flag n ∧ n <+: s) :
    ∃ n, Numeral flag n ∧ n <+: s ∧ ∀ m, Numeral flag m → m <+: s → m.length ≤ n.length := by
  obtain ⟨n, ⟨hn, hprefix⟩, hmin⟩ := WellFounded.has_min
    (measure fun n : Bytes => s.length - n.length).wf {n | Numeral flag n ∧ n <+: s} h
  refine ⟨n, hn, hprefix, fun m hm hm' => ?_⟩
  have hle : ¬s.length - m.length < s.length - n.length := hmin m ⟨hm, hm'⟩
  have := hprefix.length_le
  have := hm'.length_le
  omega

theorem ReadsNumerals.prefix_iff (h : ReadsNumerals njsAtod nan Numeral value) {flag : Bool}
    {n p w : Bytes} (hn : Numeral flag n) (hw : ∀ b ∈ w, ¬(0x21 ≤ b.toNat ∧ b.toNat ≤ 0x7e)) :
    n <+: p ++ w ↔ n <+: p := by
  constructor
  · intro hprefix
    obtain hle | hlt := Nat.lt_or_ge p.length n.length |>.symm
    · exact List.prefix_of_prefix_length_le hprefix (List.prefix_append p w) hle
    obtain ⟨l, rfl⟩ :=
      List.prefix_of_prefix_length_le (List.prefix_append p w) hprefix (Nat.le_of_lt hlt)
    have hl := (List.prefix_append_right_inj p).1 hprefix
    have hne : l ≠ [] := by
      rintro rfl
      rw [List.append_nil] at hlt
      omega
    obtain ⟨b, l, rfl⟩ := List.exists_cons_of_ne_nil hne
    exact absurd (h.graphic flag _ hn b (by simp)) (hw b (hl.subset List.mem_cons_self))
  · intro hprefix
    exact hprefix.trans (List.prefix_append p w)

theorem hasRadix_append {p w : Bytes} (hp : p ≠ [])
    (hw : ∀ b ∈ w, ¬(0x21 ≤ b.toNat ∧ b.toNat ≤ 0x7e)) : hasRadix (p ++ w) = hasRadix p := by
  obtain ⟨b, p, rfl⟩ := List.exists_cons_of_ne_nil hp
  cases p with
  | cons b' p =>
    have hlength (l : Bytes) : decide (2 ≤ (b :: b' :: l).length) = true :=
      decide_eq_true (Nat.le_add_left 2 l.length)
    simp only [hasRadix, List.cons_append, hlength, List.getD_cons_zero, List.getD_cons_succ]
  | nil =>
    cases w with
    | nil => rfl
    | cons b' w =>
      have hb := hw b' List.mem_cons_self
      have hne : ∀ c : UInt8, 0x21 ≤ c.toNat ∧ c.toNat ≤ 0x7e → b' ≠ c := by
        rintro c hc rfl
        exact hb hc
      have hx := hne (chr 'x') (by decide)
      have hX := hne (chr 'X') (by decide)
      have hb := hne (chr 'b') (by decide)
      have hB := hne (chr 'B') (by decide)
      have ho := hne (chr 'o') (by decide)
      have hO := hne (chr 'O') (by decide)
      simp [hasRadix, hx, hX, hb, hB, ho, hO]

theorem njsStringToNumber_eq (njsAtod : Atod ν) (zero nan : ν) (text : List Char) :
    njsStringToNumber njsAtod zero nan (ofText text) =
      if trimmed true true text = [] then zero
      else
        let p := bytes (trimmed true true text) ++ bytes (trailing text)
        if (p.drop (njsAtod (hasRadix p) p).1).all njsIsWhitespace then
          (njsAtod (hasRadix p) p).2
        else nan := by
  have hstart : trimmed true false text = trimStart text := rfl
  rw [njsStringToNumber, njsStringTrim_eq, hstart]
  dsimp only [ofText]
  rw [if_congr (bytes_eq_nil_iff.trans trimStart_eq_nil_iff) rfl rfl, trimStart_eq_append,
    bytes_append]

theorem trimStart_trimmed (text : List Char) :
    trimStart (trimmed true true text) = trimmed true true text := by
  have happend := trimStart_eq_append text
  generalize trimmed true true text = core at happend ⊢
  cases core with
  | nil => rfl
  | cons c core =>
    have hc : isWhiteSpace c = false := by
      have hdrop : text.dropWhile isWhiteSpace = c :: core ++ trailing text := happend
      have hhead := @List.head_dropWhile_not _ isWhiteSpace text
      simp only [hdrop] at hhead
      exact hhead (List.cons_ne_nil _ _)
    exact trimStart_cons_neg (by rw [hc]; decide) core

theorem trimmed_trimmed (text : List Char) :
    trimmed true true (trimmed true true text) = trimmed true true text := by
  change trimEnd (trimStart (trimmed true true text)) = _
  rw [trimStart_trimmed]
  exact List.rdropWhile_idempotent isWhiteSpace (trimStart text)

theorem trailing_trimmed (text : List Char) : trailing (trimmed true true text) = [] := by
  rw [trailing, trimStart_trimmed]
  exact List.rtakeWhile_eq_nil_iff.2 (List.rdropWhile_last_not isWhiteSpace (trimStart text))

theorem ReadsNumerals.read_append (h : ReadsNumerals njsAtod nan Numeral value) {p w : Bytes}
    [Decidable (Numeral (hasRadix p) p)] (hp : p ≠ [])
    (hw : ∀ b ∈ w, ¬(0x21 ≤ b.toNat ∧ b.toNat ≤ 0x7e))
    (hlast : ∀ r, r ≠ [] → r <:+ p → ¬r.all njsIsWhitespace = true) :
    (if ((p ++ w).drop (njsAtod (hasRadix (p ++ w)) (p ++ w)).1).all njsIsWhitespace then
        (njsAtod (hasRadix (p ++ w)) (p ++ w)).2 else nan) =
      if Numeral (hasRadix p) p ∧ w.all njsIsWhitespace then value (hasRadix p) p else nan := by
  rw [hasRadix_append hp hw]
  generalize hasRadix p = flag at *
  by_cases hexists : ∃ n, Numeral flag n ∧ n <+: p
  · obtain ⟨n, hn, hprefix, hmax⟩ := exists_longest hexists
    have hread : njsAtod flag (p ++ w) = (n.length, value flag n) :=
      h.longest flag (p ++ w) n hn ((h.prefix_iff hn hw).2 hprefix)
        fun m hm hm' => hmax m hm ((h.prefix_iff hm hw).1 hm')
    obtain ⟨r, rfl⟩ := hprefix
    rw [hread]
    dsimp only
    rw [List.append_assoc, List.drop_left, List.all_append]
    by_cases hr : r = []
    · subst hr
      have hn' : Numeral flag (n ++ []) := by rwa [List.append_nil]
      rw [List.all_nil, Bool.true_and]
      exact if_congr (and_iff_right hn').symm (congrArg _ (List.append_nil n).symm) rfl
    have hall := Bool.eq_false_iff.2 (hlast r hr (List.suffix_append n r))
    have hnot : ¬Numeral flag (n ++ r) := by
      intro hnumeral
      have hle := hmax _ hnumeral (List.prefix_refl _)
      have hpos := List.length_pos_iff.2 hr
      rw [List.length_append] at hle
      omega
    rw [hall, Bool.false_and, if_neg Bool.false_ne_true, if_neg fun hboth => hnot hboth.1]
  · have hnone : ∀ n, Numeral flag n → ¬n <+: p ++ w := fun n hn hprefix =>
      hexists ⟨n, hn, (h.prefix_iff hn hw).1 hprefix⟩
    rw [h.none flag (p ++ w) hnone, ite_self,
      if_neg fun hboth => hexists ⟨p, hboth.1, List.prefix_refl p⟩]

/-- A number is that of the string without its white space, unless that is a numeral and other than
ASCII white space follows it. White space only is zero. -/
theorem njsStringToNumber_trim_iff (h : ReadsNumerals njsAtod nan Numeral value)
    (text : List Char) :
    (njsStringToNumber njsAtod zero nan (ofText text) =
        njsStringToNumber njsAtod zero nan (njsStringTrim (ofText text) true true).2 ∧
      ((∀ c ∈ text, isWhiteSpace c = true) →
        njsStringToNumber njsAtod zero nan (ofText text) = zero)) ↔
      trimmed true true text = [] ∨
        ¬Numeral (hasRadix (bytes (trimmed true true text))) (bytes (trimmed true true text)) ∨
          ∀ c ∈ trailing text, c.toNat < 0x80 := by
  classical
  have hzero : (∀ c ∈ text, isWhiteSpace c = true) →
      njsStringToNumber njsAtod zero nan (ofText text) = zero := by
    intro hall
    rw [njsStringToNumber_eq, if_pos (trimStart_eq_nil_iff.1 (List.dropWhile_eq_nil_iff.2 hall))]
  rw [and_iff_left hzero, njsStringTrim_eq, njsStringToNumber_eq, njsStringToNumber_eq,
    trimmed_trimmed, trailing_trimmed]
  by_cases hcore : trimmed true true text = []
  · rw [if_pos hcore, if_pos hcore]
    exact iff_of_true rfl (.inl hcore)
  have hp : bytes (trimmed true true text) ≠ [] := fun hnil => hcore (bytes_eq_nil_iff.1 hnil)
  have hlast := fun r hr => @not_all_of_suffix text r hr
  have hnil : (bytes ([] : List Char)).all njsIsWhitespace = true := rfl
  have hnone : ∀ b ∈ bytes ([] : List Char), ¬(0x21 ≤ b.toNat ∧ b.toNat ≤ 0x7e) := fun b hb =>
    absurd hb List.not_mem_nil
  rw [if_neg hcore, if_neg hcore]
  dsimp only
  rw [h.read_append hp (fun b hb => not_graphic_trailing hb) hlast,
    h.read_append hp hnone hlast, hnil,
    if_congr (and_iff_left rfl) rfl rfl, ← all_trailing_iff, or_iff_right hcore]
  by_cases hnumeral : Numeral (hasRadix (bytes (trimmed true true text)))
      (bytes (trimmed true true text))
  · rw [if_pos hnumeral, or_iff_right (not_not.2 hnumeral)]
    by_cases hascii : (bytes (trailing text)).all njsIsWhitespace = true
    · rw [if_pos ⟨hnumeral, hascii⟩]
      exact iff_of_true rfl hascii
    · rw [if_neg fun hboth => hascii hboth.2]
      exact iff_of_false (h.number _ _ hnumeral).symm hascii
  · rw [if_neg hnumeral, if_neg fun hboth => hnumeral hboth.1]
    exact iff_of_true rfl (.inl hnumeral)

end Numerals

/-! ### Decimal numbers -/

def isDigit (b : UInt8) : Bool := 0x30 ≤ b && b ≤ 0x39

/-- A conversion of decimal numbers without a fraction. -/
def decimalAtod : Atod (Option ℕ) := fun _ s =>
  let n := s.takeWhile isDigit
  if n = [] then (0, none)
  else (n.length, some (n.foldl (fun num b => num * 10 + (b.toNat - 0x30)) 0))

theorem decimalAtod_reads : ReadsNumerals decimalAtod none
    (fun _ n => n ≠ [] ∧ ∀ b ∈ n, isDigit b = true)
    (fun _ n => some (n.foldl (fun num b => num * 10 + (b.toNat - 0x30)) 0)) where
  graphic := by
    rintro - n ⟨-, hn⟩ b hb
    have hdigit := hn b hb
    rw [isDigit, Bool.and_eq_true, decide_eq_true_eq, decide_eq_true_eq, UInt8.le_iff_toNat_le,
      UInt8.le_iff_toNat_le] at hdigit
    exact ⟨Nat.le_trans (by decide) hdigit.1, Nat.le_trans hdigit.2 (by decide)⟩
  number _ _ _ := Option.some_ne_none _
  longest := by
    rintro flag - n ⟨hne, hn⟩ ⟨t, rfl⟩ hmax
    have htake : (n ++ t).takeWhile isDigit = n ++ t.takeWhile isDigit :=
      List.takeWhile_append_of_pos hn
    have hle := hmax ((n ++ t).takeWhile isDigit)
      ⟨by simp [htake, hne], fun b hb => List.mem_takeWhile_imp hb⟩ (List.takeWhile_prefix _)
    rw [htake, List.length_append] at hle
    have hnil : t.takeWhile isDigit = [] := List.length_eq_zero_iff.1 (by omega)
    rw [hnil, List.append_nil] at htake
    rw [decimalAtod, htake]
    exact if_neg hne
  none := by
    intro flag s hs
    have hnil : s.takeWhile isDigit = [] := by
      by_contra hne
      exact hs _ ⟨hne, fun b hb => List.mem_takeWhile_imp hb⟩ (List.takeWhile_prefix _)
    rw [decimalAtod, hnil]
    rfl

/-- A no-break space after a numeral. -/
theorem toNumber_trim_no_break_space :
    (njsStringToNumber decimalAtod (some 0) none (ofText ['1', '\u00a0']) =
        njsStringToNumber decimalAtod (some 0) none
          (njsStringTrim (ofText ['1', '\u00a0']) true true).2 ∧
      ((∀ c ∈ ['1', '\u00a0'], isWhiteSpace c = true) →
        njsStringToNumber decimalAtod (some 0) none (ofText ['1', '\u00a0']) = some 0)) ↔
      trimmed true true ['1', '\u00a0'] = [] ∨ ¬(bytes (trimmed true true ['1', '\u00a0']) ≠ [] ∧
          ∀ b ∈ bytes (trimmed true true ['1', '\u00a0']), isDigit b = true) ∨
          ∀ c ∈ trailing ['1', '\u00a0'], c.toNat < 0x80 :=
  njsStringToNumber_trim_iff decimalAtod_reads ['1', '\u00a0']

/-- A no-break space before a numeral is ignored, one after it makes it no number. -/
theorem not_toNumber_trim : ¬∀ text : List Char,
    njsStringToNumber decimalAtod (some 0) none (ofText text) =
      njsStringToNumber decimalAtod (some 0) none (njsStringTrim (ofText text) true true).2 := by
  intro h
  exact absurd (h ['1', '\u00a0']) (by decide)

end Njs.Strings
