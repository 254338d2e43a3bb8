import Mathlib.Data.List.DropRight
import Njs.Lib.Text

/-!
# Names and values of HTTP fields
-/

namespace Http

open Text

/-- The characters of tokens. -/
def isTchar (c : UInt8) : Bool :=
  c ∈ lit "!#$%&'*+-.^_|~" || c = 0x60 || chr '0' ≤ c && c ≤ chr '9' || chr 'A' ≤ c && c ≤ chr 'Z'
    ||
    chr 'a' ≤ c && c ≤ chr 'z'

/-- Spaces and horizontal tabs. -/
def isOws (c : UInt8) : Bool := c = chr ' ' || c = chr '\t'

/-- Visible characters, bytes above ASCII, and white space. -/
def isFieldChar (c : UInt8) : Bool := isOws c || 0x21 ≤ c && c ≠ 0x7f

/-- A character without case. -/
def lower (c : UInt8) : UInt8 := if chr 'A' ≤ c ∧ c ≤ chr 'Z' then c + 0x20 else c

def fold (name : Bytes) : Bytes := name.map lower

/-- A value without the white space around it. -/
def strip (value : Bytes) : Bytes := (value.dropWhile isOws).rdropWhile isOws

theorem dropWhile_eq_self {p : UInt8 → Bool} {l : Bytes} (h : ∀ c ∈ l.head?, p c = false) :
    l.dropWhile p = l := by
  cases l with
  | nil => rfl
  | cons c l => exact List.dropWhile_cons_of_neg (by rw [h c rfl]; exact Bool.false_ne_true)

theorem head?_dropWhile {p : UInt8 → Bool} (l : Bytes) :
    ∀ c ∈ (l.dropWhile p).head?, p c = false := by
  induction l with
  | nil => exact fun c hc => nomatch hc
  | cons a l ih =>
    by_cases ha : p a = true
    · rwa [List.dropWhile_cons_of_pos ha]
    · rw [List.dropWhile_cons_of_neg ha]
      rintro c ⟨⟩
      exact Bool.eq_false_iff.mpr ha

theorem strip_eq_self {v : Bytes} (hhead : ∀ c ∈ v.head?, isOws c = false)
    (hlast : ∀ c ∈ v.getLast?, isOws c = false) : strip v = v := by
  rw [strip, dropWhile_eq_self hhead, List.rdropWhile_eq_self_iff]
  intro hne
  rw [hlast _ (List.getLast?_eq_some_getLast hne)]
  exact Bool.false_ne_true

theorem head?_strip (v : Bytes) : ∀ c ∈ (strip v).head?, isOws c = false := by
  intro c hc
  obtain ⟨t, ht⟩ := List.rdropWhile_prefix isOws (v.dropWhile isOws)
  refine head?_dropWhile v c ?_
  rw [← ht]
  exact List.mem_head?_append_of_mem_head? hc

theorem getLast?_strip (v : Bytes) : ∀ c ∈ (strip v).getLast?, isOws c = false := by
  intro c hc
  have hne : strip v ≠ [] := by
    rintro heq
    rw [heq] at hc
    cases hc
  rw [List.getLast?_eq_some_getLast hne] at hc
  obtain rfl := Option.some.inj hc
  exact Bool.eq_false_iff.mpr (List.rdropWhile_last_not isOws _ hne)

@[simp] theorem strip_strip (value : Bytes) : strip (strip value) = strip value :=
  strip_eq_self (head?_strip value) (getLast?_strip value)

theorem strip_sublist (value : Bytes) : (strip value).Sublist value :=
  (List.rdropWhile_prefix isOws _).sublist.trans (List.dropWhile_sublist isOws)

end Http
