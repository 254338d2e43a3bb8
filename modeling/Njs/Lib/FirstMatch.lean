import Mathlib.Data.List.Nodup

/-!
# The first match in a list

Removing and replacing the first element of a list that satisfies a predicate: in lists without
duplicates, and in lists whose elements have different keys.
-/

namespace FirstMatch

variable {α β ι : Type*}

/-- Replace the first element that satisfies a predicate. -/
def replaceP (p : α → Bool) (a : α) : List α → List α
  | [] => []
  | b :: l => if p b then a :: l else b :: replaceP p a l

theorem filter_ne_of_nodup [DecidableEq α] {l₁ l₂ : List α} {a : α}
    (hn : (l₁ ++ a :: l₂).Nodup) : (l₁ ++ a :: l₂).filter (fun b => b ≠ a) = l₁ ++ l₂ := by
  have hnot : a ∉ l₁ ++ l₂ := (List.nodup_middle.mp hn).notMem
  rw [List.filter_append, List.filter_cons_of_neg (by simp), ← List.filter_append]
  refine List.filter_eq_self.mpr fun b hb => decide_eq_true ?_
  rintro rfl
  exact hnot hb

variable {p : α → Bool}

theorem eraseP_eq_filter [DecidableEq α] {l : List α} {a : α} (hn : l.Nodup)
    (h : l.find? p = some a) : l.eraseP p = l.filter fun b => b ≠ a := by
  induction l with
  | nil => simp at h
  | cons b l ih =>
    obtain ⟨hb, hn⟩ := List.nodup_cons.mp hn
    by_cases hp : p b = true
    · obtain rfl : b = a := by simpa [List.find?_cons, hp] using h
      have hall : l.filter (fun c => c ≠ b) = l := by
        refine List.filter_eq_self.mpr fun c hc => ?_
        simp only [decide_eq_true_eq]
        rintro rfl
        exact hb hc
      rw [List.eraseP_cons_of_pos hp, List.filter_cons_of_neg (by simp), hall]
    · have h : l.find? p = some a := by simpa [List.find?_cons, hp] using h
      have hne : b ≠ a := by
        rintro rfl
        exact hb (List.mem_of_find?_eq_some h)
      rw [List.eraseP_cons_of_neg hp, List.filter_cons_of_pos (by simpa using hne), ih hn h]

theorem replaceP_map [DecidableEq α] {f : α → β} {p : β → Bool} {l : List α} {a : α} (b : β)
    (hn : l.Nodup) (h : l.find? (fun x => p (f x)) = some a) :
    replaceP p b (l.map f) = l.map (Function.update f a b) := by
  induction l with
  | nil => simp at h
  | cons c l ih =>
    obtain ⟨hc, hn⟩ := List.nodup_cons.mp hn
    rw [List.map_cons, List.map_cons, replaceP]
    by_cases hp : p (f c) = true
    · obtain rfl : c = a := by simpa [List.find?_cons, hp] using h
      rw [if_pos hp, Function.update_self]
      refine congrArg (b :: ·) (List.map_congr_left fun x hx => ?_)
      rw [Function.update_of_ne]
      rintro rfl
      exact hc hx
    · have h : l.find? (fun x => p (f x)) = some a := by simpa [List.find?_cons, hp] using h
      have hne : c ≠ a := by
        rintro rfl
        exact hc (List.mem_of_find?_eq_some h)
      rw [if_neg hp, Function.update_of_ne hne, ih hn h]

theorem replaceP_of_none {l : List α} (h : l.find? p = none) (b : α) : replaceP p b l = l := by
  induction l with
  | nil => rfl
  | cons c l ih =>
    rw [List.find?_eq_none] at h
    rw [replaceP, if_neg (h c List.mem_cons_self),
      ih (List.find?_eq_none.mpr fun d hd => h d (List.mem_cons_of_mem c hd))]

theorem map_replaceP {f : α → β} {b : α} (h : ∀ a, p a = true → f a = f b) (l : List α) :
    (replaceP p b l).map f = l.map f := by
  induction l with
  | nil => rfl
  | cons c l ih =>
    rw [replaceP]
    split_ifs with hp
    · rw [List.map_cons, List.map_cons, h c hp]
    · rw [List.map_cons, List.map_cons, ih]

/-! ### Lists with different keys -/

theorem exists_of_replaceP {l : List α} {a : α} (h : l.find? p = some a) (b : α) :
    ∃ l₁ l₂, l = l₁ ++ a :: l₂ ∧ replaceP p b l = l₁ ++ b :: l₂ := by
  induction l with
  | nil => simp at h
  | cons c l ih =>
    rw [replaceP]
    by_cases hp : p c = true
    · obtain rfl : c = a := by simpa [List.find?_cons, hp] using h
      exact ⟨[], l, rfl, by rw [if_pos hp, List.nil_append]⟩
    · have h : l.find? p = some a := by simpa [List.find?_cons, hp] using h
      obtain ⟨l₁, l₂, hl, hr⟩ := ih h
      exact ⟨c :: l₁, l₂, by rw [hl, List.cons_append], by rw [if_neg hp, hr, List.cons_append]⟩

theorem exists_of_eraseP {l : List α} {a : α} (h : l.find? p = some a) :
    ∃ l₁ l₂, l = l₁ ++ a :: l₂ ∧ l.eraseP p = l₁ ++ l₂ := by
  induction l with
  | nil => simp at h
  | cons c l ih =>
    by_cases hp : p c = true
    · obtain rfl : c = a := by simpa [List.find?_cons, hp] using h
      exact ⟨[], l, rfl, by rw [List.eraseP_cons_of_pos hp, List.nil_append]⟩
    · have h : l.find? p = some a := by simpa [List.find?_cons, hp] using h
      obtain ⟨l₁, l₂, hl, hr⟩ := ih h
      exact ⟨c :: l₁, l₂, by rw [hl, List.cons_append],
        by rw [List.eraseP_cons_of_neg hp, hr, List.cons_append]⟩

section Keys

variable {key : α → ι} {l l₁ l₂ : List α} {a : α}

variable {p : α → Bool}

theorem nodup_replaceP (hn : (l.map key).Nodup) (h : l.find? p = some a) {b : α}
    (hkey : key b = key a) : ((replaceP p b l).map key).Nodup := by
  obtain ⟨l₁, l₂, rfl, hr⟩ := exists_of_replaceP h b
  rw [hr, List.map_append, List.map_cons, hkey, ← List.map_cons, ← List.map_append]
  exact hn

theorem nodup_eraseP (hn : (l.map key).Nodup) : ((l.eraseP p).map key).Nodup :=
  hn.sublist (List.eraseP_sublist.map key)

variable [DecidableEq ι]

theorem find?_key_removed (hn : ((l₁ ++ a :: l₂).map key).Nodup) :
    (l₁ ++ l₂).find? (fun x => key x = key a) = none := by
  rw [List.map_append, List.map_cons] at hn
  have hnot : key a ∉ l₁.map key ++ l₂.map key := (List.nodup_middle.mp hn).notMem
  rw [List.find?_eq_none]
  intro x hx hkey
  rw [← List.map_append] at hnot
  exact hnot (List.mem_map.mpr ⟨x, hx, of_decide_eq_true hkey⟩)

theorem find?_key_middle (hn : ((l₁ ++ a :: l₂).map key).Nodup) (k : ι) :
    (l₁ ++ a :: l₂).find? (fun x => key x = k) =
      if key a = k then some a else (l₁ ++ l₂).find? fun x => key x = k := by
  rw [List.find?_append, List.find?_append, List.find?_cons]
  by_cases hk : key a = k
  · subst hk
    have hnone := find?_key_removed hn
    rw [List.find?_append, Option.or_eq_none_iff] at hnone
    rw [hnone.1, if_pos rfl, decide_eq_true rfl]
    rfl
  · rw [if_neg hk, decide_eq_false hk]

theorem find?_replaceP (hn : (l.map key).Nodup) (h : l.find? p = some a) {b : α}
    (hkey : key b = key a) (k : ι) :
    (replaceP p b l).find? (fun x => key x = k) =
      if key b = k then some b else l.find? fun x => key x = k := by
  obtain ⟨l₁, l₂, rfl, hr⟩ := exists_of_replaceP h b
  have hn' : ((l₁ ++ b :: l₂).map key).Nodup := by
    rw [List.map_append, List.map_cons, hkey, ← List.map_cons, ← List.map_append]
    exact hn
  rw [hr, find?_key_middle hn', find?_key_middle hn, hkey]
  split <;> rfl

theorem find?_eraseP (hn : (l.map key).Nodup) (h : l.find? p = some a) (k : ι) :
    (l.eraseP p).find? (fun x => key x = k) =
      if key a = k then none else l.find? fun x => key x = k := by
  obtain ⟨l₁, l₂, rfl, hr⟩ := exists_of_eraseP h
  rw [hr, find?_key_middle hn]
  by_cases hk : key a = k
  · rw [if_pos hk, ← hk]
    exact find?_key_removed hn
  · rw [if_neg hk, if_neg hk]

theorem eraseP_of_find?_none (h : l.find? p = none) : l.eraseP p = l :=
  List.eraseP_of_forall_not fun a ha hp => List.find?_eq_none.mp h a ha hp

theorem map_eraseP (hn : (l.map key).Nodup) (k : ι) :
    (l.eraseP fun x => key x = k).map key = (l.map key).filter (· ≠ k) := by
  cases h : l.find? fun x => key x = k with
  | none =>
    rw [eraseP_of_find?_none h, List.filter_eq_self.mpr]
    intro i hi
    obtain ⟨x, hx, rfl⟩ := List.mem_map.mp hi
    simpa using List.find?_eq_none.mp h x hx
  | some a =>
    have ha : key a = k := by simpa using List.find?_some h
    obtain ⟨l₁, l₂, rfl, he⟩ := exists_of_eraseP h
    rw [List.map_append, List.map_cons, ha] at hn ⊢
    rw [he, List.map_append, filter_ne_of_nodup hn]

theorem find?_eraseP_key (hn : (l.map key).Nodup) (k k' : ι) :
    (l.eraseP fun x => key x = k).find? (fun x => key x = k') =
      if k' = k then none else l.find? fun x => key x = k' := by
  cases h : l.find? fun x => key x = k with
  | none =>
    rw [eraseP_of_find?_none h]
    split_ifs with hk
    · rw [hk, h]
    · rfl
  | some a =>
    have ha : key a = k := by simpa using List.find?_some h
    rw [find?_eraseP hn h, ha]
    simp only [eq_comm]

end Keys

end FirstMatch
