import Mathlib.Data.List.Infix

/-!
# The first occurrence of a word

The place where a word occurs first in a text (`find`), in a text with another character in front
(`find_cons`) and in one that goes on behind a character that the word has not (`find_append`).
-/

set_option autoImplicit false
set_option relaxedAutoImplicit false

namespace Userland.Library

variable {α : Type*} [DecidableEq α]

/-- The place where a word occurs first. -/
def find (word : List α) : List α → Option ℕ
  | [] => if word.isEmpty then some 0 else none
  | c :: rest => if word.isPrefixOf (c :: rest) then some 0 else (find word rest).map (· + 1)

variable {word text rest : List α}

theorem find_of_begins (h : word <+: text) : find word text = some 0 := by
  cases text with
  | nil => rw [find, List.prefix_nil.mp h, List.isEmpty_nil, if_pos rfl]
  | cons c rest => rw [find, if_pos (List.isPrefixOf_iff_prefix.mpr h)]

theorem find_cons {c : α} (h : ¬ word <+: c :: rest) :
    find word (c :: rest) = (find word rest).map (· + 1) := by
  rw [find, if_neg (mt List.isPrefixOf_iff_prefix.mp h)]

/-- At the place where a word is found it occurs. -/
theorem prefix_of_find {place : ℕ} (h : find word text = some place) :
    word <+: text.drop place := by
  induction text generalizing place with
  | nil =>
    rw [find] at h
    split_ifs at h with hempty
    rw [List.isEmpty_iff.mp hempty]
    exact List.nil_prefix
  | cons c rest ih =>
    by_cases hbegins : word <+: c :: rest
    · rw [find_of_begins hbegins] at h
      obtain rfl := Option.some.inj h
      exact hbegins
    · rw [find_cons hbegins, Option.map_eq_some_iff] at h
      obtain ⟨before, hbefore, rfl⟩ := h
      exact ih hbefore

theorem le_of_find {place : ℕ} (h : find word text = some place) (hword : word ≠ []) :
    place + word.length ≤ text.length := by
  have hlength := (prefix_of_find h).length_le
  have hpos := List.length_pos_iff.mpr hword
  rw [List.length_drop] at hlength
  omega

/-- Before the place where a word is found it does not occur. -/
theorem not_prefix_of_lt_find {place earlier : ℕ} (h : find word text = some place)
    (hlt : earlier < place) :
    ¬ word <+: text.drop earlier := by
  induction text generalizing place earlier with
  | nil =>
    rw [find] at h
    split_ifs at h
    obtain rfl := Option.some.inj h
    exact absurd hlt (Nat.not_lt_zero earlier)
  | cons c rest ih =>
    by_cases hbegins : word <+: c :: rest
    · rw [find_of_begins hbegins] at h
      obtain rfl := Option.some.inj h
      exact absurd hlt (Nat.not_lt_zero earlier)
    · rw [find_cons hbegins, Option.map_eq_some_iff] at h
      obtain ⟨before, hbefore, rfl⟩ := h
      cases earlier with
      | zero => exact hbegins
      | succ earlier => exact ih hbefore (Nat.lt_of_succ_lt_succ hlt)

theorem find_drop_eq_none (h : find word text = none) (place : ℕ) :
    find word (text.drop place) = none := by
  induction text generalizing place with
  | nil => rwa [List.drop_nil]
  | cons c rest ih =>
    cases place with
    | zero => exact h
    | succ place =>
      have hnot : ¬ word <+: c :: rest := fun hbegins ↦ by
        rw [find_of_begins hbegins] at h
        cases h
      rw [find_cons hnot, Option.map_eq_none_iff] at h
      exact ih h place

/-- Behind a place before the first occurrence, the word is found where it is. -/
theorem find_drop {place start : ℕ} (h : find word text = some (start + place)) :
    find word (text.drop start) = some place := by
  induction start generalizing text with
  | zero =>
    rw [Nat.zero_add] at h
    exact h
  | succ start ih =>
    cases text with
    | nil =>
      rw [find] at h
      split_ifs at h
      have := Option.some.inj h
      omega
    | cons c rest =>
      have hnot : ¬ word <+: c :: rest := fun hbegins ↦ by
        rw [find_of_begins hbegins] at h
        have := Option.some.inj h
        omega
      rw [find_cons hnot, Option.map_eq_some_iff] at h
      obtain ⟨before, hbefore, heq⟩ := h
      obtain rfl : before = start + place := by omega
      exact ih hbefore

omit [DecidableEq α] in
/-- An occurrence that begins before a character that the word has not ends before it. -/
theorem prefix_append_iff {c : α} (hword : c ∉ word) :
    word <+: text ++ c :: rest ↔ word <+: text := by
  constructor
  · intro h
    rcases List.prefix_or_prefix_of_prefix h
      (List.prefix_append text (c :: rest)) with hbegins | ⟨last, rfl⟩
    · exact hbegins
    · cases last with
      | nil => rw [List.append_nil]
      | cons d last =>
        obtain ⟨rfl, -⟩ := List.cons_prefix_cons.mp ((List.prefix_append_right_inj text).mp h)
        exact absurd (List.mem_append_right text List.mem_cons_self) hword
  · exact fun h ↦ h.trans (List.prefix_append text (c :: rest))

/-- What follows a character that the word has not changes no first occurrence before it. -/
theorem find_append {c : α} (hword : c ∉ word) (hne : word ≠ [])
    (h : find word (c :: rest) = none) :
    find word (text ++ c :: rest) = find word text := by
  induction text with
  | nil =>
    have hempty : ¬ word.isEmpty := fun hempty ↦ hne (List.isEmpty_iff.mp hempty)
    rw [List.nil_append, h, find, if_neg hempty]
  | cons d text ih =>
    by_cases hbegins : word <+: d :: text
    · rw [find_of_begins hbegins, find_of_begins (hbegins.trans (List.prefix_append _ _))]
    · have hnot : ¬ word <+: d :: text ++ c :: rest := mt (prefix_append_iff hword).mp hbegins
      rw [List.cons_append] at hnot ⊢
      rw [find_cons hbegins, find_cons hnot, ih]

end Userland.Library
