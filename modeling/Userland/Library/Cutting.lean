import Mathlib.Data.List.Basic

/-!
# Cutting a text where a machine says

A machine reads a list from left to right, and the list is cut at the separators where the state of
the machine calls for it (`cutBy`). The pieces joined with the separator are the list
(`intercalate_cutBy`), and the places between pieces are those where the machine cuts
(`isCut_cutBy_iff`).
-/

set_option autoImplicit false
set_option relaxedAutoImplicit false

namespace Userland.Library

variable {σ α : Type*}

/-- The list with an element put before its first piece. -/
def consFirst (a : α) : List (List α) → List (List α)
  | [] => [[a]]
  | piece :: rest => (a :: piece) :: rest

section

variable [DecidableEq α] (step : σ → α → σ) (cut : σ → Bool) (separator : α)

/-- The pieces of a list, cut at the separators that are reached in a state where `cut` holds. -/
def cutBy : σ → List α → List (List α)
  | _, [] => [[]]
  | state, a :: rest =>
    if a = separator ∧ cut state = true then [] :: cutBy (step state a) rest
    else consFirst a (cutBy (step state a) rest)

theorem cutBy_ne_nil (state : σ) (list : List α) : cutBy step cut separator state list ≠ [] := by
  cases list with
  | nil => exact List.cons_ne_nil _ _
  | cons a rest =>
    rw [cutBy]
    split_ifs with h
    · exact List.cons_ne_nil _ _
    · cases cutBy step cut separator (step state a) rest <;> exact List.cons_ne_nil _ _

end

variable {pieces : List (List α)}

theorem intercalate_consFirst {separator : List α} {a : α} (h : pieces ≠ []) :
    separator.intercalate (consFirst a pieces) = a :: separator.intercalate pieces := by
  cases pieces with
  | nil => exact absurd rfl h
  | cons piece rest =>
    rw [consFirst]
    cases rest with
    | nil => rw [List.intercalate_singleton, List.intercalate_singleton]
    | cons next rest =>
      rw [List.intercalate_cons_cons, List.intercalate_cons_cons, List.cons_append,
        List.cons_append]

theorem intercalate_nil_cons {separator : α} (h : pieces ≠ []) :
    [separator].intercalate ([] :: pieces) = separator :: [separator].intercalate pieces := by
  cases pieces with
  | nil => exact absurd rfl h
  | cons piece rest => rw [List.intercalate_cons_cons, List.nil_append, List.cons_append,
    List.nil_append]

section

variable [DecidableEq α] (step : σ → α → σ) (cut : σ → Bool) (separator : α)

/-- Joined with the separator, the pieces are the list. -/
theorem intercalate_cutBy (state : σ) (list : List α) :
    [separator].intercalate (cutBy step cut separator state list) = list := by
  induction list generalizing state with
  | nil => rfl
  | cons a rest ih =>
    have hne := cutBy_ne_nil step cut separator (step state a) rest
    rw [cutBy]
    split_ifs with h
    · rw [intercalate_nil_cons hne, ih, h.1]
    · rw [intercalate_consFirst hne, ih]

/-- A list of pieces has a border behind the text `before`. -/
def IsCut (pieces : List (List α)) (before : List α) : Prop :=
  ∃ first second, first ≠ [] ∧ second ≠ [] ∧ pieces = first ++ second ∧
    before = [separator].intercalate first

variable {separator}

omit [DecidableEq α] in
theorem isCut_nil_cons (h : pieces ≠ []) (before : List α) : IsCut separator ([] :: pieces) before ↔
      before = [] ∨ ∃ rest, before = separator :: rest ∧ IsCut separator pieces rest := by
  constructor
  · rintro ⟨first, second, hfirst, hsecond, hpieces, rfl⟩
    obtain ⟨piece, first, rfl⟩ := List.exists_cons_of_ne_nil hfirst
    rw [List.cons_append, List.cons.injEq] at hpieces
    obtain ⟨rfl, rfl⟩ := hpieces
    by_cases hnil : first = []
    · exact Or.inl (by rw [hnil]; rfl)
    · exact Or.inr ⟨_, intercalate_nil_cons hnil, first, second, hnil, hsecond, rfl, rfl⟩
  · rintro (rfl | ⟨rest, rfl, first, second, hfirst, hsecond, rfl, rfl⟩)
    · exact ⟨[[]], pieces, List.cons_ne_nil _ _, h, rfl, rfl⟩
    · exact ⟨[] :: first, second, List.cons_ne_nil _ _, hsecond, rfl,
        (intercalate_nil_cons hfirst).symm⟩

omit [DecidableEq α] in
theorem isCut_consFirst {a : α} (h : pieces ≠ []) (before : List α) :
    IsCut separator (consFirst a pieces) before ↔
    ∃ rest, before = a :: rest ∧ IsCut separator pieces rest := by
  obtain ⟨piece, others, rfl⟩ := List.exists_cons_of_ne_nil h
  constructor
  · rintro ⟨first, second, hfirst, hsecond, hpieces, rfl⟩
    obtain ⟨head, first, rfl⟩ := List.exists_cons_of_ne_nil hfirst
    rw [consFirst, List.cons_append, List.cons.injEq] at hpieces
    obtain ⟨rfl, rfl⟩ := hpieces
    exact ⟨_, intercalate_consFirst (List.cons_ne_nil piece first), piece :: first, second,
      List.cons_ne_nil _ _, hsecond, rfl, rfl⟩
  · rintro ⟨rest, rfl, first, second, hfirst, hsecond, hpieces, rfl⟩
    obtain ⟨head, first, rfl⟩ := List.exists_cons_of_ne_nil hfirst
    rw [List.cons_append, List.cons.injEq] at hpieces
    obtain ⟨rfl, rfl⟩ := hpieces
    exact ⟨(a :: piece) :: first, second, List.cons_ne_nil _ _, hsecond, rfl,
      (intercalate_consFirst (List.cons_ne_nil piece first)).symm⟩

/-- The borders are at the separators that the machine reaches in a state where it cuts. -/
theorem isCut_cutBy_iff (state : σ) (before after : List α) :
    IsCut separator (cutBy step cut separator state (before ++ separator :: after)) before ↔
      cut (before.foldl step state) = true := by
  induction before generalizing state with
  | nil =>
    have hne := cutBy_ne_nil step cut separator (step state separator) after
    rw [List.nil_append, cutBy, List.foldl_nil]
    split_ifs with h
    · rw [isCut_nil_cons hne]
      exact ⟨fun _ ↦ h.2, fun _ ↦ Or.inl rfl⟩
    · rw [isCut_consFirst hne]
      constructor
      · rintro ⟨rest, hrest, -⟩
        cases hrest
      · intro hcut
        exact absurd ⟨rfl, hcut⟩ h
  | cons a before ih =>
    have hne := cutBy_ne_nil step cut separator (step state a) (before ++ separator :: after)
    rw [List.cons_append, cutBy, List.foldl_cons, ← ih]
    split_ifs with h
    · rw [isCut_nil_cons hne, h.1]
      constructor
      · rintro (hnil | ⟨rest, hrest, hcut⟩)
        · cases hnil
        · rw [List.cons.injEq] at hrest
          rwa [← hrest.2] at hcut
      · intro hcut
        exact Or.inr ⟨before, rfl, hcut⟩
    · rw [isCut_consFirst hne]
      constructor
      · rintro ⟨rest, hrest, hcut⟩
        rw [List.cons.injEq] at hrest
        rwa [← hrest.2] at hcut
      · intro hcut
        exact ⟨before, rfl, hcut⟩

end

end Userland.Library
