import Mathlib.Data.List.Induction
import Mathlib.Order.Basic

/-!
# The last place of an element

The place where an element stands last in a list (`IsLast`) after an element is added at the end of
the list, or in the place of another one.
-/

set_option autoImplicit false
set_option relaxedAutoImplicit false

namespace Userland.Library

variable {α : Type} {list : List α} {element other : α} {idx : ℕ}

/-- An element stands at a place, and at no later one. -/
def IsLast (list : List α) (element : α) (idx : ℕ) : Prop :=
  list[idx]? = some element ∧ ∀ place, list[place]? = some element → place ≤ idx

theorem IsLast.unique {place : ℕ} (h : IsLast list element idx) (h' : IsLast list element place) :
    idx = place :=
  Nat.le_antisymm (h'.2 idx h.1) (h.2 place h'.1)

theorem IsLast.mem (h : IsLast list element idx) : element ∈ list :=
  List.mem_of_getElem? h.1

theorem isLast_append_self (list : List α) (element : α) :
    IsLast (list ++ [element]) element list.length := by
  refine ⟨List.getElem?_concat_length, fun place hplace ↦ ?_⟩
  obtain ⟨hlt, -⟩ := List.getElem?_eq_some_iff.mp hplace
  rw [List.length_append, List.length_singleton] at hlt
  exact Nat.le_of_lt_succ hlt

/-- The places of other elements. -/
theorem getElem?_append_of_ne (hne : other ≠ element) (place : ℕ) :
    (list ++ [element])[place]? = some other ↔ list[place]? = some other := by
  rcases Nat.lt_trichotomy place list.length with hlt | rfl | hgt
  · rw [List.getElem?_append_left hlt]
  · rw [List.getElem?_concat_length, List.getElem?_eq_none (Nat.le_refl _)]
    simpa using hne.symm
  · rw [List.getElem?_eq_none (Nat.le_of_lt hgt), List.getElem?_eq_none]
    rw [List.length_append, List.length_singleton]
    exact hgt

theorem isLast_append_of_ne (hne : other ≠ element) :
    IsLast (list ++ [element]) other idx ↔ IsLast list other idx := by
  simp only [IsLast, getElem?_append_of_ne hne]

theorem exists_isLast (h : element ∈ list) : ∃ idx, IsLast list element idx := by
  classical
  induction list using List.reverseRecOn with
  | nil => exact absurd h List.not_mem_nil
  | append_singleton list last ih =>
    by_cases heq : element = last
    · exact ⟨list.length, heq ▸ isLast_append_self list last⟩
    · have hmem := (List.mem_append.mp h).resolve_right fun hlast ↦
        heq (List.mem_singleton.mp hlast)
      exact (ih hmem).imp fun idx hidx ↦ (isLast_append_of_ne heq).mpr hidx

variable {blank : α} {hole : ℕ}

/-- The places of other elements when a blank is replaced. -/
theorem getElem?_set_of_ne (hhole : list[hole]? = some blank) (hne : other ≠ element)
    (hblank : other ≠ blank)
    (place : ℕ) : (list.set hole element)[place]? = some other ↔ list[place]? = some other := by
  by_cases hplace : hole = place
  · subst hplace
    obtain ⟨hlt, -⟩ := List.getElem?_eq_some_iff.mp hhole
    rw [List.getElem?_set_self hlt, hhole, Option.some_inj, Option.some_inj]
    exact iff_of_false hne.symm hblank.symm
  · rw [List.getElem?_set_ne hplace]

theorem isLast_set_of_ne (hhole : list[hole]? = some blank) (hne : other ≠ element)
    (hblank : other ≠ blank) :
    IsLast (list.set hole element) other idx ↔ IsLast list other idx := by
  simp only [IsLast, getElem?_set_of_ne hhole hne hblank]

/-- An element that is put in the place of a blank stands there last, if it stands before it only.
-/
theorem isLast_set_self (hhole : hole < list.length)
    (h : ∀ place, IsLast list element place → place < hole) :
    IsLast (list.set hole element) element hole := by
  refine ⟨List.getElem?_set_self hhole, fun place hplace ↦ ?_⟩
  by_cases heq : hole = place
  · exact Nat.le_of_eq heq.symm
  · rw [List.getElem?_set_ne heq] at hplace
    obtain ⟨last, hlast⟩ := exists_isLast (List.mem_of_getElem? hplace)
    exact Nat.le_trans (hlast.2 place hplace) (Nat.le_of_lt (h last hlast))

end Userland.Library
