import Mathlib.Data.List.Basic

/-!
# How Python sorts a short list

`list.sort` takes the run at the front of a list, ascending as it stands or strictly descending in
reverse, and inserts the elements behind it one by one, each at the place that a bisection finds.
Lists of less than 64 elements are sorted so. Whatever the comparison says, the elements stay the
same (`perm_shortSort`).
-/

set_option autoImplicit false
set_option relaxedAutoImplicit false

namespace Userland.Library.ShortSort

variable {α : Type} (lt : α → α → Bool)

/-- The length of an ascending run behind an element. -/
def ascending : α → List α → ℕ
  | _, [] => 0
  | element, next :: rest => if lt next element then 0 else ascending next rest + 1

/-- The length of a strictly descending run behind an element. -/
def descending : α → List α → ℕ
  | _, [] => 0
  | element, next :: rest => if lt next element then descending next rest + 1 else 0

/-- The run at the front of a list, in ascending order, and what stands behind it. -/
def countRun : List α → List α × List α
  | [] => ([], [])
  | [element] => ([element], [])
  | first :: second :: rest =>
    if lt second first then
      let n := descending lt second rest
      ((first :: second :: rest.take n).reverse, rest.drop n)
    else
      let n := ascending lt second rest
      (first :: second :: rest.take n, rest.drop n)

/-- The place of a pivot between two indexes of a sorted list. -/
def bisect (pivot : α) (list : List α) : (fuel left right : ℕ) → ℕ
  | 0, left, _ => left
  | fuel + 1, left, right =>
    if left < right then
      let middle := left + (right - left) / 2
      match list[middle]? with
      | some element =>
        if lt pivot element then bisect pivot list fuel left middle
        else bisect pivot list fuel (middle + 1) right
      | none => left
    else left

/-- The elements of a short list in the order that `list.sort` gives them. -/
def shortSort (list : List α) : List α :=
  (countRun lt list).2.foldl (fun sorted pivot ↦
    sorted.insertIdx (bisect lt pivot sorted sorted.length 0 sorted.length) pivot)
      (countRun lt list).1

theorem bisect_le (pivot : α) (list : List α) (fuel : ℕ) {left right : ℕ} (h : left ≤ list.length)
    (h' : right ≤ list.length) : bisect lt pivot list fuel left right ≤ list.length := by
  induction fuel generalizing left right with
  | zero => exact h
  | succ fuel ih =>
    rw [bisect]
    split_ifs with hlt
    · dsimp only
      split
      · split_ifs
        · exact ih h (by omega)
        · exact ih (by omega) h'
      · exact h
    · exact h

theorem perm_countRun (list : List α) :
    ((countRun lt list).1 ++ (countRun lt list).2).Perm list := by
  match list with
  | [] => exact List.Perm.refl _
  | [_] => exact List.Perm.refl _
  | first :: second :: rest =>
    rw [countRun]
    split_ifs
    · refine ((List.reverse_perm _).append_right _).trans (List.Perm.of_eq ?_)
      simp
    · refine List.Perm.of_eq ?_
      simp

theorem perm_shortSort (list : List α) : (shortSort lt list).Perm list := by
  refine List.Perm.trans ?_ (perm_countRun lt list)
  have hfold : ∀ rest run : List α, (rest.foldl (fun sorted pivot ↦
      sorted.insertIdx (bisect lt pivot sorted sorted.length 0 sorted.length) pivot) run).Perm
        (run ++ rest) := by
    intro rest
    induction rest with
    | nil => exact fun run ↦ List.Perm.of_eq (List.append_nil run).symm
    | cons pivot rest ih =>
      intro run
      refine (ih _).trans ?_
      refine ((List.perm_insertIdx pivot run
        (bisect_le lt pivot run _ (Nat.zero_le _) (Nat.le_refl _))).append_right rest).trans ?_
      exact List.perm_middle.symm
  exact hfold _ _

end Userland.Library.ShortSort
