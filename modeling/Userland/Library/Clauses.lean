import Mathlib.Algebra.Order.Group.Unbundled.Int
import Mathlib.Data.List.Range

/-!
# Clauses over numbered variables

A literal is an integer: a positive one asserts its variable, a negative one denies it, and zero
never holds. A clause is a list of literals, of which one has to hold, and an assignment is a model
of a list of clauses if it makes every clause hold (`models`). The clause shapes of a package solver
are read as statements about the assignment by `holds_negated`, `holds_asserted` and
`holds_implication`.

`firstModel` searches all assignments of the variables that occur. It finds a model if there is one
(`firstModel_isSome_iff`), so it serves as a reference for solvers that decide satisfiability.
-/

set_option autoImplicit false
set_option relaxedAutoImplicit false

namespace Userland.Library

/-- A literal holds under an assignment. -/
def literalHolds (assignment : ℕ → Bool) (literal : ℤ) : Bool :=
  if literal < 0 then !assignment literal.natAbs
  else 0 < literal && assignment literal.natAbs

/-- Every clause has a literal that holds. -/
def models (assignment : ℕ → Bool) (clauses : List (List ℤ)) : Bool :=
  clauses.all fun clause ↦ clause.any (literalHolds assignment)

/-- Some assignment is a model. -/
def Satisfiable (clauses : List (List ℤ)) : Prop :=
  ∃ assignment, models assignment clauses = true

/-- The clause that denies one of the variables. -/
def negated (numbers : List ℕ) : List ℤ :=
  numbers.map fun number : ℕ ↦ -(number : ℤ)

/-- The clause that asserts one of the variables. -/
def asserted (numbers : List ℕ) : List ℤ :=
  numbers.map fun number : ℕ ↦ (number : ℤ)

/-! ### Reading clauses -/

section Reading

variable {assignment : ℕ → Bool}

theorem literalHolds_natCast {number : ℕ} (h : 0 < number) :
    literalHolds assignment (number : ℤ) = assignment number := by
  simp [literalHolds, h]

theorem literalHolds_neg {number : ℕ} (h : 0 < number) :
    literalHolds assignment (-(number : ℤ)) = !assignment number := by
  rw [literalHolds, if_pos (by omega), Int.natAbs_neg, Int.natAbs_natCast]

theorem models_iff {clauses : List (List ℤ)} :
    models assignment clauses = true ↔
      ∀ clause ∈ clauses, ∃ literal ∈ clause, literalHolds assignment literal = true := by
  simp [models, List.all_eq_true, List.any_eq_true]

theorem models_append {first second : List (List ℤ)} :
    models assignment (first ++ second) = true ↔
      models assignment first = true ∧ models assignment second = true := by
  simp [models, List.all_append]

theorem models_of_subset {first second : List (List ℤ)} (hsub : first ⊆ second)
    (h : models assignment second = true) : models assignment first = true :=
  models_iff.mpr fun clause hclause ↦ models_iff.mp h clause (hsub hclause)

/-- A clause that denies one of a list of variables. -/
theorem holds_negated {numbers : List ℕ} (h : ∀ number ∈ numbers, 0 < number) :
    (∃ literal ∈ negated numbers, literalHolds assignment literal = true) ↔
      ∃ number ∈ numbers, assignment number = false := by
  simp only [negated, List.mem_map, exists_exists_and_eq_and]
  refine exists_congr fun number ↦ and_congr_right fun hmem ↦ ?_
  rw [literalHolds_neg (h number hmem), Bool.not_eq_true']

/-- A clause that asserts one of a list of variables. -/
theorem holds_asserted {numbers : List ℕ} (h : ∀ number ∈ numbers, 0 < number) :
    (∃ literal ∈ asserted numbers, literalHolds assignment literal = true) ↔
      ∃ number ∈ numbers, assignment number = true := by
  simp only [asserted, List.mem_map, exists_exists_and_eq_and]
  refine exists_congr fun number ↦ and_congr_right fun hmem ↦ ?_
  rw [literalHolds_natCast (h number hmem)]

/-- A clause that asserts one of a list of variables if another variable holds. -/
theorem holds_implication {number : ℕ} (h : 0 < number) {numbers : List ℕ}
    (hnumbers : ∀ other ∈ numbers, 0 < other) :
    (∃ literal ∈ -(number : ℤ) :: asserted numbers, literalHolds assignment literal = true) ↔
      (assignment number = true → ∃ other ∈ numbers, assignment other = true) := by
  rw [List.exists_mem_cons_iff, holds_asserted hnumbers, literalHolds_neg h, Bool.not_eq_true',
    ← Bool.not_eq_true, imp_iff_not_or]

end Reading

/-! ### Searching all assignments -/

/-- The sets of true variables among the first `count` ones. -/
def assignments : ℕ → List (List ℕ)
  | 0 => [[]]
  | count + 1 => assignments count ++ (assignments count).map (· ++ [count + 1])

/-- The largest variable that occurs. -/
def maxVariable (clauses : List (List ℤ)) : ℕ :=
  (clauses.flatten.map Int.natAbs).foldr max 0

/-- The first set of true variables that is a model. -/
def firstModel (clauses : List (List ℤ)) : Option (List ℕ) :=
  (assignments (maxVariable clauses)).find? fun numbers ↦ models (· ∈ numbers) clauses

theorem filter_mem_assignments (assignment : ℕ → Bool) (count : ℕ) :
    (List.range' 1 count).filter assignment ∈ assignments count := by
  induction count with
  | zero => simp [assignments]
  | succ count ih =>
    rw [List.range'_1_concat, List.filter_append, assignments, List.mem_append, Nat.add_comm 1]
    by_cases hlast : assignment (count + 1) = true
    · refine Or.inr (List.mem_map.mpr ⟨_, ih, ?_⟩)
      rw [List.filter_cons_of_pos hlast, List.filter_nil]
    · refine Or.inl ?_
      rwa [List.filter_cons_of_neg hlast, List.filter_nil, List.append_nil]

variable {clauses : List (List ℤ)}

theorem natAbs_le_maxVariable {clause : List ℤ} {literal : ℤ}
    (hclause : clause ∈ clauses) (hliteral : literal ∈ clause) :
    literal.natAbs ≤ maxVariable clauses := by
  have hmem : literal.natAbs ∈ clauses.flatten.map Int.natAbs :=
    List.mem_map_of_mem (List.mem_flatten_of_mem hclause hliteral)
  unfold maxVariable
  generalize clauses.flatten.map Int.natAbs = numbers at hmem
  induction numbers with
  | nil => simp at hmem
  | cons first rest ih =>
    rcases List.mem_cons.mp hmem with heq | hrest
    · exact heq ▸ le_max_left _ _
    · exact (ih hrest).trans (le_max_right _ _)

/-- Assignments that agree on the variables that occur have the same clauses. -/
theorem models_of_agree {first second : ℕ → Bool}
    (hagree : ∀ number, 0 < number → number ≤ maxVariable clauses → first number = second number)
    (h : models first clauses = true) : models second clauses = true := by
  rw [models_iff] at h ⊢
  intro clause hclause
  obtain ⟨literal, hliteral, hholds⟩ := h clause hclause
  refine ⟨literal, hliteral, ?_⟩
  rcases eq_or_ne literal 0 with rfl | hzero
  · simp [literalHolds] at hholds
  · rwa [literalHolds, ← hagree _ (Int.natAbs_pos.mpr hzero)
      (natAbs_le_maxVariable hclause hliteral)]

/-- The search finds a model exactly if there is one. -/
theorem firstModel_isSome_iff : (firstModel clauses).isSome ↔ Satisfiable clauses := by
  constructor
  · intro hsome
    obtain ⟨numbers, hnumbers⟩ := Option.isSome_iff_exists.mp hsome
    exact ⟨_, by simpa using List.find?_some hnumbers⟩
  · rintro ⟨assignment, hmodels⟩
    refine List.find?_isSome.mpr ⟨_, filter_mem_assignments assignment _, ?_⟩
    refine models_of_agree (fun number hpos hnumber ↦ ?_) hmodels
    simp [show 1 ≤ number from hpos, show number < 1 + maxVariable clauses by omega]

theorem models_of_firstModel {numbers : List ℕ}
    (h : firstModel clauses = some numbers) : models (· ∈ numbers) clauses = true := by
  simpa using List.find?_some h

end Userland.Library
