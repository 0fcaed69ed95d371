import Mathlib.Data.List.Basic

/-!
# Comparing one component after the other

Two records are compared component by component: a component that is less settles the comparison,
and the next one is looked at if an equality holds of the two. The equality need not be the
identity, so a component that was passed may be greater. The pairs that are looked at are those up
to the first one the equality tells apart (`compared`), and the comparison holds if one of them is
less (`chainLess_iff`).
-/

set_option autoImplicit false
set_option relaxedAutoImplicit false

namespace Userland.Library

variable {κ : Type} (eq : κ → κ → Bool)

/-- The pairs up to and including the first one that is told apart. -/
def compared : List (κ × κ) → List (κ × κ)
  | [] => []
  | pair :: rest => pair :: if eq pair.1 pair.2 then compared rest else []

/-- The pairs are looked at one after the other. -/
def chainLess (lt : κ → κ → Bool) : List (κ × κ) → Bool
  | [] => false
  | pair :: rest =>
    if lt pair.1 pair.2 then true
    else if !eq pair.1 pair.2 then false
    else chainLess lt rest

variable {eq} {pairs : List (κ × κ)}

theorem mem_of_mem_compared {pair : κ × κ} (h : pair ∈ compared eq pairs) : pair ∈ pairs := by
  induction pairs with
  | nil => exact h
  | cons first rest ih =>
    rw [compared] at h
    rcases List.mem_cons.mp h with rfl | htail
    · exact List.mem_cons_self
    · split_ifs at htail
      · exact List.mem_cons_of_mem _ (ih htail)
      · cases htail

theorem chainLess_iff {lt : κ → κ → Bool} :
    chainLess eq lt pairs = true ↔ ∃ pair ∈ compared eq pairs, lt pair.1 pair.2 = true := by
  induction pairs with
  | nil => simp [chainLess, compared]
  | cons first rest ih =>
    rw [chainLess, compared]
    by_cases hlt : lt first.1 first.2 = true
    · simp [hlt]
    · by_cases heq : eq first.1 first.2 = true <;> simp [hlt, heq, ih]

/-- Both sides look at the same pairs if the equality is symmetric. -/
theorem compared_swap (hsymm : ∀ x y, eq x y = eq y x) (pairs : List (κ × κ)) :
    compared eq (pairs.map Prod.swap) = (compared eq pairs).map Prod.swap := by
  induction pairs with
  | nil => rfl
  | cons first rest ih =>
    simp only [List.map_cons, compared, ih, Prod.fst_swap, Prod.snd_swap, hsymm first.2]
    split_ifs <;> rfl

/-- A pair is looked at if every pair before it passes. -/
theorem mem_compared_append {before after : List (κ × κ)} {pair : κ × κ}
    (h : ∀ other ∈ before, eq other.1 other.2 = true) :
    pair ∈ compared eq (before ++ pair :: after) := by
  induction before with
  | nil => exact List.mem_cons_self
  | cons first rest ih =>
    obtain ⟨hfirst, hrest⟩ := List.forall_mem_cons.mp h
    rw [List.cons_append, compared, if_pos hfirst]
    exact List.mem_cons_of_mem _ (ih hrest)

/-- Every pair is looked at if all of them pass. -/
theorem compared_eq_self (h : ∀ pair ∈ pairs, eq pair.1 pair.2 = true) :
    compared eq pairs = pairs := by
  induction pairs with
  | nil => rfl
  | cons first rest ih =>
    obtain ⟨hfirst, hrest⟩ := List.forall_mem_cons.mp h
    rw [compared, if_pos hfirst, ih hrest]

end Userland.Library
