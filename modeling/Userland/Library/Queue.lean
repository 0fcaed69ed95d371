import Mathlib.Data.Set.Finite.Lattice
import Mathlib.Logic.Relation
import Mathlib.Order.Interval.Finset.Nat
import Mathlib.Order.WellFounded

/-!
# Queues without a record

A list is gone through by an index, and each element may put further ones at its end, or fail.
Nothing records which elements were taken before. The end of the list is reached, or a failure,
exactly if no chain of elements puts one another there without end (`ends_iff_not_endless`): what an
element puts there is finite, so that a list without end has such a chain.

Scope: what an element finds may depend on a state that the elements before it have changed.
-/

set_option autoImplicit false
set_option relaxedAutoImplicit false

namespace Userland.Library

open Relation

variable {α σ ε : Type}

/-- Goes through the list from an index. -/
def serve (step : σ → α → Except ε (σ × List α)) :
    ℕ → ℕ → σ → List α → Option (Except ε (σ × List α))
  | 0, _, _, _ => none
  | fuel + 1, idx, state, list =>
    match list[idx]? with
    | none => some (.ok (state, list))
    | some a =>
      match step state a with
      | .error e => some (.error e)
      | .ok (next, found) => serve step fuel (idx + 1) next (list ++ found)

/-- After `n` elements were taken without a failure, the state and the list are these. -/
inductive Served (step : σ → α → Except ε (σ × List α)) (start : σ) (first : List α) :
    ℕ → σ → List α → Prop
  | start : Served step start first 0 start first
  | step {n : ℕ} {state next : σ} {list found : List α} {a : α}
      (h : Served step start first n state list)
      (hget : list[n]? = some a) (hstep : step state a = .ok (next, found)) :
      Served step start first (n + 1) next (list ++ found)

/-- The element at index `i` puts the one at index `j` into the list. -/
def Puts (step : σ → α → Except ε (σ × List α)) (start : σ) (first : List α) (i j : ℕ) : Prop :=
  ∃ state next list found a, Served step start first i state list ∧ list[i]? = some a ∧
    step state a = .ok (next, found) ∧ list.length ≤ j ∧ j < list.length + found.length

/-- Elements put one another into the list without end. -/
def EndlesslyPuts (step : σ → α → Except ε (σ × List α)) (start : σ) (first : List α) : Prop :=
  ∃ chain : ℕ → ℕ, chain 0 < first.length ∧ ∀ n, Puts step start first (chain n) (chain (n + 1))

variable {step : σ → α → Except ε (σ × List α)} {start state next : σ} {first list found : List α}
  {fuel n i j : ℕ}

theorem Served.unique {state' : σ} {list' : List α} (h : Served step start first n state list)
    (h' : Served step start first n state' list') : state = state' ∧ list = list' := by
  induction h generalizing state' list' with
  | start =>
    cases h'
    exact ⟨rfl, rfl⟩
  | step h hget hstep ih =>
    obtain ⟨⟩ | ⟨h', hget', hstep'⟩ := h'
    obtain ⟨rfl, rfl⟩ := ih h'
    obtain rfl := Option.some.inj (hget.symm.trans hget')
    obtain ⟨rfl, rfl⟩ := Prod.mk.inj (Except.ok.inj (hstep.symm.trans hstep'))
    exact ⟨rfl, rfl⟩

theorem Served.serve_eq (h : Served step start first n state list) (fuel : ℕ) :
    serve step (fuel + n) 0 start first = serve step fuel n state list := by
  induction h generalizing fuel with
  | start => rfl
  | step h hget hstep ih =>
    rw [← Nat.add_assoc, Nat.add_right_comm, ih, serve]
    simp only [hget, hstep]

theorem Served.of_le (h : Served step start first n state list) (hle : i ≤ n) :
    ∃ state list, Served step start first i state list := by
  induction h with
  | start =>
    obtain rfl := Nat.le_zero.mp hle
    exact ⟨start, first, .start⟩
  | step h hget hstep ih =>
    rcases hle.lt_or_eq with hlt | rfl
    · exact ih (Nat.le_of_lt_succ hlt)
    · exact ⟨_, _, h.step hget hstep⟩

/-- As long as no end is reached, elements are taken. -/
theorem exists_served (h : ∀ fuel, serve step fuel 0 start first = none) (n : ℕ) :
    ∃ state list, Served step start first n state list ∧ n < list.length := by
  induction n with
  | zero =>
    refine ⟨start, first, .start, ?_⟩
    by_contra hlen
    have hend := h 1
    simp only [serve, List.getElem?_eq_none (not_lt.mp hlen), reduceCtorEq] at hend
  | succ n ih =>
    obtain ⟨state, list, hserved, hlt⟩ := ih
    have hget := List.getElem?_eq_getElem hlt
    cases hread : step state list[n] with
    | error e =>
      have hend := (hserved.serve_eq 1).symm.trans (h _)
      simp only [serve, hget, hread, reduceCtorEq] at hend
    | ok result =>
      have hnext : Served step start first (n + 1) result.1 (list ++ result.2) :=
        hserved.step hget hread
      refine ⟨result.1, list ++ result.2, hnext, ?_⟩
      by_contra hlen
      have hend := (hnext.serve_eq 1).symm.trans (h _)
      simp only [serve, List.getElem?_eq_none (not_lt.mp hlen), reduceCtorEq] at hend

theorem Puts.lt (h : Puts step start first i j) : i < j := by
  obtain ⟨state, next, list, found, a, -, hget, -, hle, -⟩ := h
  exact (List.getElem?_eq_some_iff.mp hget).1.trans_le hle

/-- Each element that is not there from the start was put there. -/
theorem Served.exists_puts (h : Served step start first n state list) (hj : j < list.length) :
    j < first.length ∨ ∃ i, Puts step start first i j := by
  induction h with
  | start => exact Or.inl hj
  | @step n state next list found a h hget hstep ih =>
    by_cases hold : j < list.length
    · exact ih hold
    · rw [List.length_append] at hj
      exact Or.inr ⟨n, state, next, list, found, a, h, hget, hstep, not_lt.mp hold, hj⟩

theorem finite_puts (i : ℕ) : {j | Puts step start first i j}.Finite := by
  by_cases hany : ∃ j, Puts step start first i j
  · obtain ⟨-, state, next, list, found, a, hserved, hget, hstep, -⟩ := hany
    refine (Set.finite_Iio (list.length + found.length)).subset ?_
    rintro j ⟨state', next', list', found', a', hserved', hget', hstep', -, hlt⟩
    obtain ⟨rfl, rfl⟩ := hserved.unique hserved'
    obtain rfl := Option.some.inj (hget.symm.trans hget')
    obtain ⟨rfl, rfl⟩ := Prod.mk.inj (Except.ok.inj (hstep.symm.trans hstep'))
    exact hlt
  · exact Set.finite_empty.subset fun j hj ↦ hany ⟨j, hj⟩

/-- An element from which no chain goes on without end leads to finitely many others. -/
theorem finite_below (h : Acc (fun b a ↦ Puts step start first a b) i) :
    {j | ReflTransGen (Puts step start first) i j}.Finite := by
  induction h with
  | intro i _ ih =>
    refine ((Set.finite_singleton i).union ((finite_puts i).biUnion fun c hc ↦ ih c hc)).subset
      fun j hj ↦ ?_
    rcases ReflTransGen.cases_head hj with rfl | ⟨c, hc, hcj⟩
    · exact Or.inl rfl
    · exact Or.inr (Set.mem_biUnion (show Puts step start first i c from hc) hcj)

/-- The end of the list or a failure is reached exactly if no chain of elements goes on without end.
-/
theorem ends_iff_not_endless : (∃ fuel outcome, serve step fuel 0 start first = some outcome) ↔
    ¬ EndlesslyPuts step start first := by
  constructor
  · rintro ⟨fuel, outcome, houtcome⟩ ⟨chain, -, hchain⟩
    have hlong : ∀ n, n ≤ chain n := by
      intro n
      induction n with
      | zero => exact Nat.zero_le _
      | succ n ih => exact ih.trans_lt (hchain n).lt
    -- when the outcome is there, a later element of the chain was taken already
    obtain ⟨state, next, list, found, a, hserved, -⟩ := hchain fuel
    obtain ⟨state, list, hserved⟩ := hserved.of_le (hlong fuel)
    have hnone := hserved.serve_eq 0
    rw [Nat.zero_add, houtcome] at hnone
    cases hnone
  · intro hends
    by_contra hnone
    push Not at hnone
    have hnone' : ∀ fuel, serve step fuel 0 start first = none := fun fuel ↦
      Option.eq_none_iff_forall_ne_some.mpr (hnone fuel)
    have hacc : ∀ i < first.length, Acc (fun b a ↦ Puts step start first a b) i := by
      intro i hi
      by_contra hacc
      obtain ⟨chain, hstart, hchain⟩ := not_acc_iff_exists_descending_chain.mp hacc
      exact hends ⟨chain, hstart ▸ hi, hchain⟩
    have hreached : ∀ j, ∃ i < first.length, ReflTransGen (Puts step start first) i j := by
      intro j
      induction j using Nat.strong_induction_on with
      | h j ih =>
        obtain ⟨state, list, hserved, hlt⟩ := exists_served hnone' j
        rcases hserved.exists_puts hlt with hfirst | ⟨i, hputs⟩
        · exact ⟨j, hfirst, .refl⟩
        · obtain ⟨k, hk, hway⟩ := ih i hputs.lt
          exact ⟨k, hk, hway.tail hputs⟩
    have hfinite : (Set.univ : Set ℕ).Finite := by
      refine ((Set.finite_Iio first.length).biUnion fun i hi ↦
        finite_below (hacc i hi)).subset fun j _ ↦ ?_
      obtain ⟨i, hi, hway⟩ := hreached j
      exact Set.mem_biUnion (show i ∈ Set.Iio first.length from hi) hway
    exact Set.infinite_univ hfinite

end Userland.Library
