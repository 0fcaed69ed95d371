import Mathlib.Data.List.Chain
import Mathlib.Logic.Relation

/-!
# Climbing to a root

A search for the way from a root to an element that goes from the element to its parent, from there
to the next parent and so on, and gives up where there is no parent or a choice of several. It finds
the way exactly if every element on it has one parent (`exists_ascend_eq_ok_iff`), and it ends
exactly if it comes to the root or to an element where it gives up (`exists_ascend_eq_some_iff`).

Scope: the search keeps no record of the elements that it was at, and may climb in a ring for ever.
-/

set_option autoImplicit false
set_option relaxedAutoImplicit false

namespace Userland.Library

open Relation

variable {α : Type*}

/-- Why a climb gives up. -/
inductive Halt
  | orphan
  | several

section

variable [DecidableEq α] (parents : α → List α) (root : α)

/-- The way from the root, found in at most `fuel` steps. -/
def ascend : ℕ → α → List α → Option (Except Halt (List α))
  | 0, _, _ => none
  | fuel + 1, x, path =>
    if x = root then some (.ok path)
    else
      match parents x with
      | [] => some (.error .orphan)
      | [parent] => ascend fuel parent (parent :: path)
      | _ :: _ :: _ => some (.error .several)

end

section

variable (parents : α → List α) (root : α)

/-- The element has one parent, to which the climb goes on. -/
def ClimbStep (x parent : α) : Prop :=
  x ≠ root ∧ parents x = [parent]

/-- A climb from an element comes to another one. -/
def Climbs : α → α → Prop :=
  ReflTransGen (ClimbStep parents root)

/-- A climb stops at an element. -/
def StopsAt (x : α) : Prop :=
  x = root ∨ ∀ parent, parents x ≠ [parent]

/-- A way from the root to an element, from each element to one that it is a parent of. -/
structure IsWay (x : α) (path : List α) : Prop where
  chain : path.IsChain fun parent child ↦ parent ∈ parents child
  head : path.head? = some root
  last : path.getLast? = some x

end

variable {parents : α → List α} {root x y z : α}

/-- The climb has one course. -/
theorem eq_of_climbs_of_stopsAt (hy : Climbs parents root x y) (hz : Climbs parents root x z)
    (hstops : StopsAt parents root y) (hstops' : StopsAt parents root z) : y = z := by
  induction hy using ReflTransGen.head_induction_on with
  | refl =>
    rcases hz.cases_head with rfl | ⟨parent, hstep, -⟩
    · rfl
    · rcases hstops with hroot | hnone
      · exact absurd hroot hstep.1
      · exact absurd hstep.2 (hnone parent)
  | head hstep hrest ih =>
    rcases hz.cases_head with rfl | ⟨parent, hstep', hrest'⟩
    · rcases hstops' with hroot | hnone
      · exact absurd hroot hstep.1
      · exact absurd hstep.2 (hnone _)
    · obtain rfl : _ = parent := (List.cons_eq_cons.mp (hstep.2.symm.trans hstep'.2)).1
      exact ih hrest'

section Ascend

variable [DecidableEq α]

theorem ascend_root (fuel : ℕ) (path : List α) :
    ascend parents root (fuel + 1) root path = some (.ok path) :=
  if_pos rfl

theorem ascend_step {parent : α} (h : ClimbStep parents root x parent) (fuel : ℕ) (path : List α) :
    ascend parents root (fuel + 1) x path = ascend parents root fuel parent (parent :: path) := by
  rw [ascend, if_neg h.1, h.2]

/-- What the climb ends with is settled by the element that it stops at. -/
theorem exists_ascend_of_climbs (h : Climbs parents root x y) (hstops : StopsAt parents root y)
    (path : List α) :
    ∃ fuel outcome, ascend parents root fuel x path = some outcome ∧
      (y = root ↔ ∃ result, outcome = .ok result) := by
  induction h using ReflTransGen.head_induction_on generalizing path with
  | refl =>
    by_cases hroot : y = root
    · rw [hroot]
      exact ⟨1, .ok path, ascend_root 0 path, iff_of_true rfl ⟨path, rfl⟩⟩
    · have hnone := hstops.resolve_left hroot
      refine ⟨1, .error (if parents y = [] then .orphan else .several), ?_, iff_of_false hroot ?_⟩
      · rw [ascend, if_neg hroot]
        match hparents : parents y with
        | [] => rfl
        | [parent] => exact absurd hparents (hnone parent)
        | _ :: _ :: _ => rfl
      · rintro ⟨result, hresult⟩
        cases hresult
  | head hstep hrest ih =>
    obtain ⟨fuel, outcome, hascend, hok⟩ := ih (_ :: path)
    exact ⟨fuel + 1, outcome, (ascend_step hstep fuel path).trans hascend, hok⟩

theorem exists_climbs_of_ascend {fuel : ℕ} {path : List α} {outcome : Except Halt (List α)}
    (h : ascend parents root fuel x path = some outcome) :
    ∃ y, Climbs parents root x y ∧ StopsAt parents root y ∧
    (y = root ↔ ∃ result, outcome = .ok result) := by
  induction fuel generalizing x path with
  | zero => cases h
  | succ fuel ih =>
    by_cases hroot : x = root
    · rw [hroot, ascend_root] at h
      exact ⟨x, .refl, Or.inl hroot, iff_of_true hroot ⟨path, (Option.some.inj h).symm⟩⟩
    · match hparents : parents x with
      | [parent] =>
        rw [ascend_step ⟨hroot, hparents⟩] at h
        obtain ⟨y, hclimbs, hrest⟩ := ih h
        exact ⟨y, .head ⟨hroot, hparents⟩ hclimbs, hrest⟩
      | [] =>
        rw [ascend, if_neg hroot, hparents] at h
        obtain rfl := Option.some.inj h
        refine ⟨x, .refl, Or.inr fun parent ↦ ?_,
          iff_of_false hroot fun ⟨result, hresult⟩ ↦ by cases hresult⟩
        rw [hparents]
        exact List.cons_ne_nil _ _ |>.symm
      | first :: second :: rest =>
        rw [ascend, if_neg hroot, hparents] at h
        obtain rfl := Option.some.inj h
        refine ⟨x, .refl, Or.inr fun parent ↦ ?_,
          iff_of_false hroot fun ⟨result, hresult⟩ ↦ by cases hresult⟩
        rw [hparents]
        intro heq
        cases (List.cons_eq_cons.mp heq).2

/-- The search ends exactly if the climb stops somewhere. -/
theorem exists_ascend_eq_some_iff (path : List α) :
    (∃ fuel outcome, ascend parents root fuel x path = some outcome) ↔
      ∃ y, Climbs parents root x y ∧ StopsAt parents root y := by
  constructor
  · rintro ⟨fuel, outcome, h⟩
    obtain ⟨y, hclimbs, hstops, -⟩ := exists_climbs_of_ascend h
    exact ⟨y, hclimbs, hstops⟩
  · rintro ⟨y, hclimbs, hstops⟩
    obtain ⟨fuel, outcome, h, -⟩ := exists_ascend_of_climbs hclimbs hstops path
    exact ⟨fuel, outcome, h⟩

/-- The search finds a way exactly if the climb comes to the root. -/
theorem exists_ascend_eq_ok_iff (path : List α) :
    (∃ fuel result, ascend parents root fuel x path = some (.ok result)) ↔
    Climbs parents root x root := by
  constructor
  · rintro ⟨fuel, result, h⟩
    obtain ⟨y, hclimbs, -, hok⟩ := exists_climbs_of_ascend h
    rwa [hok.mpr ⟨result, rfl⟩] at hclimbs
  · intro h
    obtain ⟨fuel, outcome, hascend, hok⟩ := exists_ascend_of_climbs h (Or.inl rfl) path
    obtain ⟨result, rfl⟩ := hok.mp rfl
    exact ⟨fuel, result, hascend⟩

/-- What the search finds is a way. -/
theorem isWay_of_ascend {fuel : ℕ} {path result : List α} {element : α}
    (hchain : path.IsChain fun parent child ↦ parent ∈ parents child) (hhead : path.head? = some x)
    (hlast : path.getLast? = some element)
    (h : ascend parents root fuel x path = some (.ok result)) :
    IsWay parents root element result := by
  induction fuel generalizing x path with
  | zero => cases h
  | succ fuel ih =>
    by_cases hroot : x = root
    · rw [hroot, ascend_root] at h
      obtain rfl := Except.ok.inj (Option.some.inj h)
      exact ⟨hchain, hroot ▸ hhead, hlast⟩
    · match hparents : parents x with
      | [parent] =>
        rw [ascend_step ⟨hroot, hparents⟩] at h
        refine ih ?_ rfl ?_ h
        · obtain ⟨rest, rfl⟩ : ∃ rest, path = x :: rest := by
            cases path with
            | nil => cases hhead
            | cons first rest => exact ⟨rest, by rw [Option.some.inj hhead]⟩
          exact List.isChain_cons_cons.mpr ⟨by rw [hparents]; exact List.mem_singleton_self parent,
            hchain⟩
        · cases path with
          | nil => cases hhead
          | cons first rest => rw [List.getLast?_cons_cons, hlast]
      | [] =>
        rw [ascend, if_neg hroot, hparents] at h
        cases Option.some.inj h
      | _ :: _ :: _ =>
        rw [ascend, if_neg hroot, hparents] at h
        cases Option.some.inj h

/-- The search ends, and finds a way where there is one, exactly if the climb stops, at the root
where there is a way. -/
theorem ends_and_finds_iff : ((∃ fuel outcome, ascend parents root fuel x [x] = some outcome) ∧
    ((∃ path, IsWay parents root x path) →
      ∃ fuel path, ascend parents root fuel x [x] = some (.ok path) ∧ IsWay parents root x path)) ↔
      ∃ y, Climbs parents root x y ∧ StopsAt parents root y ∧
      ((∃ path, IsWay parents root x path) → y = root) := by
  constructor
  · rintro ⟨hends, hfinds⟩
    obtain ⟨y, hclimbs, hstops⟩ := (exists_ascend_eq_some_iff [x]).mp hends
    refine ⟨y, hclimbs, hstops, fun hway ↦ ?_⟩
    obtain ⟨fuel, path, hfound, -⟩ := hfinds hway
    exact eq_of_climbs_of_stopsAt hclimbs ((exists_ascend_eq_ok_iff [x]).mp ⟨fuel, path, hfound⟩)
      hstops (Or.inl rfl)
  · rintro ⟨y, hclimbs, hstops, hroot⟩
    refine ⟨(exists_ascend_eq_some_iff [x]).mpr ⟨y, hclimbs, hstops⟩, fun hway ↦ ?_⟩
    obtain rfl := hroot hway
    obtain ⟨fuel, path, hfound⟩ := (exists_ascend_eq_ok_iff [x]).mpr hclimbs
    exact ⟨fuel, path, hfound, isWay_of_ascend (List.isChain_singleton x) rfl rfl hfound⟩

end Ascend

end Userland.Library
