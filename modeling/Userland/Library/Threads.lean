import Mathlib.Data.List.Basic
import Mathlib.Data.List.Nodup
import Mathlib.Logic.Function.Basic

/-!
# Threaded references

Unresolved references can be threaded through the very field that is to hold their target
(`Threaded`): each one links to the next, and the last one to none. A thread is followed to its end
(`threadEnd_eq`), is lengthened there (`threaded_append`), and is resolved by setting every link of
it to the target (`resolve_apply`).
-/

set_option autoImplicit false
set_option relaxedAutoImplicit false

namespace Userland.Library

variable {α : Type*}

/-- Each place links to the next one, and the last one to none. -/
def Threaded (link : α → Option α) : List α → Prop
  | [] => True
  | [place] => link place = none
  | place :: next :: places => link place = some next ∧ Threaded link (next :: places)

/-- The last place of a thread, followed for at most some steps. -/
def threadEnd (link : α → Option α) : ℕ → α → α
  | 0, place => place
  | fuel + 1, place =>
    match link place with
    | none => place
    | some next => threadEnd link fuel next

variable {link : α → Option α} {place target : α} {places : List α} {fuel : ℕ}

theorem threaded_cons_iff : Threaded link (place :: places) ↔
    link place = places.head? ∧ Threaded link places := by
  cases places with
  | nil => exact ⟨fun h ↦ ⟨h, trivial⟩, fun h ↦ h.1⟩
  | cons next places => exact Iff.rfl

theorem threadEnd_eq (h : Threaded link (place :: places)) (hfuel : places.length ≤ fuel) :
    threadEnd link fuel place = (place :: places).getLast (List.cons_ne_nil place places) := by
  induction places generalizing place fuel with
  | nil =>
    cases fuel with
    | zero => rfl
    | succ fuel =>
      rw [threadEnd, show link place = none from h]
      rfl
  | cons next places ih =>
    obtain ⟨hlink, hrest⟩ := h
    cases fuel with
    | zero => exact absurd hfuel (Nat.not_succ_le_zero _)
    | succ fuel =>
      rw [threadEnd, hlink, List.getLast_cons (List.cons_ne_nil next places)]
      exact ih hrest (Nat.le_of_succ_le_succ hfuel)

theorem threaded_congr {link' : α → Option α} (h : ∀ place ∈ places, link' place = link place) :
    Threaded link' places ↔ Threaded link places := by
  induction places with
  | nil => exact Iff.rfl
  | cons place places ih =>
    rw [threaded_cons_iff, threaded_cons_iff, h place List.mem_cons_self,
      ih fun next hnext ↦ h next (List.mem_cons_of_mem place hnext)]

variable [DecidableEq α]

/-- Every place of a thread links to the target, which is followed for at most some steps. -/
def resolve (target : α) : ℕ → (α → Option α) → α → (α → Option α)
  | 0, link, _ => link
  | fuel + 1, link, place =>
    match link place with
    | none => Function.update link place (some target)
    | some next => resolve target fuel (Function.update link place (some target)) next

theorem threaded_update (hplace : place ∉ places) (value : Option α) :
    Threaded (Function.update link place value) places ↔ Threaded link places :=
  threaded_congr fun _ hnext ↦ Function.update_of_ne (ne_of_mem_of_not_mem hnext hplace) _ _

/-- A place that links to none becomes the end of the thread. -/
theorem threaded_append (h : Threaded link places) (hnodup : (places ++ [place]).Nodup)
    (hplace : link place = none) (hne : places ≠ []) :
    Threaded (Function.update link (places.getLast hne) (some place)) (places ++ [place]) := by
  induction places with
  | nil => exact absurd rfl hne
  | cons first places ih =>
    rw [List.cons_append, threaded_cons_iff] at *
    rw [List.nodup_cons] at hnodup
    cases places with
    | nil =>
      have hneq : place ≠ first := fun heq ↦ hnodup.1 (List.mem_singleton.mpr heq.symm)
      refine ⟨Function.update_self .., ?_⟩
      show Function.update link first (some place) place = none
      rw [Function.update_of_ne hneq, hplace]
    | cons next places =>
      have hlast : (first :: next :: places).getLast hne =
          (next :: places).getLast (List.cons_ne_nil next places) :=
        List.getLast_cons (List.cons_ne_nil next places)
      rw [hlast]
      refine ⟨?_, ih h.2 hnodup.2 (List.cons_ne_nil next places)⟩
      have hmem : (next :: places).getLast (List.cons_ne_nil next places) ∈ next ::
          places ++ [place] :=
        List.mem_append_left _ (List.getLast_mem _)
      rw [Function.update_of_ne (ne_of_mem_of_not_mem hmem hnodup.1).symm, h.1]
      rfl

/-- The places of the thread link to the target, and the other links are as before. -/
theorem resolve_apply (h : Threaded link (place :: places)) (hnodup : (place :: places).Nodup)
    (hfuel : places.length < fuel) (other : α) :
    resolve target fuel link place other = if other ∈ place :: places then some target
    else link other := by
  induction places generalizing link place fuel with
  | nil =>
    cases fuel with
    | zero => exact absurd hfuel (Nat.not_lt_zero _)
    | succ fuel =>
      rw [resolve, show link place = none from h]
      dsimp only
      by_cases heq : other = place
      · rw [heq, Function.update_self, if_pos List.mem_cons_self]
      · rw [Function.update_of_ne heq, if_neg fun hmem ↦ heq (List.mem_singleton.mp hmem)]
  | cons next places ih =>
    obtain ⟨hlink, hrest⟩ := h
    obtain ⟨hnotMem, hnodup'⟩ := List.nodup_cons.mp hnodup
    cases fuel with
    | zero => exact absurd hfuel (Nat.not_lt_zero _)
    | succ fuel =>
      rw [resolve, hlink]
      dsimp only
      rw [ih ((threaded_update hnotMem _).mpr hrest) hnodup' (Nat.lt_of_succ_lt_succ hfuel)]
      by_cases hmem : other ∈ next :: places
      · rw [if_pos hmem, if_pos (List.mem_cons_of_mem place hmem)]
      · rw [if_neg hmem]
        by_cases heq : other = place
        · rw [heq, Function.update_self, if_pos List.mem_cons_self]
        · rw [Function.update_of_ne heq, if_neg fun hall ↦ (List.mem_cons.mp hall).elim heq hmem]

end Userland.Library
