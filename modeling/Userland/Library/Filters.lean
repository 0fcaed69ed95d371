import Mathlib.Data.List.Nodup
import Mathlib.Data.List.Perm.Basic

/-!
# Filters as multisets

Two filters of one list keep the same elements, each as often, exactly if the tests agree on the
list (`perm_filter_iff`). The filters of a list by tests of which no two accept the same element
together are a filter by any of the tests (`flatMap_filter_perm`).
-/

set_option autoImplicit false
set_option relaxedAutoImplicit false

namespace Userland.Library.Filters

variable {α ι : Type}

theorem perm_filter_iff {l : List α} {p q : α → Bool} :
    (l.filter p).Perm (l.filter q) ↔ ∀ a ∈ l, p a = q a := by
  refine ⟨fun h a ha ↦ ?_, fun h ↦ List.filter_congr h ▸ List.Perm.refl _⟩
  have hiff := h.mem_iff (a := a)
  rw [List.mem_filter, List.mem_filter, and_iff_right ha, and_iff_right ha] at hiff
  exact Bool.eq_iff_iff.mpr hiff

theorem filter_append_perm {l : List α} {p q : α → Bool}
    (h : ∀ a ∈ l, p a = true → q a = false) :
    (l.filter p ++ l.filter q).Perm (l.filter fun a ↦ p a || q a) := by
  induction l with
  | nil => exact List.Perm.refl _
  | cons a l ih =>
    have hrest := ih fun b hb ↦ h b (List.mem_cons_of_mem a hb)
    have hhead := h a List.mem_cons_self
    rw [List.filter_cons, List.filter_cons, List.filter_cons]
    cases hp : p a with
    | true =>
      rw [hhead hp]
      exact hrest.cons a
    | false =>
      cases hq : q a with
      | true => exact List.perm_middle.trans (hrest.cons a)
      | false => exact hrest

theorem flatMap_filter_perm {l : List α} {test : ι → α → Bool} {indices : List ι}
    (hnodup : indices.Nodup)
    (h : ∀ a ∈ l, ∀ i j, test i a = true → test j a = true → i = j) :
    (indices.flatMap fun i ↦ l.filter (test i)).Perm
      (l.filter fun a ↦ indices.any fun i ↦ test i a) := by
  induction indices with
  | nil => simp
  | cons i indices ih =>
    rw [List.nodup_cons] at hnodup
    rw [List.flatMap_cons]
    refine ((ih hnodup.2).append_left _).trans ?_
    refine (filter_append_perm fun a ha hi ↦ ?_).trans (List.Perm.of_eq ?_)
    · rw [List.any_eq_false]
      exact fun j hj hja ↦ hnodup.1 (h a ha i j hi hja ▸ hj)
    · exact List.filter_congr fun a _ ↦ by rw [List.any_cons]

end Userland.Library.Filters
