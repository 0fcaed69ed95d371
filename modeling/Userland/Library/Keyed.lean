import Mathlib.Data.List.Dedup
import Mathlib.Data.List.Forall2
import Mathlib.Data.List.Induction
import Mathlib.Data.List.Perm.Basic
import Userland.Library.Dict

/-!
# Lists indexed by a key

A dictionary that is filled from a list keeps, for each key, the last element that has it. It has as
many entries as the list has elements exactly if no two elements share a key
(`length_index_eq_iff`), and then it holds all of them (`index_of_nodup`). Of two lists without
shared keys, the second is made up of the partners of the elements of the first, and of the elements
whose keys the first lacks (`perm_partners_append_fresh`).
-/

set_option autoImplicit false
set_option relaxedAutoImplicit false

namespace Userland.Library.Keyed

variable {α κ : Type} [BEq κ] [LawfulBEq κ] (key : α → κ)

/-- The dictionary of the elements of a list by their keys. -/
def index (list : List α) : List (κ × α) :=
  list.foldl (fun entries element ↦ Dict.set entries (key element) element) []

omit [LawfulBEq κ] in
theorem index_append_singleton (list : List α) (element : α) :
    index key (list ++ [element]) = Dict.set (index key list) (key element) element := by
  simp [index]

theorem mem_keys_index {list : List α} {k : κ} :
    k ∈ (index key list).map Prod.fst ↔ k ∈ list.map key := by
  induction list using List.reverseRecOn with
  | nil => exact Iff.rfl
  | append_singleton list element ih =>
    rw [index_append_singleton, Dict.mem_keys_set, ih, List.map_append, List.mem_append,
      List.map_singleton, List.mem_singleton]
    exact or_comm

theorem nodup_index (list : List α) : ((index key list).map Prod.fst).Nodup := by
  induction list using List.reverseRecOn with
  | nil => exact List.nodup_nil
  | append_singleton list element ih =>
    rw [index_append_singleton]
    exact Dict.nodup_set ih _ _

/-- Without shared keys, the dictionary holds the whole list. -/
theorem index_of_nodup {list : List α} (h : (list.map key).Nodup) :
    index key list = list.map fun element ↦ (key element, element) := by
  induction list using List.reverseRecOn with
  | nil => rfl
  | append_singleton list element ih =>
    rw [List.map_append, List.nodup_append] at h
    rw [index_append_singleton, ih h.1, Dict.set_of_notMem, List.map_append, List.map_singleton]
    intro hmem
    rw [List.map_map] at hmem
    exact h.2.2 _ hmem _ (by simp) rfl

/-- The dictionary is as long as the list exactly if no two elements share a key. -/
theorem length_index_eq_iff (list : List α) :
    (index key list).length = list.length ↔ (list.map key).Nodup := by
  constructor
  · intro hlength
    have hsub : (index key list).map Prod.fst ⊆ list.map key :=
      fun k hk ↦ (mem_keys_index key).mp hk
    have hperm := (List.subperm_of_subset (nodup_index key list) hsub).perm_of_length_le
      (Nat.le_of_eq (by rw [List.length_map, List.length_map, hlength]))
    exact hperm.nodup_iff.mp (nodup_index key list)
  · intro hnodup
    rw [index_of_nodup key hnodup, List.length_map]

section Distinct

variable {list : List α} (h : (list.map key).Nodup)

include h in
theorem lookup_index_eq_some_iff {k : κ} {element : α} :
    (index key list).lookup k = some element ↔ element ∈ list ∧ key element = k := by
  rw [Dict.lookup_eq_some_iff_mem (nodup_index key list), index_of_nodup key h, List.mem_map]
  constructor
  · rintro ⟨other, hother, heq⟩
    obtain ⟨rfl, rfl⟩ := Prod.mk.inj heq
    exact ⟨hother, rfl⟩
  · rintro ⟨hmem, rfl⟩
    exact ⟨element, hmem, rfl⟩

end Distinct

/-! ### Two lists -/

/-- Two lists that are drawn from one list are related element by element. -/
theorem forall₂_map_filter_filterMap {β γ : Type} {R : β → γ → Prop} {p : α → Bool} {f : α → β}
    {g : α → Option γ} {list : List α}
    (h : ∀ element ∈ list, (p element = false ∧ g element = none) ∨
      p element = true ∧ ∃ partner, g element = some partner ∧ R (f element) partner) :
    List.Forall₂ R ((list.filter p).map f) (list.filterMap g) := by
  induction list with
  | nil => exact List.Forall₂.nil
  | cons element list ih =>
    rw [List.forall_mem_cons] at h
    rcases h.1 with ⟨hp, hg⟩ | ⟨hp, partner, hg, hR⟩
    · rw [List.filter_cons_of_neg (by rw [hp]; exact Bool.false_ne_true),
        List.filterMap_cons_none hg]
      exact ih h.2
    · rw [List.filter_cons_of_pos hp, List.map_cons, List.filterMap_cons_some hg]
      exact List.Forall₂.cons hR (ih h.2)

theorem sublist_filterMap_of_eq {β : Type} {f : α → β} {g : α → Option β} {list : List α}
    (h : ∀ element ∈ list, ∀ found, g element = some found → found = f element) :
    (list.filterMap g).Sublist (list.map f) := by
  induction list with
  | nil => exact List.Sublist.slnil
  | cons element list ih =>
    rw [List.forall_mem_cons] at h
    cases hg : g element with
    | none =>
      rw [List.filterMap_cons_none hg]
      exact (ih h.2).cons _
    | some found =>
      rw [List.filterMap_cons_some hg, h.1 found hg]
      exact (ih h.2).cons_cons _

section Partners

variable {origin dest : List α}

/-- The elements of the second list that have the keys of the elements of the first. -/
def partners (origin dest : List α) : List α :=
  origin.filterMap fun element ↦ (index key dest).lookup (key element)

/-- The elements of the second list whose keys the first list lacks. -/
def fresh (origin dest : List α) : List α :=
  dest.filter fun element ↦ !(origin.map key).contains (key element)

theorem mem_fresh {element : α} :
    element ∈ fresh key origin dest ↔ element ∈ dest ∧ key element ∉ origin.map key := by
  rw [fresh, List.mem_filter, Bool.not_eq_true', List.contains_eq_mem, decide_eq_false_iff_not]

theorem mem_partners (hdest : (dest.map key).Nodup) {element : α} :
    element ∈ partners key origin dest ↔ element ∈ dest ∧ key element ∈ origin.map key := by
  rw [partners, List.mem_filterMap, List.mem_map]
  constructor
  · rintro ⟨other, hother, hlookup⟩
    obtain ⟨hmem, heq⟩ := (lookup_index_eq_some_iff key hdest).mp hlookup
    exact ⟨hmem, other, hother, heq.symm⟩
  · rintro ⟨hmem, other, hother, heq⟩
    exact ⟨other, hother, (lookup_index_eq_some_iff key hdest).mpr ⟨hmem, heq.symm⟩⟩

theorem nodup_partners (horigin : (origin.map key).Nodup) (hdest : (dest.map key).Nodup) :
    (partners key origin dest).Nodup := by
  refine List.Nodup.of_map key (horigin.sublist ?_)
  rw [partners, List.map_filterMap]
  refine sublist_filterMap_of_eq fun element _ found hfound ↦ ?_
  obtain ⟨partner, hlookup, rfl⟩ := Option.map_eq_some_iff.mp hfound
  exact ((lookup_index_eq_some_iff key hdest).mp hlookup).2

/-- Partners and fresh elements make up the second list.

Assumes: neither list has two elements with one key. -/
theorem perm_partners_append_fresh (horigin : (origin.map key).Nodup)
    (hdest : (dest.map key).Nodup) :
    (partners key origin dest ++ fresh key origin dest).Perm dest := by
  have hnodup := List.Nodup.of_map key hdest
  refine (List.perm_ext_iff_of_nodup ?_ hnodup).mpr fun element ↦ ?_
  · refine List.nodup_append.mpr ⟨nodup_partners key horigin hdest, hnodup.filter _, ?_⟩
    rintro element hpartner other hfresh rfl
    exact ((mem_fresh key).mp hfresh).2 ((mem_partners key hdest).mp hpartner).2
  · rw [List.mem_append, mem_partners key hdest, mem_fresh, ← and_or_left,
      and_iff_left (Classical.em _)]

end Partners

end Userland.Library.Keyed
