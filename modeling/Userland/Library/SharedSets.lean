import Mathlib.Data.Finset.Lattice.Basic
import Mathlib.Data.Set.Basic
import Userland.Library.Dict

/-!
# Sets behind references

Dictionaries whose values are references to sets that change in place. Merging one dictionary into
another adds the values of the sets of common names to the sets of the other (`mem_of_merge_flow`),
and stores the references of the names that it lacks (`lookup_merge`). Whoever else holds a
reference to a set sees its new values. No more values arrive than the sets of common names bring
along: a bound that these flows respect stays a bound (`merge_le`).
-/

set_option autoImplicit false
set_option relaxedAutoImplicit false

namespace Userland.Library.SharedSets

variable {ρ ν κ : Type} [DecidableEq κ]

/-- The sets behind the references. -/
abbrev Heap (ρ ν : Type) := ρ → Finset ν

/-- A dictionary of references. -/
structure RefDict (κ ρ : Type) where
  entries : List (κ × ρ)
  nodup : (entries.map Prod.fst).Nodup

namespace RefDict

def empty : RefDict κ ρ := ⟨[], List.nodup_nil⟩

def lookup (dict : RefDict κ ρ) (name : κ) : Option ρ := dict.entries.lookup name

def set (dict : RefDict κ ρ) (name : κ) (reference : ρ) : RefDict κ ρ where
  entries := Dict.set dict.entries name reference
  nodup := Dict.nodup_set dict.nodup name reference

theorem lookup_eq_some_iff {dict : RefDict κ ρ} {name : κ} {reference : ρ} :
    dict.lookup name = some reference ↔ (name, reference) ∈ dict.entries :=
  Dict.lookup_eq_some_iff_mem dict.nodup

theorem lookup_set (dict : RefDict κ ρ) (name other : κ) (reference : ρ) :
    (dict.set name reference).lookup other = if other = name then some reference
    else dict.lookup other := by
  split_ifs with h
  · rw [h]
    exact Dict.lookup_set_self _ _ _
  · exact Dict.lookup_set_of_ne _ h _

end RefDict

variable [DecidableEq ρ] [DecidableEq ν]

/-- A dictionary with the references of another for the names that it lacks. -/
def mergeUnknown (self var : RefDict κ ρ) : RefDict κ ρ :=
  var.entries.foldl (fun self entry ↦
    match self.lookup entry.1 with
    | some _ => self
    | none => self.set entry.1 entry.2) self

/-- The set behind the first reference takes up the values of the set behind the second. -/
def absorb (heap : Heap ρ ν) (target source : ρ) : Heap ρ ν :=
  fun reference ↦ if reference = target then heap reference ∪ heap source else heap reference

/-- One name of a merge. -/
def mergeEntry (state : Heap ρ ν × RefDict κ ρ) (entry : κ × ρ) : Heap ρ ν × RefDict κ ρ :=
  match state.2.lookup entry.1 with
  | some target => (absorb state.1 target entry.2, state.2)
  | none => (state.1, state.2.set entry.1 entry.2)

/-- One dictionary is merged into another. -/
def merge (heap : Heap ρ ν) (self var : RefDict κ ρ) : Heap ρ ν × RefDict κ ρ :=
  var.entries.foldl mergeEntry (heap, self)

theorem subset_absorb (heap : Heap ρ ν) (target source reference : ρ) :
    heap reference ⊆ absorb heap target source reference := by
  unfold absorb
  split_ifs
  · exact Finset.subset_union_left
  · exact Finset.Subset.refl _

theorem mergeEntry_of_some {state : Heap ρ ν × RefDict κ ρ} {entry : κ × ρ} {target : ρ}
    (h : state.2.lookup entry.1 = some target) :
    mergeEntry state entry = (absorb state.1 target entry.2, state.2) := by
  rw [mergeEntry, h]

theorem lookup_mergeEntry (state : Heap ρ ν × RefDict κ ρ) (entry : κ × ρ) (name : κ) :
    (mergeEntry state entry).2.lookup name =
      (state.2.lookup name).or (if name = entry.1 then some entry.2 else none) := by
  unfold mergeEntry
  split
  · rename_i target htarget
    split_ifs with hname
    · rw [hname, htarget]
      rfl
    · exact (Option.or_none).symm
  · rename_i hnone
    rw [RefDict.lookup_set]
    split_ifs with hname
    · rw [hname, hnone]
      rfl
    · exact (Option.or_none).symm

theorem subset_mergeEntry (state : Heap ρ ν × RefDict κ ρ) (entry : κ × ρ) (reference : ρ) :
    state.1 reference ⊆ (mergeEntry state entry).1 reference := by
  unfold mergeEntry
  split
  · exact subset_absorb _ _ _ _
  · exact Finset.Subset.refl _

/-! ### The merge of a whole dictionary -/

theorem lookup_foldl_mergeEntry (entries : List (κ × ρ)) (state : Heap ρ ν × RefDict κ ρ)
    (name : κ) :
    (entries.foldl mergeEntry state).2.lookup name =
    (state.2.lookup name).or (entries.lookup name) := by
  induction entries generalizing state with
  | nil => exact (Option.or_none).symm
  | cons entry entries ih =>
    rw [List.foldl_cons, ih, lookup_mergeEntry, Option.or_assoc, List.lookup_cons]
    by_cases hname : name = entry.1
    · rw [if_pos hname, hname, beq_self_eq_true]
      rfl
    · rw [if_neg hname, beq_eq_false_iff_ne.mpr hname]
      rfl

/-- A merged dictionary has its own references first. -/
theorem lookup_merge (heap : Heap ρ ν) (self var : RefDict κ ρ) (name : κ) :
    (merge heap self var).2.lookup name = (self.lookup name).or (var.lookup name) :=
  lookup_foldl_mergeEntry _ _ _

theorem subset_foldl_mergeEntry (entries : List (κ × ρ)) (state : Heap ρ ν × RefDict κ ρ)
    (reference : ρ) : state.1 reference ⊆ (entries.foldl mergeEntry state).1 reference := by
  induction entries generalizing state with
  | nil => exact Finset.Subset.refl _
  | cons entry entries ih => exact (subset_mergeEntry state entry reference).trans (ih _)

theorem subset_merge (heap : Heap ρ ν) (self var : RefDict κ ρ) (reference : ρ) :
    heap reference ⊆ (merge heap self var).1 reference :=
  subset_foldl_mergeEntry var.entries (heap, self) reference

/-- The values behind a common name arrive. -/
theorem mem_of_merge_flow {heap : Heap ρ ν} {self var : RefDict κ ρ} {name : κ} {target source : ρ}
    (hself : self.lookup name = some target) (hvar : var.lookup name = some source) :
    heap source ⊆ (merge heap self var).1 target := by
  obtain ⟨front, rest, hsplit⟩ := List.append_of_mem (RefDict.lookup_eq_some_iff.mp hvar)
  have hlookup : (front.foldl mergeEntry (heap, self)).2.lookup name = some target := by
    rw [lookup_foldl_mergeEntry, hself]
    rfl
  have hstep : (front.foldl mergeEntry (heap, self)).1 source ⊆
      (mergeEntry (front.foldl mergeEntry (heap, self)) (name, source)).1 target := by
    rw [mergeEntry_of_some hlookup]
    dsimp only
    rw [absorb, if_pos rfl]
    exact Finset.subset_union_right
  rw [merge, hsplit, List.foldl_append, List.foldl_cons]
  exact ((subset_foldl_mergeEntry front (heap, self) source).trans hstep).trans
    (subset_foldl_mergeEntry rest _ target)

/-- A bound of the sets that the values behind common names respect stays a bound. -/
theorem merge_le {heap : Heap ρ ν} {self var : RefDict κ ρ} {bound : ρ → Set ν}
    (hheap : ∀ reference, ↑(heap reference) ⊆ bound reference)
    (hflow : ∀ name target source, self.lookup name = some target → var.lookup name = some source →
      bound source ⊆ bound target) (reference : ρ) :
    ↑((merge heap self var).1 reference) ⊆ bound reference := by
  have hentries : ∀ (entries : List (κ × ρ)) (state : Heap ρ ν × RefDict κ ρ),
      (∀ entry ∈ entries, var.lookup entry.1 = some entry.2) →
      (∀ reference, ↑(state.1 reference) ⊆ bound reference) →
      (∀ name target, state.2.lookup name = some target → self.lookup name = some target ∨
        var.lookup name = some target) →
      ↑((entries.foldl mergeEntry state).1 reference) ⊆ bound reference := by
    intro entries
    induction entries with
    | nil => exact fun state _ hbound _ ↦ hbound reference
    | cons entry entries ih =>
      intro state hvar hbound hself
      rw [List.forall_mem_cons] at hvar
      refine ih _ hvar.2 ?_ ?_
      · intro other
        unfold mergeEntry
        split
        · rename_i target htarget
          have hle : bound entry.2 ⊆ bound target := by
            rcases hself _ _ htarget with h | h
            · exact hflow _ _ _ h hvar.1
            · rw [hvar.1] at h
              rw [Option.some.inj h]
          dsimp only [absorb]
          split_ifs with hother
          · rw [Finset.coe_union, Set.union_subset_iff, hother]
            exact ⟨hbound target, (hbound entry.2).trans hle⟩
          · exact hbound other
        · exact hbound other
      · intro name target hlookup
        rw [lookup_mergeEntry] at hlookup
        rcases Option.or_eq_some_iff.mp hlookup with h | ⟨-, h⟩
        · exact hself name target h
        · split_ifs at h with hname
          rw [hname, hvar.1]
          exact Or.inr h
  exact hentries var.entries (heap, self) (fun entry hentry ↦
    RefDict.lookup_eq_some_iff.mpr hentry) hheap
    fun name target h ↦ Or.inl h

omit [DecidableEq ρ] in
theorem lookup_mergeUnknown (self var : RefDict κ ρ) (name : κ) :
    (mergeUnknown self var).lookup name = (self.lookup name).or (var.lookup name) := by
  have hentries : ∀ (entries : List (κ × ρ)) (self : RefDict κ ρ),
      (entries.foldl (fun self entry ↦
        match self.lookup entry.1 with
        | some _ => self
        | none => self.set entry.1 entry.2) self).lookup name =
        (self.lookup name).or (entries.lookup name) := by
    intro entries
    induction entries with
    | nil => exact fun self ↦ Option.or_none.symm
    | cons entry entries ih =>
      intro self
      rw [List.foldl_cons, ih, List.lookup_cons]
      cases hself : self.lookup entry.1 with
      | some reference =>
        by_cases hname : name = entry.1
        · rw [hname, hself]
          rfl
        · rw [beq_eq_false_iff_ne.mpr hname]
      | none =>
        dsimp only
        rw [RefDict.lookup_set]
        by_cases hname : name = entry.1
        · rw [if_pos hname, hname, hself, beq_self_eq_true]
          rfl
        · rw [if_neg hname, beq_eq_false_iff_ne.mpr hname]
  exact hentries var.entries self

end Userland.Library.SharedSets
