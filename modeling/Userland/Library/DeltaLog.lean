import Mathlib.Data.Finset.Basic

/-!
# A log of additions and removals

A set is recorded as a base that was stored once, and the elements added and removed since
(`Represents`). Recording that an element is added drops it from the removed ones if it is there,
and recording that one is removed drops it from the added ones (`DeltaLog.insert`,
`DeltaLog.erase`).
-/

set_option autoImplicit false
set_option relaxedAutoImplicit false

namespace Userland.Library

/-- The elements added to a base, and the elements removed from it. -/
structure DeltaLog (α : Type) where
  added : Finset α
  removed : Finset α

namespace DeltaLog

variable {α : Type} [DecidableEq α] {base current : Finset α} {log : DeltaLog α} {x : α}

/-- Nothing was added or removed. -/
def empty : DeltaLog α :=
  ⟨∅, ∅⟩

/-- Records that an element is added. -/
def insert (log : DeltaLog α) (x : α) : DeltaLog α :=
  if x ∈ log.removed then { log with removed := log.removed.erase x }
  else { log with added := Insert.insert x log.added }

/-- Records that an element is removed. -/
def erase (log : DeltaLog α) (x : α) : DeltaLog α :=
  if x ∈ log.added then { log with added := log.added.erase x }
  else { log with removed := Insert.insert x log.removed }

/-- The base and the log stand for a set: no element of the base was added, only elements of the
base were removed. -/
structure Represents (base : Finset α) (log : DeltaLog α) (current : Finset α) : Prop where
  added_disjoint : Disjoint log.added base
  removed_subset : log.removed ⊆ base
  current_eq : current = base \ log.removed ∪ log.added

theorem represents_empty (base : Finset α) : Represents base empty base :=
  ⟨Finset.disjoint_empty_left base, Finset.empty_subset base, by simp [empty]⟩

theorem Represents.mem_iff (h : Represents base log current) :
    x ∈ current ↔ x ∈ base ∧ x ∉ log.removed ∨ x ∈ log.added := by
  rw [h.current_eq, Finset.mem_union, Finset.mem_sdiff]

theorem Represents.notMem_added (h : Represents base log current) (hx : x ∉ current) :
    x ∉ log.added :=
  fun hadded ↦ hx (h.mem_iff.mpr (Or.inr hadded))

theorem Represents.notMem_removed (h : Represents base log current) (hx : x ∈ current) :
    x ∉ log.removed := by
  intro hremoved
  rcases h.mem_iff.mp hx with hbase | hadded
  · exact hbase.2 hremoved
  · exact Finset.disjoint_left.mp h.added_disjoint hadded (h.removed_subset hremoved)

theorem Represents.insert (h : Represents base log current) (hx : x ∉ current) :
    Represents base (log.insert x) (Insert.insert x current) := by
  have hout : ∀ y, y ∈ current ↔ y ∈ base ∧ y ∉ log.removed ∨ y ∈ log.added := fun _ ↦ h.mem_iff
  unfold DeltaLog.insert
  split_ifs with hremoved
  · refine ⟨h.added_disjoint, (Finset.erase_subset x _).trans h.removed_subset, ?_⟩
    ext y
    simp only [Finset.mem_insert, Finset.mem_union, Finset.mem_sdiff, Finset.mem_erase, hout]
    have hbase := h.removed_subset hremoved
    by_cases hy : y = x
    · subst hy
      simp [hbase]
    · simp [hy]
  · have hbase : x ∉ base := fun hmem ↦ hx (h.mem_iff.mpr (Or.inl ⟨hmem, hremoved⟩))
    refine ⟨Finset.disjoint_insert_left.mpr ⟨hbase, h.added_disjoint⟩, h.removed_subset, ?_⟩
    ext y
    simp only [Finset.mem_insert, Finset.mem_union, Finset.mem_sdiff, hout]
    exact or_left_comm

theorem Represents.erase (h : Represents base log current) (hx : x ∈ current) :
    Represents base (log.erase x) (current.erase x) := by
  have hout : ∀ y, y ∈ current ↔ y ∈ base ∧ y ∉ log.removed ∨ y ∈ log.added := fun _ ↦ h.mem_iff
  unfold DeltaLog.erase
  split_ifs with hadded
  · have hbase : x ∉ base := Finset.disjoint_left.mp h.added_disjoint hadded
    refine ⟨h.added_disjoint.mono_left (Finset.erase_subset x _), h.removed_subset, ?_⟩
    ext y
    simp only [Finset.mem_erase, Finset.mem_union, Finset.mem_sdiff, hout]
    by_cases hy : y = x
    · subst hy
      simp [hbase]
    · simp [hy]
  · have hbase := (h.mem_iff.mp hx).resolve_right hadded
    refine ⟨h.added_disjoint, Finset.insert_subset hbase.1 h.removed_subset, ?_⟩
    ext y
    simp only [Finset.mem_erase, Finset.mem_union, Finset.mem_sdiff, Finset.mem_insert, hout]
    by_cases hy : y = x
    · subst hy
      simp [hadded]
    · simp [hy]

end DeltaLog

end Userland.Library
