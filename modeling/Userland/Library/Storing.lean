import Mathlib.Data.List.Basic

/-!
# Storing in blocks of memory

A block of memory has a fixed length, and values can be stored in it only up to its end (`store`).
What is stored stands behind what was there before (`take_store`), and the block keeps its length
(`length_store`).
-/

set_option autoImplicit false
set_option relaxedAutoImplicit false

namespace Userland.Library

variable {α : Type*}

/-- Some values in the place of others from an offset on, or none if the block ends before. -/
def store (block : List α) (offset : ℕ) (values : List α) : Option (List α) :=
  if offset + values.length ≤ block.length then
    some (block.take offset ++ (values ++ block.drop (offset + values.length)))
  else none

variable {block after : List α} {offset : ℕ} {values : List α}

theorem store_ne_none_iff : store block offset values ≠ none ↔
    offset + values.length ≤ block.length := by
  unfold store
  split_ifs with h <;> simp [h]

theorem store_of_le (h : offset + values.length ≤ block.length) :
    ∃ after, store block offset values = some after :=
  Option.ne_none_iff_exists'.mp (store_ne_none_iff.mpr h)

theorem le_of_store (h : store block offset values = some after) :
    offset + values.length ≤ block.length :=
  store_ne_none_iff.mp (h ▸ Option.some_ne_none after)

theorem eq_of_store (h : store block offset values = some after) :
    after = block.take offset ++ (values ++ block.drop (offset + values.length)) := by
  have hle := le_of_store h
  rw [store, if_pos hle, Option.some.injEq] at h
  exact h.symm

theorem length_store (h : store block offset values = some after) :
    after.length = block.length := by
  have hle := le_of_store h
  rw [eq_of_store h, List.length_append, List.length_append, List.length_take, List.length_drop]
  omega

/-- Up to their end, the values stand behind what was there before. -/
theorem take_store (h : store block offset values = some after) :
    after.take (offset + values.length) = block.take offset ++ values := by
  have hle := le_of_store h
  have hlength : (block.take offset ++ values).length = offset + values.length := by
    rw [List.length_append, List.length_take]
    omega
  rw [eq_of_store h, ← List.append_assoc, ← hlength, List.take_left]

end Userland.Library
