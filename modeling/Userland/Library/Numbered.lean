import Mathlib.Data.List.Sort
import Userland.Library.Dict

/-!
# Dictionaries of numbered rows

A dictionary whose values carry a number stands for the list of its entries in the order of the
numbers (`Holds`). Replacing the entry of a key under its number, adding an entry with a larger
number and erasing a key do to that list what they say (`Holds.replace`, `Holds.append`,
`Holds.erase`), and sorting the numbers with anything behind them lists the rows in their order
(`Holds.sort_eq`).
-/

set_option autoImplicit false
set_option relaxedAutoImplicit false

namespace Userland.Library.Numbered

variable {κ ν τ : Type} [BEq κ] [LawfulBEq κ] {number : ν → ℕ}

/-- The rows are the entries of the dictionary in the order of their numbers. -/
structure Holds (number : ν → ℕ) (index rows : List (κ × ν)) : Prop where
  perm : index.Perm rows
  nodup : (rows.map Prod.fst).Nodup
  increasing : rows.Pairwise fun x y ↦ number x.2 < number y.2

/-- The rows with a value for a key. -/
def replaceKey (key : κ) (value : ν) (rows : List (κ × ν)) : List (κ × ν) :=
  rows.map fun row ↦ if row.1 == key then (key, value) else row

variable {index rows : List (κ × ν)} {key : κ} {value : ν}

/-- The dictionary and the rows have the same values. -/
theorem Holds.lookup_eq (h : Holds number index rows) (key : κ) :
    index.lookup key = rows.lookup key :=
  Dict.lookup_perm (((h.perm.map Prod.fst).nodup_iff).mpr h.nodup) h.perm key

theorem Holds.mem_of_lookup (h : Holds number index rows)
    (hlookup : index.lookup key = some value) :
    (key, value) ∈ rows :=
  Dict.mem_of_lookup (h.lookup_eq key ▸ hlookup)

omit [BEq κ] [LawfulBEq κ] in
theorem Holds.append (h : Holds number index rows) (hkey : key ∉ rows.map Prod.fst)
    (hnumber : ∀ row ∈ rows, number row.2 < number value) :
    Holds number (index ++ [(key, value)]) (rows ++ [(key, value)]) := by
  refine ⟨h.perm.append_right _, ?_, ?_⟩
  · rw [List.map_append, List.nodup_append_comm]
    exact List.nodup_cons.mpr ⟨hkey, h.nodup⟩
  · rw [List.pairwise_append]
    refine ⟨h.increasing, List.pairwise_singleton _ _, fun row hrow last hlast ↦ ?_⟩
    rw [List.mem_singleton.mp hlast]
    exact hnumber row hrow

omit [LawfulBEq κ] in
theorem Holds.erase (h : Holds number index rows) (key : κ) :
    Holds number (Dict.erase index key) (Dict.erase rows key) :=
  ⟨h.perm.filter _, h.nodup.sublist (List.filter_sublist.map _),
    h.increasing.sublist List.filter_sublist⟩

theorem notMem_erase (rows : List (κ × ν)) (key : κ) :
    key ∉ (Dict.erase rows key).map Prod.fst := by
  intro hmem
  obtain ⟨row, hrow, rfl⟩ := List.mem_map.mp hmem
  exact bne_iff_ne.mp (List.mem_filter.mp hrow).2 rfl

/-- A key that is erased and set again has its row replaced, up to the order. -/
theorem replaceKey_perm (hnodup : (rows.map Prod.fst).Nodup) (hkey : key ∈ rows.map Prod.fst)
    (value : ν) :
    (Dict.erase rows key ++ [(key, value)]).Perm (replaceKey key value rows) := by
  induction rows with
  | nil => cases hkey
  | cons row rows ih =>
    rw [List.map_cons, List.nodup_cons] at hnodup
    rw [replaceKey, List.map_cons]
    by_cases hrow : row.1 = key
    · have hrest : ∀ other ∈ rows, other.1 ≠ key := fun other hother heq ↦
        hnodup.1 (hrow ▸ heq ▸ List.mem_map_of_mem hother)
      have herase : Dict.erase (row :: rows) key = rows := by
        rw [Dict.erase, List.filter_cons_of_neg (by simp [hrow]), List.filter_eq_self]
        exact fun other hother ↦ bne_iff_ne.mpr (hrest other hother)
      have hmap : rows.map (fun row ↦ if row.1 == key then (key, value) else row) = rows := by
        rw [List.map_congr_left fun other hother ↦ if_neg (by simp [hrest other hother])]
        exact List.map_id rows
      rw [herase, hmap, if_pos (beq_iff_eq.mpr hrow)]
      exact List.perm_append_singleton _ _
    · have herase : Dict.erase (row :: rows) key = row :: Dict.erase rows key :=
        List.filter_cons_of_pos (by simp [hrow])
      rw [herase, if_neg (by simp [hrow]), List.cons_append]
      rw [List.map_cons, List.mem_cons, or_iff_right (Ne.symm hrow)] at hkey
      exact (ih hnodup.2 hkey).cons row

/-- The entry of a key is replaced by one with its number. -/
theorem Holds.replace {old : ν} (h : Holds number index rows)
    (hlookup : index.lookup key = some old) (hnumber : number value = number old) :
    Holds number (Dict.erase index key ++ [(key, value)]) (replaceKey key value rows) := by
  have hmem := h.mem_of_lookup hlookup
  have hkeys : (replaceKey key value rows).map Prod.fst = rows.map Prod.fst := by
    rw [replaceKey, List.map_map]
    refine List.map_congr_left fun row _ ↦ ?_
    by_cases hrow : row.1 = key
    · simp [hrow]
    · simp [hrow]
  have hnumbers : (replaceKey key value rows).map (fun row ↦ number row.2) =
      rows.map fun row ↦ number row.2 := by
    rw [replaceKey, List.map_map]
    refine List.map_congr_left fun row hrow ↦ ?_
    by_cases heq : row.1 = key
    · have hvalue : row.2 = old := by
        have hfound := (Dict.lookup_eq_some_iff_mem h.nodup).mpr (heq ▸ hrow : (key, row.2) ∈ rows)
        exact Option.some.inj (hfound.symm.trans ((h.lookup_eq key).symm.trans hlookup))
      simp [heq, hnumber, hvalue]
    · simp [heq]
  refine ⟨((h.erase key).perm.append_right _).trans
    (replaceKey_perm h.nodup (List.mem_map_of_mem hmem) value), hkeys ▸ h.nodup, ?_⟩
  have hincreasing := h.increasing
  rw [← List.pairwise_map (f := fun row : κ × ν ↦ number row.2)] at hincreasing ⊢
  rw [hnumbers]
  exact hincreasing

omit [BEq κ] [LawfulBEq κ] in
theorem eq_of_increasing {list : List (ℕ × τ)} (h : list.Pairwise fun x y ↦ x.1 < y.1) {x y : ℕ × τ}
    (hx : x ∈ list) (hy : y ∈ list) (heq : x.1 = y.1) : x = y := by
  induction list with
  | nil => cases hx
  | cons first list ih =>
    obtain ⟨hfirst, hrest⟩ := List.pairwise_cons.mp h
    rcases List.mem_cons.mp hx with hx | hx <;> rcases List.mem_cons.mp hy with hy | hy
    · rw [hx, hy]
    · exact absurd heq (hx ▸ Nat.ne_of_lt (hfirst y hy))
    · exact absurd heq.symm (hy ▸ Nat.ne_of_lt (hfirst x hx))
    · exact ih hrest hx hy

omit [BEq κ] [LawfulBEq κ] in
/-- Sorting the entries by number lists the rows, whatever breaks the ties. -/
theorem Holds.sort_eq (h : Holds number index rows) (text : ν → τ) (r : ℕ × τ → ℕ × τ → Prop)
    [DecidableRel r] [Std.Total r] [IsTrans (ℕ × τ) r] (hr : ∀ x y, r x y → x.1 ≤ y.1) :
    (index.map fun entry ↦ (number entry.2, text entry.2)).insertionSort r =
      rows.map fun row ↦ (number row.2, text row.2) := by
  have hrows : (rows.map fun row ↦ (number row.2, text row.2)).Pairwise fun x y ↦ x.1 < y.1 :=
    List.pairwise_map.mpr h.increasing
  have hperm := (List.perm_insertionSort r _).trans
    (h.perm.map fun entry ↦ (number entry.2, text entry.2))
  have hof : ∀ x y : ℕ × τ, x.1 < y.1 → r x y := fun x y hlt ↦
    (Std.Total.total (r := r) x y).resolve_right fun hyx ↦ Nat.not_le.mpr hlt (hr y x hyx)
  have hanti : ∀ x y, x ∈ (index.map fun entry ↦ (number entry.2, text entry.2)).insertionSort r →
      y ∈ rows.map (fun row ↦ (number row.2, text row.2)) → r x y → r y x → x = y :=
    fun x y hx hy hxy hyx ↦
      eq_of_increasing hrows (hperm.mem_iff.mp hx) hy (Nat.le_antisymm (hr x y hxy) (hr y x hyx))
  exact hperm.eq_of_pairwise hanti (List.pairwise_insertionSort r _) (hrows.imp fun {x y} ↦ hof x y)

end Userland.Library.Numbered
