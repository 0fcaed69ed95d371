import Mathlib.Data.List.Nodup
import Mathlib.Order.Defs.Unbundled

/-!
# Dictionaries

A dictionary is a list of entries with distinct keys, and a lookup finds the one entry of a key
(`lookup_eq_some_iff_mem`). The order of the entries does not matter for lookups (`lookup_perm`).
Setting a key replaces its entry, or adds one at the end (`lookup_set_self`, `set_of_notMem`), and
erasing it removes the entry (`lookup_erase_self`). Both keep the keys distinct. A dictionary of
lists collects the values that are appended to it (`listed_foldl_append`). Entries with lists as
keys are sorted in the order `KeyLE`.
-/

set_option autoImplicit false
set_option relaxedAutoImplicit false

namespace Userland.Library.Dict

variable {κ ν : Type} [BEq κ] [LawfulBEq κ]
variable {entries : List (κ × ν)}

theorem mem_of_lookup {key : κ} {value : ν} (h : entries.lookup key = some value) :
    (key, value) ∈ entries := by
  obtain ⟨before, after, rfl, -⟩ := List.lookup_eq_some_iff.mp h
  exact List.mem_append_right _ List.mem_cons_self

/-- A lookup finds the one entry of a key. -/
theorem lookup_eq_some_iff_mem (h : (entries.map Prod.fst).Nodup) {key : κ}
    {value : ν} : entries.lookup key = some value ↔ (key, value) ∈ entries := by
  refine ⟨mem_of_lookup, fun hmem ↦ ?_⟩
  induction entries with
  | nil => cases hmem
  | cons entry rest ih =>
    rw [List.map_cons, List.nodup_cons] at h
    rw [List.lookup_cons]
    rcases List.mem_cons.mp hmem with rfl | hrest
    · rw [beq_self_eq_true]
    · have hne : key ≠ entry.1 := fun heq ↦ h.1 (heq ▸ List.mem_map_of_mem hrest)
      rw [beq_eq_false_iff_ne.mpr hne]
      exact ih h.2 hrest

/-- What the entry of a key gives. -/
theorem flatMap_ite_of_key {β : Type} [DecidableEq κ]
    (hnodup : (entries.map Prod.fst).Nodup) (key : κ) (g : ν → List β) :
    (entries.flatMap fun entry ↦ if entry.1 = key then g entry.2 else []) =
      ((entries.lookup key).map g).getD [] := by
  induction entries with
  | nil => rfl
  | cons entry rest ih =>
    rw [List.map_cons, List.nodup_cons] at hnodup
    rw [List.flatMap_cons, ih hnodup.2, List.lookup_cons]
    by_cases hkey : entry.1 = key
    · have hnone : rest.lookup key = none := List.lookup_eq_none_iff.mpr fun found hfound ↦
        bne_iff_ne.mpr fun heq ↦ hnodup.1 (hkey ▸ heq ▸ List.mem_map_of_mem hfound)
      rw [hnone, if_pos hkey, ← hkey, beq_self_eq_true]
      exact List.append_nil _
    · rw [if_neg hkey, List.nil_append, beq_eq_false_iff_ne.mpr (Ne.symm hkey)]

/-- The elements of one key among what the entries of a dictionary give. -/
theorem filter_flatMap_of_key {β : Type}
    (key : κ) (hnodup : (entries.map Prod.fst).Nodup) {f : κ × ν → List β} {p : β → Bool}
    (hother : ∀ entry ∈ entries, entry.1 ≠ key → ∀ b ∈ f entry, p b = false) :
    (entries.flatMap f).filter p = ((entries.lookup key).map fun value ↦
      (f (key, value)).filter p).getD [] := by
  induction entries with
  | nil => rfl
  | cons entry rest ih =>
    rw [List.map_cons, List.nodup_cons] at hnodup
    have hrest := ih hnodup.2 fun other hmem ↦ hother other (List.mem_cons_of_mem _ hmem)
    rw [List.flatMap_cons, List.filter_append, hrest, List.lookup_cons]
    by_cases hkey : entry.1 = key
    · have hnone : rest.lookup key = none := List.lookup_eq_none_iff.mpr fun found hfound ↦
        bne_iff_ne.mpr fun heq ↦ hnodup.1 (hkey ▸ heq ▸ List.mem_map_of_mem hfound)
      rw [hnone, ← hkey, beq_self_eq_true]
      exact List.append_nil _
    · have hnil : (f entry).filter p = [] := List.filter_eq_nil_iff.mpr fun b hb ↦ by
        simp [hother entry List.mem_cons_self hkey b hb]
      rw [hnil, List.nil_append, beq_eq_false_iff_ne.mpr (Ne.symm hkey)]

theorem lookup_perm {entries others : List (κ × ν)} (h : (entries.map Prod.fst).Nodup)
    (hperm : entries.Perm others) (key : κ) : entries.lookup key = others.lookup key := by
  ext value
  rw [lookup_eq_some_iff_mem h, lookup_eq_some_iff_mem ((hperm.map Prod.fst).nodup_iff.mp h),
    hperm.mem_iff]

/-! ### Changes -/

/-- The dictionary with a value for a key. -/
def set : List (κ × ν) → κ → ν → List (κ × ν)
  | [], key, value => [(key, value)]
  | entry :: rest, key, value =>
    if entry.1 == key then (key, value) :: rest else entry :: set rest key value

/-- The dictionary without a key. -/
def erase (entries : List (κ × ν)) (key : κ) : List (κ × ν) :=
  entries.filter fun entry ↦ entry.1 != key

theorem lookup_set_self (entries : List (κ × ν)) (key : κ) (value : ν) :
    (set entries key value).lookup key = some value := by
  induction entries with
  | nil => rw [set, List.lookup_cons_self]
  | cons entry rest ih =>
    rw [set]
    split_ifs with hkey
    · rw [List.lookup_cons_self]
    · have hne : key ≠ entry.1 := fun heq ↦ hkey (beq_iff_eq.mpr heq.symm)
      rw [List.lookup_cons, ih, beq_eq_false_iff_ne.mpr hne]

theorem lookup_set_of_ne (entries : List (κ × ν)) {key other : κ} (h : other ≠ key) (value : ν) :
    (set entries key value).lookup other = entries.lookup other := by
  have hother : (other == key) = false := beq_eq_false_iff_ne.mpr h
  induction entries with
  | nil => rw [set, List.lookup_cons, hother]
  | cons entry rest ih =>
    rw [set]
    split_ifs with hkey
    · rw [List.lookup_cons, List.lookup_cons, hother, beq_iff_eq.mp hkey, hother]
    · rw [List.lookup_cons, List.lookup_cons, ih]

theorem mem_keys_set {key other : κ} {value : ν} :
    other ∈ (set entries key value).map Prod.fst ↔ other = key ∨ other ∈ entries.map Prod.fst := by
  induction entries with
  | nil => simp [set]
  | cons entry rest ih =>
    rw [set]
    split_ifs with hkey
    · simp [beq_iff_eq.mp hkey]
    · rw [List.map_cons, List.map_cons, List.mem_cons, List.mem_cons, ih]
      exact or_left_comm

theorem nodup_set (h : (entries.map Prod.fst).Nodup) (key : κ) (value : ν) :
    ((set entries key value).map Prod.fst).Nodup := by
  induction entries with
  | nil => simp [set]
  | cons entry rest ih =>
    rw [List.map_cons, List.nodup_cons] at h
    rw [set]
    split_ifs with hkey
    · rw [List.map_cons, ← beq_iff_eq.mp hkey]
      exact List.nodup_cons.mpr h
    · rw [List.map_cons, List.nodup_cons, mem_keys_set, not_or]
      exact ⟨⟨fun heq ↦ hkey (beq_iff_eq.mpr heq), h.1⟩, ih h.2⟩

/-- Setting a new key adds an entry at the end. -/
theorem set_of_notMem {key : κ} (h : key ∉ entries.map Prod.fst)
    (value : ν) : set entries key value = entries ++ [(key, value)] := by
  induction entries with
  | nil => rfl
  | cons entry rest ih =>
    rw [List.map_cons, List.mem_cons, not_or] at h
    rw [set, if_neg fun hkey ↦ h.1 (beq_iff_eq.mp hkey).symm, ih h.2, List.cons_append]

/-- The dictionary with a value added to the list of a key, as `setdefault(key, []).append(value)`
leaves it. -/
def append (entries : List (κ × List ν)) (key : κ) (value : ν) : List (κ × List ν) :=
  set entries key ((entries.lookup key).getD [] ++ [value])

/-- A value is in the list of a key. -/
def Listed (entries : List (κ × List ν)) (key : κ) (value : ν) : Prop :=
  ∃ values, entries.lookup key = some values ∧ value ∈ values

omit [LawfulBEq κ] in
theorem not_listed_nil (key : κ) (value : ν) : ¬ Listed ([] : List (κ × List ν)) key value := by
  rintro ⟨values, hlookup, -⟩
  cases hlookup

theorem listed_append (entries : List (κ × List ν)) (key other : κ) (value found : ν) :
    Listed (append entries key value) other found ↔
      Listed entries other found ∨ other = key ∧ found = value := by
  unfold Listed append
  by_cases hother : other = key
  · rw [hother, lookup_set_self]
    cases entries.lookup key <;> simp
  · rw [lookup_set_of_ne _ hother]
    simp [hother]

/-- The values listed after a row of additions. -/
theorem listed_foldl_append (additions : List (κ × ν)) (entries : List (κ × List ν)) (key : κ)
    (value : ν) :
    Listed (additions.foldl (fun entries addition ↦ append entries addition.1 addition.2) entries)
      key value ↔ Listed entries key value ∨ (key, value) ∈ additions := by
  induction additions generalizing entries with
  | nil => simp
  | cons addition additions ih =>
    rw [List.foldl_cons, ih, listed_append, List.mem_cons, or_assoc, Prod.ext_iff]

/-- The list of a key after a row of additions. -/
theorem getD_lookup_foldl_append (additions : List (κ × ν))
    (entries : List (κ × List ν)) (key : κ) :
    ((additions.foldl (fun entries addition ↦ append entries addition.1 addition.2) entries).lookup
      key).getD [] =
      (entries.lookup key).getD [] ++ (additions.filter fun addition ↦
        addition.1 == key).map Prod.snd := by
  induction additions generalizing entries with
  | nil => simp
  | cons addition additions ih =>
    rw [List.foldl_cons, ih, append]
    by_cases hkey : key = addition.1
    · simp [hkey, lookup_set_self]
    · rw [lookup_set_of_ne _ hkey, List.filter_cons_of_neg (by simpa using fun h ↦ hkey h.symm)]

theorem nodup_foldl_append (additions : List (κ × ν)) {entries : List (κ × List ν)}
    (h : (entries.map Prod.fst).Nodup) :
    ((additions.foldl (fun entries addition ↦ append entries addition.1 addition.2)
      entries).map Prod.fst).Nodup := by
  induction additions generalizing entries with
  | nil => exact h
  | cons addition additions ih => exact ih (nodup_set h _ _)

/-- The entries of a dictionary, set one after the other, are the dictionary. -/
theorem foldl_set_of_nodup {before : List (κ × ν)} (h : ((before ++ entries).map Prod.fst).Nodup) :
    entries.foldl (fun dict entry ↦ set dict entry.1 entry.2) before = before ++ entries := by
  induction entries generalizing before with
  | nil => exact (List.append_nil before).symm
  | cons entry rest ih =>
    have hnotMem : entry.1 ∉ before.map Prod.fst := by
      rw [List.map_append, List.nodup_append] at h
      intro hmem
      exact h.2.2 _ hmem _ List.mem_cons_self rfl
    rw [List.foldl_cons, set_of_notMem hnotMem, ih (by simpa using h), List.append_assoc,
      List.singleton_append]

/-- A key is found exactly if it is there. -/
theorem lookup_ne_none_iff {key : κ} : entries.lookup key ≠ none ↔ key ∈ entries.map Prod.fst := by
  rw [ne_eq, List.lookup_eq_none_iff, not_forall, List.mem_map]
  refine exists_congr fun entry ↦ ?_
  rw [Classical.not_imp, bne_iff_ne, not_not, eq_comm]

/-! ### Entries that are set one after the other -/

theorem nodup_foldl_set (entries : List (κ × ν)) {before : List (κ × ν)}
    (h : (before.map Prod.fst).Nodup) :
    ((entries.foldl (fun dict entry ↦ set dict entry.1 entry.2) before).map Prod.fst).Nodup := by
  induction entries generalizing before with
  | nil => exact h
  | cons entry rest ih => exact ih (nodup_set h _ _)

theorem mem_keys_foldl_set {entries before : List (κ × ν)} {key : κ} :
    key ∈ (entries.foldl (fun dict entry ↦ set dict entry.1 entry.2) before).map Prod.fst ↔
      key ∈ before.map Prod.fst ∨ key ∈ entries.map Prod.fst := by
  induction entries generalizing before with
  | nil => simp
  | cons entry rest ih =>
    rw [List.foldl_cons, ih, mem_keys_set, List.map_cons, List.mem_cons, ← or_assoc,
      or_comm (a := key = entry.1)]

omit [LawfulBEq κ] in
theorem forall_mem_set {P : κ → ν → Prop} {key : κ} {value : ν}
    (h : ∀ entry ∈ entries, P entry.1 entry.2) (hvalue : P key value) :
    ∀ entry ∈ set entries key value, P entry.1 entry.2 := by
  induction entries with
  | nil => simpa [set] using hvalue
  | cons entry rest ih =>
    rw [List.forall_mem_cons] at h
    rw [set]
    split_ifs
    · exact List.forall_mem_cons.mpr ⟨hvalue, h.2⟩
    · exact List.forall_mem_cons.mpr ⟨h.1, ih h.2⟩

omit [LawfulBEq κ] in
theorem forall_mem_foldl_set {P : κ → ν → Prop} {entries before : List (κ × ν)}
    (hbefore : ∀ entry ∈ before, P entry.1 entry.2)
    (hentries : ∀ entry ∈ entries, P entry.1 entry.2) :
    ∀ entry ∈ entries.foldl (fun dict entry ↦ set dict entry.1 entry.2) before,
    P entry.1 entry.2 := by
  induction entries generalizing before with
  | nil => exact hbefore
  | cons entry rest ih =>
    obtain ⟨hentry, hrest⟩ := List.forall_mem_cons.mp hentries
    exact ih (forall_mem_set hbefore hentry) hrest

omit [LawfulBEq κ] in
theorem length_set_le (entries : List (κ × ν)) (key : κ) (value : ν) :
    (set entries key value).length ≤ entries.length + 1 := by
  induction entries with
  | nil => exact Nat.le_refl 1
  | cons entry rest ih =>
    rw [set]
    split_ifs
    · exact Nat.le_succ _
    · exact Nat.succ_le_succ ih

omit [LawfulBEq κ] in
theorem length_foldl_set_le (entries before : List (κ × ν)) :
    (entries.foldl (fun dict entry ↦ set dict entry.1 entry.2) before).length ≤
      before.length + entries.length := by
  induction entries generalizing before with
  | nil => exact Nat.le_refl _
  | cons entry rest ih =>
    calc _ ≤ (set before entry.1 entry.2).length + rest.length := ih _
      _ ≤ before.length + 1 + rest.length := Nat.add_le_add_right (length_set_le before _ _) _
      _ = before.length + (entry :: rest).length := by rw [List.length_cons]; omega

omit [LawfulBEq κ] in
theorem ne_nil_of_mem_foldl_append (additions : List (κ × ν)) {entries : List (κ × List ν)}
    (h : ∀ entry ∈ entries, entry.2 ≠ []) :
    ∀ entry ∈ additions.foldl (fun entries addition ↦ append entries addition.1 addition.2) entries,
      entry.2 ≠ [] := by
  induction additions generalizing entries with
  | nil => exact h
  | cons addition additions ih =>
    have hset : ∀ entry ∈ append entries addition.1 addition.2, entry.2 ≠ [] :=
      forall_mem_set (P := fun _ values ↦ values ≠ []) h
        (List.append_ne_nil_of_right_ne_nil _ (List.cons_ne_nil addition.2 []))
    exact ih hset

theorem listed_iff {entries : List (κ × List ν)} (h : (entries.map Prod.fst).Nodup) {key : κ}
    {value : ν} :
    Listed entries key value ↔ ∃ values, (key, values) ∈ entries ∧ value ∈ values :=
  exists_congr fun _ ↦ and_congr_left' (lookup_eq_some_iff_mem h)

theorem lookup_erase_self (entries : List (κ × ν)) (key : κ) :
    (erase entries key).lookup key = none := by
  rw [List.lookup_eq_none_iff]
  intro entry hentry
  exact bne_iff_ne.mpr (Ne.symm (bne_iff_ne.mp (List.mem_filter.mp hentry).2))

theorem lookup_erase_of_ne (entries : List (κ × ν)) {key other : κ} (h : other ≠ key) :
    (erase entries key).lookup other = entries.lookup other := by
  induction entries with
  | nil => rfl
  | cons entry rest ih =>
    unfold erase at ih ⊢
    by_cases hkey : entry.1 = key
    · rw [List.filter_cons_of_neg (by simp [hkey]), ih, List.lookup_cons, hkey,
        beq_eq_false_iff_ne.mpr h]
    · rw [List.filter_cons_of_pos (by simpa using hkey), List.lookup_cons, List.lookup_cons, ih]

/-! ### The order of the keys -/

section Order

variable {α β : Type} [LT α]

/-- The order of entries by their keys. -/
def KeyLE (first second : List α × β) : Prop := List.le first.1 second.1

instance [DecidableEq α] [DecidableLT α] : DecidableRel (@KeyLE α β _) :=
  fun first second ↦ inferInstanceAs (Decidable (¬ List.lt second.1 first.1))

variable [LE α] [Std.IsLinearOrder α] [Std.LawfulOrderLT α]

instance : Std.Total (@KeyLE α β _) := ⟨fun first second ↦ List.le_total first.1 second.1⟩

instance : IsTrans _ (@KeyLE α β _) := ⟨fun _ _ _ h h' ↦ List.le_trans h h'⟩

theorem KeyLE.antisymm {first second : List α × β} (h : KeyLE first second)
    (h' : KeyLE second first) : first.1 = second.1 :=
  List.le_antisymm h h'

end Order

end Userland.Library.Dict
