import Mathlib.Data.Finset.Sort
import Mathlib.Data.List.Forall2
import Mathlib.Data.List.Lex
import Userland.Library.Dict

/-!
# Sets of variants

`VariantSets` of `pkg/variant.py`: a dictionary from the names of variants to the values that
something is tagged with, and the combinations of values that other such dictionaries were marked to
satisfy. A combination is stored as the tuple of its values in the order of the names
(`mem_crossProduct`).

Scope. The values of a variant are one or more, as the class promises. `set_sats` holds once
`not_sat_set` is not `None`. A set hands its values out in their order.
-/

set_option autoImplicit false
set_option relaxedAutoImplicit false

namespace Userland.Pkg.Variant

open Library

/-- `VariantSets`. -/
structure VariantSets (Name Value : Type) where
  entries : List (Name × Finset Value)
  nodup : (entries.map Prod.fst).Nodup
  nonempty : ∀ entry ∈ entries, entry.2.Nonempty

variable {Name Value : Type} [LinearOrder Name] [LinearOrder Value]

namespace VariantSets

instance : DecidableEq (VariantSets Name Value) := fun first second ↦
  decidable_of_iff (first.entries = second.entries) (by cases first; cases second; simp)

/-- `self.get(name)`. -/
def get (self : VariantSets Name Value) (name : Name) : Option (Finset Value) :=
  self.entries.lookup name

/-- The values of a variant, of which there are none for another name. -/
def values (self : VariantSets Name Value) (name : Name) : Finset Value :=
  (self.get name).getD ∅

/-- `sorted(self)`. -/
def names (self : VariantSets Name Value) : List Name :=
  (self.entries.map Prod.fst).insertionSort (· ≤ ·)

/-- One turn of the loop of `__variant_cross_product`. -/
def extend (tmp : List (List Value)) (row : Finset Value) : List (List Value) :=
  if tmp = [] then (row.sort (· ≤ ·)).map fun v ↦ [v]
  else (row.sort (· ≤ ·)).flatMap fun v ↦ tmp.map fun exist ↦ exist ++ [v]

/-- `self.__variant_cross_product()`. -/
def crossProduct (self : VariantSets Name Value) : Finset (List Value) :=
  ((self.names.map self.values).foldl extend []).toFinset

/-- `f.setdefault(key, set()).add(var)`. -/
def add (f : VariantSets Name Value) (key : Name) (var : Value) : VariantSets Name Value where
  entries := Dict.set f.entries key (insert var (f.values key))
  nodup := Dict.nodup_set f.nodup key _
  nonempty := by
    intro entry hentry
    have hlookup := (Dict.lookup_eq_some_iff_mem (Dict.nodup_set f.nodup key _)).mpr hentry
    by_cases hkey : entry.1 = key
    · rw [hkey, Dict.lookup_set_self] at hlookup
      rw [← Option.some.inj hlookup]
      exact Finset.insert_nonempty _ _
    · rw [Dict.lookup_set_of_ne _ hkey] at hlookup
      exact f.nonempty entry (Dict.mem_of_lookup hlookup)

def empty : VariantSets Name Value := ⟨[], List.nodup_nil, fun _ h ↦ absurd h List.not_mem_nil⟩

/-- The values in some tuples, each under its name. -/
def project (names : List Name) (tuples : List (List Value)) : VariantSets Name Value :=
  tuples.foldl (fun f tup ↦ (names.zip tup).foldl (fun f entry ↦ f.add entry.1 entry.2) f) empty

/-- `self.mark_as_satisfied(var)`, which changes `not_sat_set`. -/
def markAsSatisfied (self : VariantSets Name Value) (notSatSet : Option (Finset (List Value)))
    (var : VariantSets Name Value) : Option (Finset (List Value)) :=
  some ((notSatSet.getD self.crossProduct) \ var.crossProduct)

/-- `self.is_satisfied()`. -/
def isSatisfied (self : VariantSets Name Value) (notSatSet : Option (Finset (List Value))) : Bool :=
  notSatSet = some ∅ || self.entries.isEmpty

/-- `self.get_unsatisfied()`. -/
def getUnsatisfied (self : VariantSets Name Value) (notSatSet : Option (Finset (List Value))) :
    VariantSets Name Value :=
  project self.names ((notSatSet.getD self.crossProduct).sort (· ≤ ·))

/-- `self.groups()`. -/
def groups (self : VariantSets Name Value) : List (List (Name × Value)) :=
  (self.crossProduct.sort (· ≤ ·)).map fun tup ↦ self.names.zip tup

/-- `self.issubset(var)`. -/
def issubset (self var : VariantSets Name Value) : Bool :=
  self.entries.all fun entry ↦
    match var.get entry.1 with
    | some row => entry.2 ⊆ row
    | none => false

/-- `self.remove_identical(var)`. -/
def removeIdentical (self var : VariantSets Name Value) : VariantSets Name Value where
  entries := self.entries.filter fun entry ↦ var.get entry.1 ≠ some entry.2
  nodup := self.nodup.sublist (List.filter_sublist.map _)
  nonempty entry hentry := self.nonempty entry (List.mem_filter.mp hentry).1

/-! ### The cross product -/

variable {self : VariantSets Name Value} {row : Finset Value} {name : Name}

omit [LinearOrder Value] in
theorem get_eq_some_iff : self.get name = some row ↔ (name, row) ∈ self.entries :=
  Dict.lookup_eq_some_iff_mem self.nodup

omit [LinearOrder Value] in
theorem mem_names : name ∈ self.names ↔ ∃ row, self.get name = some row := by
  rw [names, List.mem_insertionSort, List.mem_map]
  constructor
  · rintro ⟨entry, hentry, rfl⟩
    exact ⟨entry.2, get_eq_some_iff.mpr hentry⟩
  · rintro ⟨row, hrow⟩
    exact ⟨(name, row), get_eq_some_iff.mp hrow, rfl⟩

omit [LinearOrder Value] in
theorem nonempty_values (h : name ∈ self.names) : (self.values name).Nonempty := by
  obtain ⟨row, hrow⟩ := mem_names.mp h
  rw [values, hrow]
  exact self.nonempty _ (get_eq_some_iff.mp hrow)

omit [LinearOrder Value] in
theorem names_eq_nil_iff : self.names = [] ↔ self.entries = [] := by
  rw [names, ← List.length_eq_zero_iff, List.length_insertionSort, List.length_map,
    List.length_eq_zero_iff]

variable {tmp : List (List Value)}

theorem extend_ne_nil (h : row.Nonempty) : extend tmp row ≠ [] := by
  obtain ⟨value, hvalue⟩ := h
  have hsort : value ∈ row.sort (· ≤ ·) := (Finset.mem_sort _).mpr hvalue
  unfold extend
  split_ifs with htmp
  · exact List.ne_nil_of_mem (List.mem_map_of_mem hsort)
  · obtain ⟨exist, hexist⟩ := List.exists_mem_of_ne_nil tmp htmp
    exact List.ne_nil_of_mem (List.mem_flatMap.mpr ⟨value, hsort, List.mem_map_of_mem hexist⟩)

theorem mem_extend (htmp : tmp ≠ []) {tuple : List Value} :
    tuple ∈ extend tmp row ↔ ∃ exist ∈ tmp, ∃ value ∈ row, tuple = exist ++ [value] := by
  rw [extend, if_neg htmp]
  simp only [List.mem_flatMap, Finset.mem_sort, List.mem_map]
  constructor
  · rintro ⟨value, hvalue, exist, hexist, rfl⟩
    exact ⟨exist, hexist, value, hvalue, rfl⟩
  · rintro ⟨exist, hexist, value, hvalue, rfl⟩
    exact ⟨value, hvalue, exist, hexist, rfl⟩

theorem mem_foldl_extend (rows : List (Finset Value)) (htmp : tmp ≠ [])
    (hrows : ∀ row ∈ rows, row.Nonempty) {tuple : List Value} :
    tuple ∈ rows.foldl extend tmp ↔
      ∃ front ∈ tmp, ∃ back, tuple = front ++ back ∧ back.Forall₂ (· ∈ ·) rows := by
  induction rows generalizing tmp with
  | nil => simp
  | cons row rows ih =>
    rw [List.forall_mem_cons] at hrows
    rw [List.foldl_cons, ih (extend_ne_nil hrows.1) hrows.2]
    constructor
    · rintro ⟨front, hfront, back, rfl, hback⟩
      obtain ⟨exist, hexist, value, hvalue, rfl⟩ := (mem_extend htmp).mp hfront
      exact ⟨exist, hexist, value :: back, by simp, List.Forall₂.cons hvalue hback⟩
    · rintro ⟨front, hfront, back, rfl, hback⟩
      cases hback with
      | cons hvalue hback =>
        exact ⟨_, (mem_extend htmp).mpr ⟨front, hfront, _, hvalue, rfl⟩, _, by simp, hback⟩

/-- The tuples of a cross product. Without variants there is none. -/
theorem mem_crossProduct {tuple : List Value} : tuple ∈ self.crossProduct ↔
      self.names ≠ [] ∧ tuple.Forall₂ (fun value name ↦ value ∈ self.values name) self.names := by
  have hrows : ∀ name ∈ self.names, (self.values name).Nonempty := fun _ h ↦ nonempty_values h
  rw [crossProduct, List.mem_toFinset]
  cases hnames : self.names with
  | nil => simp
  | cons name names =>
    rw [hnames, List.forall_mem_cons] at hrows
    rw [and_iff_right (List.cons_ne_nil name names), List.map_cons, List.foldl_cons,
      mem_foldl_extend _ (extend_ne_nil hrows.1) (List.forall_mem_map.mpr hrows.2)]
    simp only [extend, ↓reduceIte, List.mem_map, Finset.mem_sort]
    constructor
    · rintro ⟨front, ⟨value, hvalue, rfl⟩, back, rfl, hback⟩
      rw [List.forall₂_map_right_iff] at hback
      exact List.Forall₂.cons hvalue hback
    · intro h
      cases h with
      | cons hvalue hback =>
        refine ⟨_, ⟨_, hvalue, rfl⟩, _, rfl, ?_⟩
        rwa [List.forall₂_map_right_iff]

/-! ### Intersections -/

/-- `self.intersects(var)`. -/
def intersects (self var : VariantSets Name Value) : Bool :=
  self.entries.all fun entry ↦
    match var.get entry.1 with
    | some row => (entry.2 ∩ row).Nonempty
    | none => false

variable {self var : VariantSets Name Value}

theorem intersects_iff : self.intersects var = true ↔
    ∀ name row, self.get name = some row → (row ∩ var.values name).Nonempty := by
  rw [intersects, List.all_eq_true]
  constructor
  · intro h name row hrow
    have hentry := h (name, row) (get_eq_some_iff.mp hrow)
    dsimp only at hentry
    split at hentry
    · rename_i row' hrow'
      rw [values, hrow']
      exact of_decide_eq_true hentry
    · cases hentry
  · intro h entry hentry
    have hrow := h entry.1 entry.2 (get_eq_some_iff.mpr hentry)
    rw [values] at hrow
    split
    · rename_i row' hrow'
      rw [hrow'] at hrow
      exact decide_eq_true hrow
    · rename_i hnone
      rw [hnone] at hrow
      simp at hrow

/-- `self.intersection(var)`, which would have an empty set if `self.intersects(var)` were false. -/
def intersection (self var : VariantSets Name Value) (h : self.intersects var = true) :
    VariantSets Name Value where
  entries := self.entries.map fun entry ↦ (entry.1, entry.2 ∩ var.values entry.1)
  nodup := by
    rw [List.map_map]
    exact self.nodup
  nonempty := by
    intro entry hentry
    obtain ⟨found, hfound, rfl⟩ := List.mem_map.mp hentry
    exact intersects_iff.mp h found.1 found.2 (get_eq_some_iff.mpr hfound)

theorem get_intersection (h : self.intersects var = true) :
    (self.intersection var h).get name = some row ↔
      ∃ row', self.get name = some row' ∧ row = row' ∩ var.values name := by
  rw [get_eq_some_iff, intersection, List.mem_map]
  constructor
  · rintro ⟨entry, hentry, heq⟩
    obtain ⟨rfl, rfl⟩ := Prod.mk.inj heq
    exact ⟨entry.2, get_eq_some_iff.mpr hentry, rfl⟩
  · rintro ⟨row', hrow', rfl⟩
    exact ⟨(name, row'), get_eq_some_iff.mp hrow', rfl⟩

theorem values_intersection (h : self.intersects var = true) :
    (self.intersection var h).values name = self.values name ∩ var.values name := by
  rw [values, values]
  cases hget : (self.intersection var h).get name with
  | some row =>
    obtain ⟨row', hrow', rfl⟩ := (get_intersection h).mp hget
    rw [hrow']
    rfl
  | none =>
    cases hself : self.get name with
    | none => simp
    | some row' =>
      have hsome := (get_intersection h).mpr ⟨row', hself, rfl⟩
      rw [hget] at hsome
      cases hsome

end VariantSets

end Userland.Pkg.Variant
