import Mathlib.Data.Char
import Userland.Pkg.Variant.VariantSets

/-!
# Which combinations are satisfied

`mark_as_satisfied` compares the combinations of two `VariantSets` as tuples, each in the order of
its own names, and `get_unsatisfied` keeps the values of the combinations that are left, but not the
combinations. So the reports are exact if and only if the sets with other variants are read by
position as they are by name, up to what the others satisfy (`ReadByName`), and the combinations
that are left form a product (`Rectangular`): `reports_exact_iff`.
-/

set_option autoImplicit false
set_option relaxedAutoImplicit false

namespace Userland.Pkg.Variant

open Library

variable {Name Value : Type} [LinearOrder Name] [LinearOrder Value]

namespace VariantSets

/-! ### What the reports should say -/

/-- A value for each variant, in the order of the names. -/
def Combination (self : VariantSets Name Value) (c : List (Name × Value)) : Prop :=
  c.map Prod.fst = self.names ∧ ∀ entry ∈ c, entry.2 ∈ self.values entry.1

/-- A combination agrees with some sets on each variant that they constrain. -/
def Admits (var : VariantSets Name Value) (c : List (Name × Value)) : Prop :=
  ∀ entry ∈ c, ∀ row, var.get entry.1 = some row → entry.2 ∈ row

/-- `not_sat_set` after a row of calls of `mark_as_satisfied`. -/
def markAll (self : VariantSets Name Value) (vars : List (VariantSets Name Value)) :
    Option (Finset (List Value)) :=
  vars.foldl self.markAsSatisfied none

/-- A combination counts as satisfied once it is not in `not_sat_set`. -/
def Reported (notSatSet : Option (Finset (List Value))) (c : List (Name × Value)) : Prop :=
  ∃ tuples, notSatSet = some tuples ∧ c.map Prod.snd ∉ tuples

/-- The reports after a row of calls of `mark_as_satisfied` are right. -/
structure Exact (v : VariantSets Name Value) (vars : List (VariantSets Name Value)) : Prop where
  reported : ∀ c, v.Combination c → (Reported (v.markAll vars) c ↔ ∃ var ∈ vars, var.Admits c)
  isSatisfied : v.isSatisfied (v.markAll vars) = true ↔
    ∀ c, v.Combination c → ∃ var ∈ vars, var.Admits c
  groups : ∀ c, c ∈ (v.getUnsatisfied (v.markAll vars)).groups ↔
    v.Combination c ∧ ∀ var ∈ vars, ¬ var.Admits c
  nodup : (v.getUnsatisfied (v.markAll vars)).groups.Nodup

/-! ### When they do -/

/-- The values of a combination are, one by one, values of the variants of some sets in the order of
their own names. -/
def AdmitsByPosition (var : VariantSets Name Value) (c : List (Name × Value)) : Prop :=
  var.names ≠ [] ∧ c.Forall₂ (fun entry name ↦ entry.2 ∈ var.values name) var.names

/-- A combination that no sets with the same variants admit is admitted by sets with other variants
exactly if such sets admit it by position. -/
def ReadByName (self : VariantSets Name Value) (vars : List (VariantSets Name Value)) : Prop :=
  ∀ c, self.Combination c → (∀ var ∈ vars, var.names = self.names → ¬ var.Admits c) →
    ((∃ var ∈ vars, var.names ≠ self.names ∧ var.AdmitsByPosition c) ↔
      ∃ var ∈ vars, var.names ≠ self.names ∧ var.Admits c)

/-- A combination whose values all occur in combinations that no sets admit is not admitted either.
-/
def Rectangular (self : VariantSets Name Value) (vars : List (VariantSets Name Value)) : Prop :=
  ∀ c, self.Combination c →
    (∀ entry ∈ c, ∃ other, self.Combination other ∧ (∀ var ∈ vars, ¬ var.Admits other) ∧
      entry ∈ other) → ∀ var ∈ vars, ¬ var.Admits c

/-! ### Combinations and tuples -/

variable {self var : VariantSets Name Value} {vars : List (VariantSets Name Value)}
  {c : List (Name × Value)}

omit [LinearOrder Value] in
theorem combination_iff : self.Combination c ↔ c.map Prod.fst = self.names ∧
    (c.map Prod.snd).Forall₂ (fun value name ↦ value ∈ self.values name) self.names := by
  unfold Combination
  refine and_congr_right fun hnames ↦ ?_
  rw [← hnames, List.forall₂_map_left_iff, List.forall₂_map_right_iff, List.forall₂_same]

omit [LinearOrder Value] in
theorem Combination.eq_zip (h : self.Combination c) : c = self.names.zip (c.map Prod.snd) := by
  rw [← h.1, List.zip_map']
  exact (List.map_id c).symm

omit [LinearOrder Value] in
theorem combination_zip {tuple : List Value}
    (h : tuple.Forall₂ (fun value name ↦ value ∈ self.values name) self.names) :
    self.Combination (self.names.zip tuple) ∧ (self.names.zip tuple).map Prod.snd = tuple := by
  have hlength := h.length_eq
  have hsnd : (self.names.zip tuple).map Prod.snd = tuple := List.map_snd_zip hlength.le
  refine ⟨combination_iff.mpr ⟨List.map_fst_zip hlength.ge, ?_⟩, hsnd⟩
  rwa [hsnd]

theorem Combination.mem_crossProduct_iff (h : self.Combination c) :
    c.map Prod.snd ∈ self.crossProduct ↔ self.names ≠ [] := by
  rw [mem_crossProduct]
  exact and_iff_left (combination_iff.mp h).2

theorem mem_crossProduct_iff_admitsByPosition :
    c.map Prod.snd ∈ var.crossProduct ↔ var.AdmitsByPosition c := by
  rw [mem_crossProduct, AdmitsByPosition, List.forall₂_map_left_iff]

omit [LinearOrder Value] in
/-- Sets with the same variants are read by name. -/
theorem Combination.admitsByPosition_iff (h : self.Combination c) (hnames : var.names = self.names)
    (hne : self.names ≠ []) : var.AdmitsByPosition c ↔ var.Admits c := by
  unfold AdmitsByPosition Admits
  rw [hnames, and_iff_right hne, ← h.1, List.forall₂_map_right_iff, List.forall₂_same]
  refine forall₂_congr fun entry hentry ↦ ?_
  have hmem : entry.1 ∈ var.names := by
    rw [hnames, ← h.1]
    exact List.mem_map_of_mem hentry
  obtain ⟨row, hrow⟩ := mem_names.mp hmem
  rw [values, hrow]
  exact ⟨fun hvalue other hother ↦ Option.some.inj hother ▸ hvalue, fun hall ↦ hall row rfl⟩

/-! ### What is left after the calls -/

theorem mem_markAll {tuple : List Value} (notSatSet : Option (Finset (List Value))) :
    tuple ∈ (vars.foldl self.markAsSatisfied notSatSet).getD self.crossProduct ↔
      tuple ∈ notSatSet.getD self.crossProduct ∧ ∀ var ∈ vars, tuple ∉ var.crossProduct := by
  induction vars generalizing notSatSet with
  | nil => simp
  | cons var vars ih =>
    rw [List.foldl_cons, ih, markAsSatisfied, Option.getD_some, Finset.mem_sdiff,
      List.forall_mem_cons, and_assoc]

theorem markAll_eq_some (h : vars ≠ []) :
    self.markAll vars = some ((self.markAll vars).getD self.crossProduct) := by
  obtain ⟨front, last, rfl⟩ := (List.eq_nil_or_concat vars).resolve_left h
  rw [markAll, List.concat_eq_append, List.foldl_append]
  rfl

/-- The tuples that are left. -/
def left (self : VariantSets Name Value) (vars : List (VariantSets Name Value)) :
    Finset (List Value) :=
  (self.markAll vars).getD self.crossProduct

theorem Combination.mem_left_iff (h : self.Combination c) :
    c.map Prod.snd ∈ self.left vars ↔ self.names ≠ [] ∧ ∀ var ∈ vars, ¬ var.AdmitsByPosition c := by
  rw [left, markAll, mem_markAll, Option.getD_none, h.mem_crossProduct_iff]
  simp only [mem_crossProduct_iff_admitsByPosition]

/-! ### The combinations that are left -/

theorem mem_groups : c ∈ self.groups ↔ self.names ≠ [] ∧ self.Combination c := by
  rw [groups, List.mem_map]
  constructor
  · rintro ⟨tuple, htuple, rfl⟩
    obtain ⟨hne, hvalues⟩ := mem_crossProduct.mp ((Finset.mem_sort _).mp htuple)
    exact ⟨hne, (combination_zip hvalues).1⟩
  · rintro ⟨hne, h⟩
    exact ⟨c.map Prod.snd, (Finset.mem_sort _).mpr (h.mem_crossProduct_iff.mpr hne), h.eq_zip.symm⟩

theorem nodup_groups : self.groups.Nodup := by
  refine List.Nodup.map_on ?_ (Finset.sort_nodup _ _)
  intro first hfirst second hsecond heq
  obtain ⟨-, hvalues⟩ := mem_crossProduct.mp ((Finset.mem_sort _).mp hfirst)
  obtain ⟨-, hvalues'⟩ := mem_crossProduct.mp ((Finset.mem_sort _).mp hsecond)
  rw [← (combination_zip hvalues).2, heq, (combination_zip hvalues').2]

theorem mem_values_add {f : VariantSets Name Value} {key name : Name} {added value : Value} :
    value ∈ (f.add key added).values name ↔ value ∈ f.values name ∨
    (name, value) = (key, added) := by
  unfold values get add
  by_cases hname : name = key
  · rw [hname, Dict.lookup_set_self, Option.getD_some, Finset.mem_insert, Prod.mk.injEq, or_comm,
      and_iff_right rfl]
    rfl
  · rw [Dict.lookup_set_of_ne _ hname, Prod.mk.injEq, or_iff_left fun h ↦ hname h.1]

/-- The values that a projection has under a name. -/
theorem mem_values_project {names : List Name} {tuples : List (List Value)} {name : Name}
    {value : Value} :
    value ∈ (project names tuples).values name ↔
    ∃ tuple ∈ tuples, (name, value) ∈ names.zip tuple := by
  have hadd : ∀ (entries : List (Name × Value)) (f : VariantSets Name Value),
      value ∈ (entries.foldl (fun f entry ↦ f.add entry.1 entry.2) f).values name ↔
        value ∈ f.values name ∨ (name, value) ∈ entries := by
    intro entries
    induction entries with
    | nil => simp
    | cons entry entries ih =>
      intro f
      rw [List.foldl_cons, ih, mem_values_add, List.mem_cons, or_assoc]
  have hproject : ∀ (f : VariantSets Name Value), value ∈ (tuples.foldl (fun f tuple ↦
      (names.zip tuple).foldl (fun f entry ↦ f.add entry.1 entry.2) f) f).values name ↔
        value ∈ f.values name ∨ ∃ tuple ∈ tuples, (name, value) ∈ names.zip tuple := by
    induction tuples with
    | nil => simp
    | cons tuple tuples ih =>
      intro f
      rw [List.foldl_cons, ih, hadd, List.exists_mem_cons_iff, or_assoc]
  rw [project, hproject, or_iff_right]
  exact Finset.notMem_empty value

omit [LinearOrder Value] in
theorem mem_names_iff_exists_mem {name : Name} :
    name ∈ self.names ↔ ∃ value, value ∈ self.values name := by
  constructor
  · exact nonempty_values
  · rintro ⟨value, hvalue⟩
    unfold values at hvalue
    cases hget : self.get name with
    | none =>
      rw [hget] at hvalue
      exact absurd hvalue (Finset.notMem_empty value)
    | some row => exact mem_names.mpr ⟨row, hget⟩

omit [LinearOrder Value] in
theorem nodup_names : self.names.Nodup :=
  ((List.perm_insertionSort _ _).nodup_iff).mpr self.nodup

/-- A projection of whole tuples has the names that it was given. -/
theorem names_project {tuples : List (List Value)} (htuples : tuples ≠ [])
    (hlength : ∀ tuple ∈ tuples, tuple.length = self.names.length) :
    (project self.names tuples).names = self.names := by
  refine List.Perm.eq_of_sortedLE (List.sortedLE_insertionSort) (List.sortedLE_insertionSort) ?_
  refine (List.perm_ext_iff_of_nodup nodup_names nodup_names).mpr fun name ↦ ?_
  rw [mem_names_iff_exists_mem]
  simp only [mem_values_project]
  constructor
  · rintro ⟨value, tuple, -, hmem⟩
    exact (List.of_mem_zip hmem).1
  · intro hname
    obtain ⟨tuple, htuple⟩ := List.exists_mem_of_ne_nil tuples htuples
    have hfst : (self.names.zip tuple).map Prod.fst = self.names :=
      List.map_fst_zip (hlength tuple htuple).ge
    rw [← hfst] at hname
    obtain ⟨entry, hentry, rfl⟩ := List.mem_map.mp hname
    exact ⟨entry.2, tuple, htuple, hentry⟩

/-- The groups that are reported as not satisfied: each value occurs in a combination that is left.
-/
theorem mem_groups_getUnsatisfied :
    c ∈ (self.getUnsatisfied (self.markAll vars)).groups ↔ self.names ≠ [] ∧ self.Combination c ∧
      ∀ entry ∈ c, ∃ other, self.Combination other ∧ (∀ var ∈ vars, ¬ var.AdmitsByPosition other) ∧
        entry ∈ other := by
  have hleft : ∀ tuple ∈ (self.left vars).sort (· ≤ ·),
      tuple.Forall₂ (fun value name ↦ value ∈ self.values name) self.names := by
    intro tuple htuple
    have hmem := (mem_markAll none).mp ((Finset.mem_sort _).mp htuple)
    exact (mem_crossProduct.mp hmem.1).2
  have hvalue : ∀ entry : Name × Value,
      entry.2 ∈ (self.getUnsatisfied (self.markAll vars)).values entry.1 ↔ self.names ≠ [] ∧
        ∃ other, self.Combination other ∧ (∀ var ∈ vars, ¬ var.AdmitsByPosition other) ∧
          entry ∈ other := by
    intro entry
    rw [getUnsatisfied, mem_values_project]
    constructor
    · rintro ⟨tuple, htuple, hmem⟩
      obtain ⟨hother, hsnd⟩ := combination_zip (hleft tuple htuple)
      have hmem' := (Finset.mem_sort _).mp htuple
      rw [← hsnd] at hmem'
      obtain ⟨hne, hnone⟩ := hother.mem_left_iff.mp hmem'
      exact ⟨hne, _, hother, hnone, hmem⟩
    · rintro ⟨hne, other, hother, hnone, hmem⟩
      refine ⟨other.map Prod.snd, (Finset.mem_sort _).mpr (hother.mem_left_iff.mpr ⟨hne, hnone⟩),
        ?_⟩
      rwa [← hother.eq_zip]
  have hnames : (self.left vars).sort (· ≤ ·) ≠ [] →
      (self.getUnsatisfied (self.markAll vars)).names = self.names := fun hne ↦
    names_project hne fun tuple htuple ↦ (hleft tuple htuple).length_eq
  rw [mem_groups]
  constructor
  · rintro ⟨hne, hfst, hvalues⟩
    have hsort : (self.left vars).sort (· ≤ ·) ≠ [] := by
      intro hnil
      refine hne ?_
      rw [getUnsatisfied, ← left, hnil]
      rfl
    rw [hnames hsort] at hne hfst
    refine ⟨hne, ⟨hfst, fun entry hentry ↦ ?_⟩, fun entry hentry ↦
      ((hvalue entry).mp (hvalues entry hentry)).2⟩
    obtain ⟨-, other, hother, -, hmem⟩ := (hvalue entry).mp (hvalues entry hentry)
    exact hother.2 entry hmem
  · rintro ⟨hne, hc, hall⟩
    have hentries : c ≠ [] := by
      rintro rfl
      exact hne hc.1.symm
    obtain ⟨entry, hentry⟩ := List.exists_mem_of_ne_nil c hentries
    obtain ⟨other, hother, hnone, -⟩ := hall entry hentry
    have hsort : (self.left vars).sort (· ≤ ·) ≠ [] :=
      List.ne_nil_of_mem ((Finset.mem_sort _).mpr (hother.mem_left_iff.mpr ⟨hne, hnone⟩))
    exact ⟨by rwa [hnames hsort], hc.1.trans (hnames hsort).symm, fun entry hentry ↦
      (hvalue entry).mpr ⟨hne, hall entry hentry⟩⟩

/-! ### When the reports are exact -/

theorem Combination.reported_iff (h : self.Combination c) (hne : self.names ≠ []) :
    Reported (self.markAll vars) c ↔ ∃ var ∈ vars, var.AdmitsByPosition c := by
  have hleft : c.map Prod.snd ∈ self.left vars ↔ ∀ var ∈ vars, ¬ var.AdmitsByPosition c := by
    rw [h.mem_left_iff, and_iff_right hne]
  by_cases hvars : vars = []
  · refine iff_of_false ?_ (by simp [hvars])
    rintro ⟨tuples, hsome, -⟩
    rw [hvars] at hsome
    cases hsome
  · unfold Reported
    rw [markAll_eq_some hvars]
    constructor
    · rintro ⟨tuples, hsome, hmem⟩
      obtain rfl := Option.some.inj hsome
      by_contra hnone
      exact hmem (hleft.mpr fun var hvar hadmits ↦ hnone ⟨var, hvar, hadmits⟩)
    · rintro ⟨var, hvar, hadmits⟩
      exact ⟨_, rfl, fun hmem ↦ hleft.mp hmem var hvar hadmits⟩

/-- With variants, all is satisfied once every combination was admitted by position. -/
theorem isSatisfied_iff (hne : self.names ≠ []) : self.isSatisfied (self.markAll vars) = true ↔
    ∀ c, self.Combination c → ∃ var ∈ vars, var.AdmitsByPosition c := by
  have hempty : self.entries.isEmpty = false := by
    rw [List.isEmpty_eq_false_iff]
    exact fun h ↦ hne (names_eq_nil_iff.mpr h)
  obtain ⟨c, hc⟩ : ∃ c, self.Combination c := by
    refine ⟨self.names.attach.map fun name ↦ (name.1, (nonempty_values name.2).choose), ?_, ?_⟩
    · rw [List.map_map]
      exact List.attach_map_subtype_val self.names
    · intro entry hentry
      obtain ⟨name, -, rfl⟩ := List.mem_map.mp hentry
      exact (nonempty_values name.2).choose_spec
  rw [isSatisfied, hempty, Bool.or_false, decide_eq_true_iff]
  constructor
  · intro hnone c hc
    refine (hc.reported_iff hne).mp ⟨∅, hnone, Finset.notMem_empty _⟩
  · intro hall
    have hvars : vars ≠ [] := by
      rintro rfl
      obtain ⟨var, hvar, -⟩ := hall c hc
      exact absurd hvar List.not_mem_nil
    rw [markAll_eq_some hvars, Option.some_inj]
    refine Finset.eq_empty_of_forall_notMem fun tuple htuple ↦ ?_
    have hmem := (mem_markAll none).mp htuple
    obtain ⟨hother, hsnd⟩ := combination_zip (mem_crossProduct.mp hmem.1).2
    obtain ⟨var, hvar, hadmits⟩ := hall _ hother
    refine hmem.2 var hvar ?_
    rw [← hsnd]
    exact mem_crossProduct_iff_admitsByPosition.mpr hadmits

omit [LinearOrder Value] in
/-- Sets with the same variants do not matter for what is read by position. -/
theorem readByName_iff (hne : self.names ≠ []) : self.ReadByName vars ↔
    ∀ c, self.Combination c → ((∃ var ∈ vars, var.AdmitsByPosition c) ↔
      ∃ var ∈ vars, var.Admits c) := by
  refine forall₂_congr fun c hc ↦ ?_
  by_cases hsame : ∃ var ∈ vars, var.names = self.names ∧ var.Admits c
  · obtain ⟨var, hvar, hnames, hadmits⟩ := hsame
    refine iff_of_true (fun h ↦ absurd hadmits (h var hvar hnames))
      (iff_of_true ?_ ⟨var, hvar, hadmits⟩)
    exact ⟨var, hvar, (hc.admitsByPosition_iff hnames hne).mpr hadmits⟩
  · have hnone : ∀ var ∈ vars, var.names = self.names → ¬ var.Admits c :=
        fun var hvar hnames hadmits ↦
      hsame ⟨var, hvar, hnames, hadmits⟩
    have hposition : (∃ var ∈ vars, var.AdmitsByPosition c) ↔
        ∃ var ∈ vars, var.names ≠ self.names ∧ var.AdmitsByPosition c :=
      ⟨fun ⟨var, hvar, h⟩ ↦ ⟨var, hvar, fun hnames ↦
        hnone var hvar hnames ((hc.admitsByPosition_iff hnames hne).mp h), h⟩,
        fun ⟨var, hvar, _, h⟩ ↦ ⟨var, hvar, h⟩⟩
    have hname : (∃ var ∈ vars, var.Admits c) ↔
        ∃ var ∈ vars, var.names ≠ self.names ∧ var.Admits c :=
      ⟨fun ⟨var, hvar, h⟩ ↦ ⟨var, hvar, fun hnames ↦ hnone var hvar hnames h, h⟩,
        fun ⟨var, hvar, _, h⟩ ↦ ⟨var, hvar, h⟩⟩
    rw [hposition, hname]
    exact ⟨fun h ↦ h hnone, fun h _ ↦ h⟩

theorem exact_of_names_eq_nil (h : self.names = []) : self.Exact vars ↔ vars ≠ [] := by
  have hsatisfied : self.isSatisfied (self.markAll vars) = true := by
    rw [isSatisfied, names_eq_nil_iff.mp h]
    exact Bool.or_true _
  have hc : self.Combination [] := ⟨h.symm, fun _ hentry ↦ absurd hentry List.not_mem_nil⟩
  constructor
  · rintro hexact rfl
    obtain ⟨var, hvar, -⟩ := hexact.isSatisfied.mp hsatisfied [] hc
    exact absurd hvar List.not_mem_nil
  · intro hvars
    obtain ⟨var, hvar⟩ := List.exists_mem_of_ne_nil vars hvars
    have hall : ∀ c, self.Combination c → ∃ var ∈ vars, var.Admits c := by
      intro c hc
      have hnil : c = [] := List.map_eq_nil_iff.mp (hc.1.trans h)
      exact ⟨var, hvar, fun entry hentry ↦ absurd (hnil ▸ hentry) List.not_mem_nil⟩
    refine ⟨fun c hc ↦ iff_of_true ?_ (hall c hc), iff_of_true hsatisfied hall,
      fun c ↦ iff_of_false ?_ ?_, nodup_groups⟩
    · exact ⟨_, markAll_eq_some hvars, fun hmem ↦
        hc.mem_crossProduct_iff.mp ((mem_markAll none).mp hmem).1 h⟩
    · exact fun hmem ↦ (mem_groups_getUnsatisfied.mp hmem).1 h
    · rintro ⟨hc, hnone⟩
      obtain ⟨other, hother, hadmits⟩ := hall c hc
      exact hnone other hother hadmits

/-- The reports are exact if something was marked for sets without variants, or if the sets with
other variants are read by name and the combinations that are left form a product. -/
theorem reports_exact_iff (self : VariantSets Name Value) (vars : List (VariantSets Name Value)) :
    self.Exact vars ↔ (self.names = [] ∧ vars ≠ []) ∨
      self.names ≠ [] ∧ self.ReadByName vars ∧ self.Rectangular vars := by
  by_cases hne : self.names = []
  · rw [exact_of_names_eq_nil hne, and_iff_right hne, or_iff_left fun h ↦ h.1 hne]
  · rw [or_iff_right fun h ↦ hne h.1, and_iff_right hne, readByName_iff hne]
    constructor
    · intro hexact
      have hname : ∀ c, self.Combination c →
          ((∃ var ∈ vars, var.AdmitsByPosition c) ↔ ∃ var ∈ vars, var.Admits c) := fun c hc ↦
        (hc.reported_iff hne).symm.trans (hexact.reported c hc)
      refine ⟨hname, fun c hc hall ↦ ((hexact.groups c).mp (mem_groups_getUnsatisfied.mpr
        ⟨hne, hc, fun entry hentry ↦ ?_⟩)).2⟩
      obtain ⟨other, hother, hnone, hmem⟩ := hall entry hentry
      refine ⟨other, hother, fun var hvar hadmits ↦ ?_, hmem⟩
      obtain ⟨var', hvar', hadmits'⟩ := (hname other hother).mp ⟨var, hvar, hadmits⟩
      exact hnone var' hvar' hadmits'
    · rintro ⟨hname, hrectangular⟩
      have hnone : ∀ c, self.Combination c →
          ((∀ var ∈ vars, ¬ var.AdmitsByPosition c) ↔ ∀ var ∈ vars, ¬ var.Admits c) := by
        intro c hc
        have hnot := not_congr (hname c hc)
        simpa only [not_exists, not_and] using hnot
      refine ⟨fun c hc ↦ (hc.reported_iff hne).trans (hname c hc), ?_, fun c ↦ ?_, nodup_groups⟩
      · rw [isSatisfied_iff hne]
        exact forall₂_congr hname
      · rw [mem_groups_getUnsatisfied, and_iff_right hne]
        refine and_congr_right fun hc ↦ ⟨fun hall ↦ hrectangular c hc fun entry hentry ↦ ?_,
          fun hall entry hentry ↦ ⟨c, hc, (hnone c hc).mpr hall, hentry⟩⟩
        obtain ⟨other, hother, hleft, hmem⟩ := hall entry hentry
        exact ⟨other, hother, (hnone other hother).mp hleft, hmem⟩

/-! ### Sets of which a part is satisfied -/

/-- The variants of a package for two architectures. -/
def architectures : VariantSets (List Char) (List Char) where
  entries := [("variant.arch".toList, {"i386".toList, "sparc".toList})]
  nodup := by decide
  nonempty := by decide

/-- The variants of a package for two architectures and two kinds of zones. -/
def zones : VariantSets (List Char) (List Char) where
  entries := [("variant.arch".toList, {"i386".toList, "sparc".toList}),
    ("variant.zone".toList, {"global".toList, "nonglobal".toList})]
  nodup := by decide
  nonempty := by decide

/-- The variants under which a path is delivered to global zones of one architecture. -/
def globalZone : VariantSets (List Char) (List Char) where
  entries := [("variant.arch".toList, {"i386".toList}), ("variant.zone".toList, {"global".toList})]
  nodup := by decide
  nonempty := by decide

/-- The one combination that was marked is among the groups that are not satisfied, and a set with a
variant more marks none of the architectures. -/
theorem reports_not_exact : ¬ zones.Exact [globalZone] ∧ ¬ architectures.Exact [zones] := by
  have hnames : globalZone.names = ["variant.arch".toList, "variant.zone".toList] := by decide
  constructor
  · intro h
    have hmem : [("variant.arch".toList, "i386".toList), ("variant.zone".toList, "global".toList)] ∈
        (zones.getUnsatisfied (zones.markAll [globalZone])).groups := by
      refine mem_groups_getUnsatisfied.mpr ⟨by decide, by unfold Combination; decide, ?_⟩
      intro entry hentry
      rcases List.mem_pair.mp hentry with rfl | rfl
      · refine ⟨[("variant.arch".toList, "i386".toList),
          ("variant.zone".toList, "nonglobal".toList)],
          by unfold Combination; decide, ?_, List.mem_cons_self⟩
        rw [List.forall_mem_singleton, AdmitsByPosition, hnames]
        decide
      · refine ⟨[("variant.arch".toList, "sparc".toList), ("variant.zone".toList, "global".toList)],
          by unfold Combination; decide, ?_, List.mem_cons_of_mem _ List.mem_cons_self⟩
        rw [List.forall_mem_singleton, AdmitsByPosition, hnames]
        decide
    refine ((h.groups _).mp hmem).2 globalZone List.mem_cons_self ?_
    unfold Admits
    decide
  · intro h
    have hc : architectures.Combination [("variant.arch".toList, "i386".toList)] := by
      unfold Combination
      decide
    have hadmits : zones.Admits [("variant.arch".toList, "i386".toList)] := by
      unfold Admits
      decide
    obtain ⟨var, hvar, -, hposition⟩ := (hc.reported_iff (by decide)).mp
      ((h.reported _ hc).mpr ⟨zones, List.mem_cons_self, hadmits⟩)
    rw [List.mem_singleton.mp hvar] at hposition
    exact absurd hposition.length_eq (by decide)

end VariantSets

end Userland.Pkg.Variant
