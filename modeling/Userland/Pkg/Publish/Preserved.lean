import Userland.Library.ShortSort
import Userland.Library.Traverse
import Userland.Pkg.Publish.Combine
import Userland.Pkg.Variant.Satisfaction

/-!
# What combining preserves

`combine` succeeds and keeps what the dependencies mean exactly if in each group, in the order that
`sorted` gives it, no leading set of variants is a proper subset of a later one, and every
combination that some set admits is admitted by a leading one (`combine_preserves_iff`). The second
holds if all sets have the variants of the package (`covered_of_full`). The first does not follow
from sorting by `sort_by_variant_subsets`: between a subset and its superset there may stand a set
that is neither.
-/

set_option autoImplicit false
set_option relaxedAutoImplicit false

namespace Userland.Pkg.Publish

open Library Library.Subsumption Actions Variant VariantSets

variable {Name Value : Type} [LinearOrder Name] [LinearOrder Value]

/-! ### What should be preserved -/

/-- A value of an attribute. -/
def Dependency.HasValue (d : Dependency) (name value : List Char) : Prop :=
  ∃ found, d.attrs.lookup name = some found ∧ value ∈ found.toList

/-- Under each combination of the package's variants the same packages are depended on, and no value
of an attribute is lost. -/
structure Preserves (pkgVars : VariantSets Name Value)
    (deps res : List (TaggedDependency Name Value)) :
    Prop where
  applies : ∀ c, pkgVars.Combination c → ∀ fmri,
    (∃ d ∈ res, d.1.fmri = fmri ∧ d.2.Admits c) ↔ ∃ d ∈ deps, d.1.fmri = fmri ∧ d.2.Admits c
  values : ∀ d ∈ deps, ∃ kept ∈ res, kept.1.fmri = d.1.fmri ∧
    ∀ name value, d.1.HasValue name value → kept.1.HasValue name value

/-- A combination that a set admits is admitted by one that is within no set before it. -/
def Covered (pkgVars : VariantSets Name Value) (vars : List (VariantSets Name Value)) : Prop :=
  ∀ c, pkgVars.Combination c → (∃ var ∈ vars, var.Admits c) →
    ∃ var, Leading issubset vars var ∧ var.Admits c

/-! ### Subsets -/

theorem issubset_iff {self var : VariantSets Name Value} : self.issubset var = true ↔
    ∀ name row, self.get name = some row → ∃ row', var.get name = some row' ∧ row ⊆ row' := by
  rw [issubset, List.all_eq_true]
  constructor
  · intro h name row hrow
    have hentry := h (name, row) (get_eq_some_iff.mp hrow)
    dsimp only at hentry
    split at hentry
    · rename_i row' hrow'
      exact ⟨row', hrow', of_decide_eq_true hentry⟩
    · cases hentry
  · intro h entry hentry
    obtain ⟨row', hrow', hsub⟩ := h entry.1 entry.2 (get_eq_some_iff.mpr hentry)
    rw [hrow']
    exact decide_eq_true hsub

theorem issubset_refl (self : VariantSets Name Value) : self.issubset self = true :=
  issubset_iff.mpr fun _ row hrow ↦ ⟨row, hrow, Finset.Subset.refl row⟩

theorem issubset_trans (first second third : VariantSets Name Value)
    (h : first.issubset second = true)
    (h' : second.issubset third = true) : first.issubset third = true := by
  refine issubset_iff.mpr fun name row hrow ↦ ?_
  obtain ⟨row', hrow', hsub⟩ := issubset_iff.mp h name row hrow
  obtain ⟨row'', hrow'', hsub'⟩ := issubset_iff.mp h' name row' hrow'
  exact ⟨row'', hrow'', hsub.trans hsub'⟩

/-- Sets with all variants of the package are covered. -/
theorem covered_of_full {pkgVars : VariantSets Name Value} {vars : List (VariantSets Name Value)}
    (h : ∀ var ∈ vars, ∀ name ∈ pkgVars.names, name ∈ var.names) : Covered pkgVars vars := by
  rintro c hc ⟨var, hvar, hadmits⟩
  obtain ⟨leading, hleading, hsub⟩ := exists_leading issubset_refl issubset_trans hvar
  refine ⟨leading, hleading, fun entry hentry row hrow ↦ ?_⟩
  have hname : entry.1 ∈ pkgVars.names := hc.1 ▸ List.mem_map_of_mem hentry
  obtain ⟨found, hfound⟩ := mem_names.mp (h var hvar entry.1 hname)
  obtain ⟨row', hrow', hsub'⟩ := issubset_iff.mp hsub entry.1 found hfound
  rw [hrow] at hrow'
  rw [Option.some.inj hrow']
  exact hsub' (hadmits entry hentry found hfound)

theorem get_removeIdentical {self var : VariantSets Name Value} {name : Name} {row : Finset Value} :
    (self.removeIdentical var).get name = some row ↔
    self.get name = some row ∧ var.get name ≠ some row := by
  rw [get_eq_some_iff, get_eq_some_iff, removeIdentical, List.mem_filter, decide_eq_true_iff]

/-- Variants with all values of the package rule no combination out. -/
theorem admits_removeIdentical {self pkgVars : VariantSets Name Value} {c : List (Name × Value)}
    (hc : pkgVars.Combination c) : (self.removeIdentical pkgVars).Admits c ↔ self.Admits c := by
  refine forall₂_congr fun entry hentry ↦ forall_congr' fun row ↦ ?_
  rw [get_removeIdentical]
  constructor
  · intro h hrow
    by_cases hidentical : pkgVars.get entry.1 = some row
    · have hvalue := hc.2 entry hentry
      rwa [VariantSets.values, hidentical] at hvalue
    · exact h ⟨hrow, hidentical⟩
  · exact fun h hrow ↦ h hrow.1

/-! ### Attributes -/

theorem hasValue_mergeAttr {attrs : List (List Char × AttrValue)} {attr : List Char × AttrValue}
    {name value : List Char} {found : AttrValue} (hlookup : attrs.lookup name = some found)
    (hvalue : value ∈ found.toList) :
    ∃ found', (mergeAttr attrs attr).lookup name = some found' ∧ value ∈ found'.toList := by
  unfold mergeAttr
  by_cases hname : name = attr.1
  · rw [← hname, hlookup]
    dsimp only
    split_ifs
    · exact ⟨found, hlookup, hvalue⟩
    · exact ⟨_, Dict.lookup_set_self _ _ _, List.mem_append_left _ hvalue⟩
  · split
    · exact ⟨found, by rw [Dict.lookup_set_of_ne _ hname, hlookup], hvalue⟩
    · split_ifs
      · exact ⟨found, hlookup, hvalue⟩
      · exact ⟨found, by rw [Dict.lookup_set_of_ne _ hname, hlookup], hvalue⟩

theorem hasValue_mergeAttr_self (attrs : List (List Char × AttrValue))
    (attr : List Char × AttrValue) {value : List Char} (hvalue : value ∈ attr.2.toList) :
    ∃ found', (mergeAttr attrs attr).lookup attr.1 = some found' ∧ value ∈ found'.toList := by
  unfold mergeAttr
  split
  · exact ⟨_, Dict.lookup_set_self _ _ _, hvalue⟩
  · rename_i found hfound
    split_ifs with heq
    · exact ⟨found, hfound, heq ▸ hvalue⟩
    · exact ⟨_, Dict.lookup_set_self _ _ _, List.mem_append_right _ hvalue⟩

theorem hasValue_foldl_mergeAttr (attrs : List (List Char × AttrValue))
    {dest : List (List Char × AttrValue)} {name value : List Char}
    (h : (∃ found, dest.lookup name = some found ∧ value ∈ found.toList) ∨
      ∃ attr ∈ attrs, attr.1 = name ∧ value ∈ attr.2.toList) :
    ∃ found, (attrs.foldl mergeAttr dest).lookup name = some found ∧ value ∈ found.toList := by
  induction attrs generalizing dest with
  | nil =>
    rcases h with h | ⟨attr, hattr, -⟩
    · exact h
    · exact absurd hattr List.not_mem_nil
  | cons attr attrs ih =>
    refine ih ?_
    rcases h with ⟨found, hlookup, hvalue⟩ | ⟨other, hother, rfl, hvalue⟩
    · exact Or.inl (hasValue_mergeAttr hlookup hvalue)
    · rcases List.mem_cons.mp hother with rfl | hother
      · exact Or.inl (hasValue_mergeAttr_self dest other hvalue)
      · exact Or.inr ⟨other, hother, rfl, hvalue⟩

theorem hasValue_mergeDeps {dest src : Dependency} {name value : List Char}
    (h : dest.HasValue name value ∨ src.HasValue name value) :
    (mergeDeps dest src).HasValue name value := by
  refine hasValue_foldl_mergeAttr src.attrs (h.imp_right ?_)
  rintro ⟨found, hlookup, hvalue⟩
  exact ⟨(name, found), Dict.mem_of_lookup hlookup, rfl, hvalue⟩

theorem hasValue_consolidateAttrs {d : Dependency} {name value : List Char}
    (h : d.HasValue name value) :
    d.consolidateAttrs.HasValue name value := by
  obtain ⟨found, hlookup, hvalue⟩ := h
  have hmem := List.mem_map_of_mem
    (f := fun attr : List Char × AttrValue ↦ (attr.1, consolidateValue attr.2))
      (Dict.mem_of_lookup hlookup)
  refine ⟨_, (Dict.lookup_eq_some_iff_mem d.consolidateAttrs.nodup).mpr hmem, ?_⟩
  cases found with
  | str text => exact hvalue
  | list values => exact List.mem_dedup.mpr hvalue

/-! ### The groups -/

section Combine

variable {sorted : (VariantSets Name Value → VariantSets Name Value → ℤ) →
  List (TaggedDependency Name Value) → List (TaggedDependency Name Value)}
  (hsorted : ∀ cmp list, (sorted cmp list).Perm list)
  {deps glist : List (TaggedDependency Name Value)}

include hsorted

theorem mem_of_mem_glists (h : glist ∈ glists sorted deps) : ∃ group ∈ Grouping.groupby
    (fun d ↦ d.1.fmri) (deps.insertionSort fun a b ↦ a.1.fmri ≤ b.1.fmri), ∀ d, d ∈ glist ↔
    d ∈ group := by
  obtain ⟨group, hgroup, rfl⟩ := List.mem_map.mp h
  exact ⟨group, hgroup, fun d ↦ (hsorted _ group).mem_iff⟩

theorem mem_deps_iff {d : TaggedDependency Name Value} :
    d ∈ deps ↔ ∃ glist ∈ glists sorted deps, d ∈ glist := by
  rw [← List.mem_insertionSort fun a b : TaggedDependency Name Value ↦ a.1.fmri ≤ b.1.fmri,
    ← Grouping.flatten_groupby (fun d : TaggedDependency Name Value ↦
      d.1.fmri) (deps.insertionSort _),
    List.mem_flatten]
  constructor
  · rintro ⟨group, hgroup, hd⟩
    exact ⟨_, List.mem_map_of_mem hgroup, (hsorted _ group).mem_iff.mpr hd⟩
  · rintro ⟨glist, hglist, hd⟩
    obtain ⟨group, hgroup, hmem⟩ := mem_of_mem_glists hsorted hglist
    exact ⟨group, hgroup, (hmem d).mp hd⟩

theorem fmri_eq_of_mem_glists (h : glist ∈ glists sorted deps) {d d' : TaggedDependency Name Value}
    (hd : d ∈ glist) (hd' : d' ∈ glist) : d.1.fmri = d'.1.fmri := by
  obtain ⟨group, hgroup, hmem⟩ := mem_of_mem_glists hsorted h
  exact Grouping.key_eq_of_mem_groupby (fun d : TaggedDependency Name Value ↦ d.1.fmri) hgroup
    ((hmem d).mp hd) ((hmem d').mp hd')

/-- A package has one group. -/
theorem glist_eq_of_fmri_eq {glist' : List (TaggedDependency Name Value)}
    (h : glist ∈ glists sorted deps)
    (h' : glist' ∈ glists sorted deps) {d d' : TaggedDependency Name Value} (hd : d ∈ glist)
    (hd' : d' ∈ glist') (hfmri : d.1.fmri = d'.1.fmri) : glist = glist' := by
  by_contra hne
  have hsort : (deps.insertionSort fun a b ↦ a.1.fmri ≤ b.1.fmri).Pairwise
      fun a b ↦ a.1.fmri ≤ b.1.fmri := List.pairwise_insertionSort _ _
  have hpairwise : (glists sorted deps).Pairwise fun glist glist' ↦
      ∀ d ∈ glist, ∀ d' ∈ glist', d.1.fmri ≠ d'.1.fmri := by
    refine List.pairwise_map.mpr ((Grouping.pairwise_groupby _ hsort).imp fun {group group'} hkeys ↦
      ?_)
    intro d hd d' hd'
    exact hkeys d ((hsorted _ group).mem_iff.mp hd) d' ((hsorted _ group').mem_iff.mp hd')
  have : Std.Symm fun glist glist' : List (TaggedDependency Name Value) ↦
      ∀ d ∈ glist, ∀ d' ∈ glist', d.1.fmri ≠ d'.1.fmri :=
    ⟨fun _ _ hkeys d hd d' hd' ↦ (hkeys d' hd' d hd).symm⟩
  exact hpairwise.forall h h' hne d hd d' hd' hfmri

omit hsorted

theorem exists_subres_iff : (∃ kept, subres glist = some kept) ↔
    Ordered issubset (glist.map Prod.snd) := by
  have hsize : ∀ kept d : TaggedDependency Name Value, (mergeTagged kept d).2 = kept.2 :=
    fun _ _ ↦ rfl
  exact exists_absorbAll_iff issubset_refl issubset_trans hsize glist

theorem mem_subres_iff_leading {kept : List (TaggedDependency Name Value)}
    (h : subres glist = some kept) (var : VariantSets Name Value) :
    var ∈ kept.map Prod.snd ↔ Leading issubset (glist.map Prod.snd) var := by
  have hsize : ∀ kept d : TaggedDependency Name Value, (mergeTagged kept d).2 = kept.2 :=
    fun _ _ ↦ rfl
  exact (keeps_of_absorbAll issubset_refl issubset_trans hsize h).leading var

theorem exists_of_mem_subres {kept : List (TaggedDependency Name Value)}
    (h : subres glist = some kept) :
    ∀ found ∈ kept, ∃ d ∈ glist, found.1.fmri = d.1.fmri ∧ found.2 = d.2 := by
  have hkeep : ∀ d kept other : TaggedDependency Name Value, kept.1.fmri = d.1.fmri ∧ kept.2 = d.2 →
      (mergeTagged kept other).1.fmri = d.1.fmri ∧ (mergeTagged kept other).2 = d.2 :=
        fun _ _ _ hkept ↦ hkept
  exact exists_of_mem_absorbAll (R := fun d found ↦ found.1.fmri = d.1.fmri ∧ found.2 = d.2)
    (fun _ ↦ ⟨rfl, rfl⟩) hkeep h

theorem exists_subres_of_mem {kept : List (TaggedDependency Name Value)}
    (h : subres glist = some kept) :
    ∀ d ∈ glist, ∃ found ∈ kept, ∀ name value, d.1.HasValue name value →
    found.1.HasValue name value := by
  exact exists_kept_of_mem (R := fun d found : TaggedDependency Name Value ↦
      ∀ name value, d.1.HasValue name value → found.1.HasValue name value)
    (fun _ _ _ hvalue ↦ hvalue) (fun _ _ _ _ _ hvalue ↦ hasValue_mergeDeps (Or.inr hvalue))
    (fun _ _ _ hkept name value hvalue ↦ hasValue_mergeDeps (Or.inl (hkept name value hvalue))) h

theorem mem_combine_iff {pkgVars : VariantSets Name Value}
    {res : List (TaggedDependency Name Value)}
    (h : combine sorted deps pkgVars = some res) (d : TaggedDependency Name Value) :
    d ∈ res ↔ ∃ glist ∈ glists sorted deps, ∃ kept, subres glist = some kept ∧
      ∃ found ∈ kept, addVars pkgVars found = d := by
  obtain ⟨groups, hgroups, rfl⟩ := Option.map_eq_some_iff.mp h
  rw [List.mem_map]
  constructor
  · rintro ⟨found, hfound, rfl⟩
    obtain ⟨kept, hkept, hfound⟩ := List.mem_flatten.mp hfound
    obtain ⟨glist, hglist, hsubres⟩ := (Traverse.mem_mapM hgroups kept).mp hkept
    exact ⟨glist, hglist, kept, hsubres, found, hfound, rfl⟩
  · rintro ⟨glist, hglist, kept, hsubres, found, hfound, rfl⟩
    have hkept := (Traverse.mem_mapM hgroups kept).mpr ⟨glist, hglist, hsubres⟩
    exact ⟨found, List.mem_flatten.mpr ⟨kept, hkept, hfound⟩, rfl⟩

theorem exists_combine_iff {pkgVars : VariantSets Name Value} :
    (∃ res, combine sorted deps pkgVars = some res) ↔
      ∀ glist ∈ glists sorted deps, Ordered issubset (glist.map Prod.snd) := by
  have hgroups : (∀ glist ∈ glists sorted deps, Ordered issubset (glist.map Prod.snd)) ↔
      ∀ glist ∈ glists sorted deps, ∃ kept, subres glist = some kept :=
    forall₂_congr fun _ _ ↦ exists_subres_iff.symm
  rw [hgroups, ← Traverse.exists_mapM_iff]
  constructor
  · rintro ⟨res, hres⟩
    obtain ⟨groups, hgroups, -⟩ := Option.map_eq_some_iff.mp hres
    exact ⟨groups, hgroups⟩
  · rintro ⟨groups, hgroups⟩
    exact ⟨_, Option.map_eq_some_iff.mpr ⟨groups, hgroups, rfl⟩⟩

include hsorted

/-- The packages depended on under a combination, and the attributes, are preserved exactly if the
groups are covered. -/
theorem preserves_iff {pkgVars : VariantSets Name Value} {res : List (TaggedDependency Name Value)}
    (h : combine sorted deps pkgVars = some res) :
    Preserves pkgVars deps res ↔ ∀ glist ∈ glists sorted deps,
    Covered pkgVars (glist.map Prod.snd) := by
  constructor
  · rintro ⟨happlies, -⟩ glist hglist c hc ⟨var, hvar, hadmits⟩
    obtain ⟨d, hd, rfl⟩ := List.mem_map.mp hvar
    obtain ⟨out, hout, hfmri, hout'⟩ := (happlies c hc d.1.fmri).mpr
      ⟨d, (mem_deps_iff hsorted).mpr ⟨glist, hglist, hd⟩, rfl, hadmits⟩
    obtain ⟨glist', hglist', kept, hkept, found, hfound, rfl⟩ := (mem_combine_iff h out).mp hout
    obtain ⟨d', hd', hfmri', -⟩ := exists_of_mem_subres hkept found hfound
    have heq := glist_eq_of_fmri_eq hsorted hglist' hglist hd' hd (hfmri'.symm.trans hfmri)
    rw [heq] at hkept
    exact ⟨found.2, (mem_subres_iff_leading hkept found.2).mp (List.mem_map_of_mem hfound),
      (admits_removeIdentical hc).mp hout'⟩
  · intro hcovered
    have hsubres : ∀ glist ∈ glists sorted deps, ∃ kept, subres glist = some kept :=
        fun glist hglist ↦
      exists_subres_iff.mpr (exists_combine_iff.mp ⟨res, h⟩ glist hglist)
    refine ⟨fun c hc fmri ↦ ⟨?_, ?_⟩, fun d hd ↦ ?_⟩
    · rintro ⟨out, hout, rfl, hadmits⟩
      obtain ⟨glist, hglist, kept, hkept, found, hfound, rfl⟩ := (mem_combine_iff h out).mp hout
      obtain ⟨d, hd, hfmri, hvars⟩ := exists_of_mem_subres hkept found hfound
      exact ⟨d, (mem_deps_iff hsorted).mpr ⟨glist, hglist, hd⟩, hfmri.symm,
        hvars ▸ (admits_removeIdentical hc).mp hadmits⟩
    · rintro ⟨d, hd, rfl, hadmits⟩
      obtain ⟨glist, hglist, hd⟩ := (mem_deps_iff hsorted).mp hd
      obtain ⟨kept, hkept⟩ := hsubres glist hglist
      obtain ⟨var, hvar, hadmits'⟩ := hcovered glist hglist c hc ⟨d.2,
        List.mem_map_of_mem hd, hadmits⟩
      obtain ⟨found, hfound, rfl⟩ := List.mem_map.mp ((mem_subres_iff_leading hkept var).mpr hvar)
      obtain ⟨d', hd', hfmri, -⟩ := exists_of_mem_subres hkept found hfound
      exact ⟨_, (mem_combine_iff h _).mpr ⟨glist, hglist, kept, hkept, found, hfound, rfl⟩,
        hfmri.trans (fmri_eq_of_mem_glists hsorted hglist hd' hd),
          (admits_removeIdentical hc).mpr hadmits'⟩
    · obtain ⟨glist, hglist, hd⟩ := (mem_deps_iff hsorted).mp hd
      obtain ⟨kept, hkept⟩ := hsubres glist hglist
      obtain ⟨found, hfound, hvalues⟩ := exists_subres_of_mem hkept d hd
      obtain ⟨d', hd', hfmri, -⟩ := exists_of_mem_subres hkept found hfound
      exact ⟨_, (mem_combine_iff h _).mpr ⟨glist, hglist, kept, hkept, found, hfound, rfl⟩,
        hfmri.trans (fmri_eq_of_mem_glists hsorted hglist hd' hd),
        fun name value hvalue ↦ hasValue_consolidateAttrs (hvalues name value hvalue)⟩

/-- `combine` passes its assertion and keeps what the dependencies mean exactly if each group is
ordered and covered, in the order that `sorted` gives it. -/
theorem combine_preserves_iff (deps : List (TaggedDependency Name Value))
    (pkgVars : VariantSets Name Value) :
    (∃ res, combine sorted deps pkgVars = some res ∧ Preserves pkgVars deps res) ↔
      ∀ glist ∈ glists sorted deps,
        Ordered issubset (glist.map Prod.snd) ∧ Covered pkgVars (glist.map Prod.snd) := by
  constructor
  · rintro ⟨res, hres, hpreserves⟩ glist hglist
    exact ⟨exists_combine_iff.mp ⟨res, hres⟩ glist hglist,
      (preserves_iff hsorted hres).mp hpreserves glist hglist⟩
  · intro h
    obtain ⟨res, hres⟩ := exists_combine_iff.mpr fun glist hglist ↦ (h glist hglist).1
    exact ⟨res, hres, (preserves_iff hsorted hres).mpr fun glist hglist ↦ (h glist hglist).2⟩

end Combine

/-! ### A group out of order -/

/-- `sorted` of a short list. -/
def sortedShort (cmp : VariantSets Name Value → VariantSets Name Value → ℤ)
    (list : List (TaggedDependency Name Value)) : List (TaggedDependency Name Value) :=
  ShortSort.shortSort (fun a b ↦ decide (cmp a.2 b.2 < 0)) list

omit [LinearOrder Name] [LinearOrder Value] in
theorem perm_sortedShort (cmp : VariantSets Name Value → VariantSets Name Value → ℤ)
    (list : List (TaggedDependency Name Value)) : (sortedShort cmp list).Perm list :=
  ShortSort.perm_shortSort _ list

def onDriver :
    Dependency := ⟨"driver".toList, [], List.nodup_nil, fun _ h ↦ absurd h List.not_mem_nil⟩

/-- The tags of something for some architectures and zones. -/
def tagged (arches zones : List (List Char)) (h : arches ≠ []) (h' : zones ≠ []) :
    VariantSets (List Char) (List Char) where
  entries := [("variant.arch".toList, arches.toFinset),
    ("variant.opensolaris.zone".toList, zones.toFinset)]
  nodup := by
    change ["variant.arch".toList, "variant.opensolaris.zone".toList].Nodup
    decide
  nonempty entry hentry := by
    simp only [List.mem_cons, List.not_mem_nil, or_false] at hentry
    rcases hentry with rfl | rfl
    · exact (List.toFinset_nonempty_iff arches).mpr h
    · exact (List.toFinset_nonempty_iff zones).mpr h'

def globalX86 : VariantSets (List Char) (List Char) :=
  tagged ["i386".toList] ["global".toList] (List.cons_ne_nil _ _) (List.cons_ne_nil _ _)

def globalSparc : VariantSets (List Char) (List Char) :=
  tagged ["sparc".toList] ["global".toList] (List.cons_ne_nil _ _) (List.cons_ne_nil _ _)

def anyX86 : VariantSets (List Char) (List Char) :=
  tagged ["i386".toList] ["global".toList, "nonglobal".toList] (List.cons_ne_nil _ _)
    (List.cons_ne_nil _ _)

/-- The variants of the package. -/
def anyArch : VariantSets (List Char) (List Char) :=
  tagged ["i386".toList, "sparc".toList] ["global".toList,
    "nonglobal".toList] (List.cons_ne_nil _ _)
    (List.cons_ne_nil _ _)

theorem names_tagged (arches zones : List (List Char)) (h : arches ≠ []) (h' : zones ≠ []) :
    (tagged arches zones h h').names = ["variant.arch".toList,
      "variant.opensolaris.zone".toList] := by
  change ["variant.arch".toList, "variant.opensolaris.zone".toList].insertionSort (· ≤ ·) = _
  decide

theorem combine_preserves_driver :
    ∃ res, combine sortedShort [(onDriver, globalX86), (onDriver, anyX86)] anyArch = some res ∧
      Preserves anyArch [(onDriver, globalX86), (onDriver, anyX86)] res := by
  refine (combine_preserves_iff perm_sortedShort _ anyArch).mpr fun glist hglist ↦ ?_
  have hglists : glists sortedShort [(onDriver, globalX86), (onDriver, anyX86)] =
      [[(onDriver, anyX86), (onDriver, globalX86)]] := by decide
  rw [hglists, List.mem_singleton] at hglist
  rw [hglist]
  refine ⟨exists_subres_iff.mp ⟨[(onDriver, anyX86)], by decide⟩,
    covered_of_full fun var hvar name hname ↦ ?_⟩
  simp only [List.map_cons, List.map_nil, List.mem_cons, List.not_mem_nil, or_false] at hvar
  rcases hvar with rfl | rfl
  · rw [anyX86, names_tagged]
    rwa [anyArch, names_tagged] at hname
  · rw [globalX86, names_tagged]
    rwa [anyArch, names_tagged] at hname

/-- Between the global zone on x86 and both zones on x86 there stands the global zone on another
architecture. -/
theorem combine_not_preserves :
    ¬ ∃ res, combine sortedShort [(onDriver, globalX86), (onDriver, globalSparc),
      (onDriver, anyX86)] anyArch =
      some res ∧ Preserves anyArch
        [(onDriver, globalX86), (onDriver, globalSparc), (onDriver, anyX86)] res := by
  have hcombine : combine sortedShort [(onDriver, globalX86), (onDriver, globalSparc),
      (onDriver, anyX86)]
      anyArch = none := by decide
  rw [hcombine]
  rintro ⟨res, hres, -⟩
  cases hres

end Userland.Pkg.Publish
