import Mathlib.Data.Char
import Userland.Library.Grouping
import Userland.Library.Subsumption
import Userland.Pkg.Actions.Action
import Userland.Pkg.Variant.VariantSets

/-!
# Combining dependencies

`combine` of `pkg/publish/dependencies.py` takes the dependencies on one package together: in each
group, a dependency whose variants are within those of an earlier one is merged into it.

Scope. The variants of a dependency stand in its `VariantSets`, and none of its attributes is a
variant tag, as `split_off_variants` leaves it and `merge_deps` asserts. Neither attribute lists nor
`VariantSets` are shared between dependencies. `sorted` with a comparison that is no order is a
parameter.
-/

set_option autoImplicit false
set_option relaxedAutoImplicit false

namespace Userland.Pkg.Publish

open Library Actions Variant

/-- A `depend` action without its variant tags: its `fmri` and its other attributes. -/
structure Dependency where
  fmri : List Char
  attrs : List (List Char × AttrValue)
  nodup : (attrs.map Prod.fst).Nodup
  untagged : ∀ name ∈ attrs.map Prod.fst, ¬ "variant.".toList <+: name

instance : DecidableEq Dependency := fun first second ↦
  decidable_of_iff (first.fmri = second.fmri ∧ first.attrs = second.attrs)
    (by cases first; cases second; simp)

/-- One attribute of `merge_deps`. -/
def mergeAttr (attrs : List (List Char × AttrValue)) (attr : List Char × AttrValue) :
    List (List Char × AttrValue) :=
  match attrs.lookup attr.1 with
  | none => Dict.set attrs attr.1 attr.2
  | some value =>
    if attr.2 = value then attrs
    else Dict.set attrs attr.1 (.list (value.toList ++ attr.2.toList))

theorem nodup_mergeAttr {attrs : List (List Char × AttrValue)} (h : (attrs.map Prod.fst).Nodup)
    (attr : List Char × AttrValue) : ((mergeAttr attrs attr).map Prod.fst).Nodup := by
  unfold mergeAttr
  split
  · exact Dict.nodup_set h _ _
  · split_ifs
    · exact h
    · exact Dict.nodup_set h _ _

theorem mem_keys_mergeAttr {attrs : List (List Char × AttrValue)} {attr : List Char × AttrValue}
    {name : List Char} (h : name ∈ (mergeAttr attrs attr).map Prod.fst) :
    name = attr.1 ∨ name ∈ attrs.map Prod.fst := by
  unfold mergeAttr at h
  split at h
  · exact Dict.mem_keys_set.mp h
  · split_ifs at h
    · exact Or.inr h
    · exact Dict.mem_keys_set.mp h

theorem foldl_mergeAttr (attrs : List (List Char × AttrValue)) {dest : List (List Char × AttrValue)}
    (h : (dest.map Prod.fst).Nodup) : ((attrs.foldl mergeAttr dest).map Prod.fst).Nodup ∧
      ∀ name ∈ (attrs.foldl mergeAttr dest).map Prod.fst,
        name ∈ attrs.map Prod.fst ∨ name ∈ dest.map Prod.fst := by
  induction attrs generalizing dest with
  | nil => exact ⟨h, fun _ hname ↦ Or.inr hname⟩
  | cons attr attrs ih =>
    obtain ⟨hnodup, hkeys⟩ := ih (nodup_mergeAttr h attr)
    refine ⟨hnodup, fun name hname ↦ ?_⟩
    rw [List.map_cons, List.mem_cons]
    rcases hkeys name hname with hattrs | hdest
    · exact Or.inl (Or.inr hattrs)
    · exact (mem_keys_mergeAttr hdest).imp_left Or.inl

/-- `merge_deps(dest, src)`. -/
def mergeDeps (dest src : Dependency) : Dependency where
  fmri := dest.fmri
  attrs := src.attrs.foldl mergeAttr dest.attrs
  nodup := (foldl_mergeAttr src.attrs dest.nodup).1
  untagged name hname := ((foldl_mergeAttr src.attrs dest.nodup).2 name hname).elim
    (src.untagged name) (dest.untagged name)

/-- A list of values without duplicates. -/
def consolidateValue : AttrValue → AttrValue
  | .str value => .str value
  | .list values => .list values.dedup

/-- `self.consolidate_attrs()`. -/
def Dependency.consolidateAttrs (self : Dependency) : Dependency where
  fmri := self.fmri
  attrs := self.attrs.map fun attr ↦ (attr.1, consolidateValue attr.2)
  nodup := by
    rw [List.map_map]
    exact self.nodup
  untagged := by
    rw [List.map_map]
    exact self.untagged

variable {Name Value : Type} [LinearOrder Name] [LinearOrder Value]

/-- A dependency with the variants under which it applies. -/
abbrev TaggedDependency (Name Value : Type) := Dependency × VariantSets Name Value

/-- `sort_by_variant_subsets(a, b)`. -/
def sortByVariantSubsets (a b : VariantSets Name Value) : ℤ :=
  if a.issubset b then 1 else if b.issubset a then -1 else 0

/-- `add_vars(d, d_vars, pkg_vars)`. -/
def addVars (pkgVars : VariantSets Name Value) (d : TaggedDependency Name Value) :
    TaggedDependency Name Value :=
  (d.1.consolidateAttrs, d.2.removeIdentical pkgVars)

/-- `merge_deps(rel_res, d)`, which leaves the variants of `rel_res` as they are. -/
def mergeTagged (rel d : TaggedDependency Name Value) : TaggedDependency Name Value :=
  (mergeDeps rel.1 d.1, rel.2)

section Combine

variable (sorted : (VariantSets Name Value → VariantSets Name Value → ℤ) →
  List (TaggedDependency Name Value) → List (TaggedDependency Name Value))

/-- The groups of dependencies on one package, each in the order that `sorted` gives it. -/
def glists (deps : List (TaggedDependency Name Value)) :
    List (List (TaggedDependency Name Value)) :=
  (Grouping.groupby (fun d ↦ d.1.fmri) (deps.insertionSort fun a b ↦ a.1.fmri ≤ b.1.fmri)).map
    (sorted sortByVariantSubsets)

/-- The loops over one group: a dependency within an earlier one is merged into it, and the
assertion fails if an earlier one is within the dependency. -/
def subres (glist : List (TaggedDependency Name Value)) :
    Option (List (TaggedDependency Name Value)) :=
  Subsumption.absorbAll VariantSets.issubset Prod.snd mergeTagged glist

/-- `combine(deps, pkg_vars)`, or none if the assertion fails. -/
def combine (deps : List (TaggedDependency Name Value)) (pkgVars : VariantSets Name Value) :
    Option (List (TaggedDependency Name Value)) :=
  ((glists sorted deps).mapM subres).map fun groups ↦ groups.flatten.map (addVars pkgVars)

end Combine

end Userland.Pkg.Publish
