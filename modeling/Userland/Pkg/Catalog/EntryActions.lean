import Mathlib.Data.List.Dedup
import Userland.Pkg.Catalog.Packages
import Userland.Pkg.Manifest.Dircache

/-!
# The actions of a package in a catalog

`Catalog.get_entry_actions` of `pkg/catalog.py`. If the parts asked for hold actions of the package,
these are read from their texts (`__gen_actions`). Otherwise a catalog with a `manifest_cb` takes
them from the manifest (`__gen_lazy_actions`), which sorts the actions a second time the way
`group_actions` does.

Both generators filter by `excludes`, the first one except for `set` actions of facets and variants.

Scope. `actions.fromstr` is a parameter, and the locales are taken in the order in which they are
listed.
-/

set_option autoImplicit false
set_option relaxedAutoImplicit false

namespace Userland.Pkg.Catalog

open Library Actions

/-- `Catalog.DEPENDENCY` and `Catalog.SUMMARY`. -/
inductive Info
  | DEPENDENCY
  | SUMMARY
deriving DecidableEq

/-- What a generator yields, and what it raises after that. -/
structure Generated where
  yielded : List Action
  error : Option Error

/-- A generator that yields one action before another generator. -/
def Generated.cons (action : Action) (rest : Generated) : Generated :=
  { rest with yielded := action :: rest.yielded }

/-- `set(locales)`, with the default. -/
def localesOf (locales : List (List Char)) : List (List Char) :=
  if locales.isEmpty then ["C".toList] else locales.dedup

/-- The names of facets and variants. -/
def isVarcetName (name : List Char) : Bool :=
  "facet".toList.isPrefixOf name || "variant".toList.isPrefixOf name

/-- `__gen_actions(pfmri, actions, excludes)`. An error in a text is kept for the end. -/
def genActions (fromstr : List Char → Option Action) (excludes : List (Action → Bool)) :
    (failed : Bool) → List (List Char) → Generated
  | failed, [] => ⟨[], if failed then some .invalidPackageErrors else none⟩
  | failed, astr :: rest =>
    match fromstr astr with
    | none => genActions fromstr excludes true rest
    | some a =>
      if a.name = "set".toList then
        match attrName a with
        | .error error => ⟨[], some error⟩
        | .ok name =>
          if isVarcetName name || Manifest.includeThis excludes a then
            .cons a (genActions fromstr excludes failed rest)
          else genActions fromstr excludes failed rest
      else if Manifest.includeThis excludes a then
        .cons a (genActions fromstr excludes failed rest)
      else genActions fromstr excludes failed rest

/-- `__gen_manifest_actions(m, atypes, excludes)`, without the names. -/
def genManifestActions (m : Manifest) (atypes : List (List Char))
    (excludes : List (Action → Bool)) :
    List Action :=
  (atypes.flatMap m.genActionsByType).filter (Manifest.includeThis excludes)

/-- Whether `__gen_lazy_actions` yields an action. -/
def lazilyYielded (infoNeeded : List Info) (locales : List (List Char)) (a : Action) :
    Except Error Bool :=
  if a.name = "depend".toList then .ok (infoNeeded.contains .DEPENDENCY)
  else do
    let name ← attrName a
    if isDependencyName name then return infoNeeded.contains .DEPENDENCY
    else if infoNeeded.contains .SUMMARY && a.name == "set".toList then
      if isFmriName name then return false
      else
        match localeOf name with
        | some locale => return locales.contains locale
        | none => return true
    else return false

/-- The loop of `__gen_lazy_actions`. -/
def yieldEach (yields : Action → Except Error Bool) : List Action → Generated
  | [] => ⟨[], none⟩
  | a :: rest =>
    match yields a with
    | .error error => ⟨[], some error⟩
    | .ok true => .cons a (yieldEach yields rest)
    | .ok false => yieldEach yields rest

/-- `__gen_lazy_actions(f, info_needed, locales, excludes)`, for the manifest of `f`. -/
def genLazyActions (m : Manifest) (infoNeeded : List Info) (locales : List (List Char))
    (excludes : List (Action → Bool)) : Generated :=
  let atypes := if infoNeeded.contains .DEPENDENCY then ["depend".toList, "set".toList]
    else ["set".toList]
  yieldEach (lazilyYielded infoNeeded locales) (genManifestActions m atypes excludes)

/-- `merge_entry(src, dest)`. -/
def mergeEntry (dest : Metadata) (src : Entry) : Metadata where
  metadata := src.metadata.or dest.metadata
  signatures := src.signatures.foldl (fun entries entry ↦ Dict.set entries entry.1 entry.2)
    dest.signatures
  actions := match src.actions with
    | none => dest.actions
    | some actions => some (dest.actions.getD [] ++ actions)

namespace State

/-- The parts that `get_entry` asks, apart from the base part. -/
def partsAsked (self : State) (infoNeeded : List Info) (locales : List (List Char)) :
    List CatalogPart :=
  (if infoNeeded.contains .DEPENDENCY then (self.parts.lookup depsPart).toList else []) ++
    if infoNeeded.contains .SUMMARY then
      (localesOf locales).flatMap fun locale ↦ (self.parts.lookup (summPart locale)).toList
    else []

/-- Merges the entry of a part, if it has one. -/
def mergePart (pfmri : PkgFmri) (mdata : Metadata) (part : CatalogPart) :
    Except Error Metadata := do
  match ← part.getEntry pfmri with
  | none => return mdata
  | some entry => return mergeEntry mdata entry

/-- `get_entry(pfmri, info_needed, locales)`. -/
def getEntry (self : State) (pfmri : PkgFmri) (infoNeeded : List Info)
    (locales : List (List Char)) : Except Error (Option Metadata) :=
  match self.parts.lookup basePart with
  | none => .ok none
  | some base => do
    match ← base.getEntry pfmri with
    | none => return none
    | some bentry =>
      let mdata ← (self.partsAsked infoNeeded locales).foldlM (mergePart pfmri)
        (mergeEntry ⟨none, [], none⟩ bentry)
      return some mdata

/-- The generator that `get_entry_actions` chooses for an entry. -/
def chooseGenerator (self : State) (fromstr : List Char → Option Action) (pfmri : PkgFmri)
    (infoNeeded : List Info) (excludes : List (Action → Bool)) (locales : List (List Char))
    (entry : Metadata) : Generated :=
  match entry.actions, self.manifestCb with
  | some actions, _ => genActions fromstr excludes false actions
  | none, none => ⟨[], none⟩
  | none, some manifestCb =>
    match manifestCb pfmri with
    | none => ⟨[], none⟩
    | some m => genLazyActions m infoNeeded (localesOf locales) excludes

/-- `get_entry_actions(pfmri, info_needed, excludes, locales)`. -/
def getEntryActions (self : State) (fromstr : List Char → Option Action) (pfmri : PkgFmri)
    (infoNeeded : List Info) (excludes : List (Action → Bool)) (locales : List (List Char)) :
    Except Error Generated :=
  if infoNeeded.isEmpty then .error .assertionError
  else do
    match ← self.getEntry pfmri infoNeeded locales with
    | none => throw .unknownCatalogEntry
    | some entry => return self.chooseGenerator fromstr pfmri infoNeeded excludes locales entry

end State

end Userland.Pkg.Catalog
