import Userland.Library.Growing
import Userland.Pkg.Actions.Action
import Userland.Pkg.Path
import Userland.Pkg.Variant.VariantSets

/-!
# Packages for file dependencies

`helper`, `make_paths` and `find_package_using_delivered_files` of `pkg/publish/dependencies.py`:
which packages deliver the candidate paths of a file dependency.

Scope. An action is known by the number of the candidate path for which it was made and by its place
among the actions for that path. How `DependencyAction` spells the package in its `fmri` attribute
is a parameter. `multiple_path_errs` is gone through in the order in which its keys were set.
-/

set_option autoImplicit false
set_option relaxedAutoImplicit false

namespace Userland.Pkg.Publish

open Library Actions Variant

variable {Name Value : Type} [LinearOrder Name] [LinearOrder Value]

def filesPrefix : List Char := "pkg.debug.depend.file".toList

def pathsPrefix : List Char := "pkg.debug.depend.path".toList

/-- A dependency on files, as `is_file_dependency` tells it. -/
structure FileDependency where
  attrs : List (List Char × AttrValue)
  files : AttrValue
  hasFiles : attrs.lookup filesPrefix = some files

/-- `make_paths(file_dep)`. -/
def makePaths (fileDep : FileDependency) : List (List Char) :=
  ((fileDep.attrs.lookup pathsPrefix).getD (.list [[]])).toList.flatMap fun rp ↦
    fileDep.files.toList.map fun f ↦ Path.join rp f

/-! ### One path -/

/-- A package and the variants under which it delivers a path. -/
abbrev Provider (Name Value : Type) := List Char × VariantSets Name Value

/-- The variables of the loop of `helper`. The found packages stand for the actions made of them. -/
structure HelperState (Name Value : Type) where
  vars : List (Provider Name Value)
  errs : Finset (List Char)
  notSatSet : Option (Finset (List Value))

/-- The packages that deliver the path under variants that `provider` shares. -/
def clashing (vars : List (Provider Name Value)) (provider : Provider Name Value)
    (errs : Finset (List Char)) :
    Finset (List Char) :=
  vars.foldl (fun errs found ↦
    if found.1 ≠ provider.1 ∧
        (provider.2.intersects found.2 = true ∨ found.2.intersects provider.2 = true) then
      insert provider.1 (insert found.1 errs)
    else errs) errs

/-- One turn of the loop of `helper`. -/
def helperStep (depVars origDepVars : VariantSets Name Value) (state : HelperState Name Value)
    (provider : Provider Name Value) : HelperState Name Value :=
  if h : origDepVars.intersects provider.2 = true then
    { vars := state.vars ++ [(provider.1, origDepVars.intersection provider.2 h)]
      errs := clashing state.vars provider state.errs
      notSatSet := depVars.markAsSatisfied state.notSatSet provider.2 }
  else state

/-- `helper(lst, file_dep, dep_vars, orig_dep_vars)`: the packages of an `AmbiguousPathError`, or
those found with their variants, and `not_sat_set` of `dep_vars`. -/
def helper (lst : List (Provider Name Value)) (depVars origDepVars : VariantSets Name Value)
    (notSatSet : Option (Finset (List Value))) :
    Except (Finset (List Char)) (List (Provider Name Value)) × Option (Finset (List Value)) :=
  let state := lst.foldl (helperStep depVars origDepVars) ⟨[], ∅, notSatSet⟩
  (if state.errs = ∅ then .ok state.vars else .error state.errs, state.notSatSet)

/-! ### All paths -/

/-- An action that was made for a candidate path, with the variants under which it holds. -/
structure Found (Name Value : Type) where
  path : ℕ
  place : ℕ
  fmri : List Char
  vars : VariantSets Name Value

instance : DecidableEq (Found Name Value) := fun first second ↦
  decidable_of_iff (first.path = second.path ∧ first.place = second.place ∧
    first.fmri = second.fmri ∧
    first.vars = second.vars) (by cases first; cases second; simp)

def Found.id (found : Found Name Value) : ℕ × ℕ := (found.path, found.place)

/-- The actions for a path. -/
def makeFound (cleanFmri : List Char → List Char) (path : ℕ)
    (providers : List (Provider Name Value)) :
    List (Found Name Value) :=
  providers.zipIdx.map fun entry ↦ ⟨path, entry.2, cleanFmri entry.1.1, entry.1.2⟩

/-- `multiple_path_errs`, and the files of each action. -/
structure Marks (Name Value : Type) where
  multiplePathErrs : List ((ℕ × ℕ) × List (Found Name Value))
  files : ℕ × ℕ → List (List Char)

/-- One turn of the inner loop, for a result `a` and a new one: the marks and the appended results.
-/
def compareNew (a : Found Name Value) (state : Marks Name Value × List (Found Name Value))
    (new : Found Name Value) : Marks Name Value × List (Found Name Value) :=
  if a.fmri = new.fmri then
    let extended := state.1.files a.id ++ state.1.files new.id
    ({ state.1 with files := Function.update state.1.files a.id extended }, state.2)
  else if a.vars.intersects new.vars = true ∨ new.vars.intersects a.vars = true then
    let added := ((state.1.multiplePathErrs.lookup a.id).getD [a]).insert new
    ({ state.1 with multiplePathErrs := Dict.set state.1.multiplePathErrs a.id added }, state.2)
  else (state.1, state.2 ++ [new])

/-- The inner loop for a result. -/
def compareAll (newRes : List (Found Name Value)) (marks : Marks Name Value)
    (a : Found Name Value) :
    Marks Name Value × List (Found Name Value) :=
  newRes.foldl (compareNew a) (marks, [])

/-- The variables of the loop over the paths. -/
structure Search (Name Value : Type) where
  res : Option (List (Found Name Value))
  errs : List (Finset (List Char))
  marks : Marks Name Value
  notSatSet : Option (Finset (List Value))

section FindPackage

variable (cleanFmri : List Char → List Char)
  (delivered : List (List Char × List (Provider Name Value)))
  (depVars origDepVars : VariantSets Name Value)

/-- One turn of the loop over the paths, or none if `fuel` turns do not get to the end of the
results. -/
def tryPath (fuel : ℕ) (search : Search Name Value) (p : List Char × ℕ) :
    Option (Search Name Value) :=
  match helper ((delivered.lookup p.1).getD []) depVars origDepVars search.notSatSet with
  | (.error e, notSatSet) => some { search with errs := search.errs ++ [e], notSatSet := notSatSet }
  | (.ok providers, notSatSet) =>
    let newRes := makeFound cleanFmri p.2 providers
    let marks :=
      { search.marks with files := fun id ↦ if id.1 = p.2 then [p.1] else search.marks.files id }
    match search.res.getD [] with
    | [] => some { search with res := some newRes, marks := marks, notSatSet := notSatSet }
    | a :: res => (Growing.grow (compareAll newRes) fuel [] (a :: res) marks).map fun grown ↦
      { search with res := some grown.1, marks := grown.2, notSatSet := notSatSet }

/-- `DependencyAction`, with the attributes that are changed later. -/
def dependencyAction (fileDep : FileDependency) (fmri : List Char) (files : List (List Char)) :
    List (List Char × AttrValue) :=
  Dict.set (Dict.erase (Dict.set fileDep.attrs "fmri".toList (.str fmri)) pathsPrefix) filesPrefix
    (.list files)

/-- What is reported. -/
inductive ResolutionError
  | ambiguousPath (pkgs : Finset (List Char))
  | multiplePackagesPath (res : List (List (List Char × AttrValue)))

/-- What `find_package_using_delivered_files` returns. -/
structure Resolution (Name Value : Type) where
  res : List (List (List Char × AttrValue) × VariantSets Name Value)
  notSatSet : Option (Finset (List Value))
  errs : List ResolutionError

/-- The end of the search. Without a path that is not ambiguous, `res` is still `None`. -/
def Search.finish (fileDep : FileDependency) (search : Search Name Value) :
    Except Unit (Resolution Name Value) :=
  let action := fun a : Found Name Value ↦ dependencyAction fileDep a.fmri (search.marks.files a.id)
  match search.res with
  | none => .error ()
  | some res => .ok
    { res := (res.filter fun a ↦ (search.marks.multiplePathErrs.lookup a.id).isNone).map
        fun a ↦ (action a, a.vars)
      notSatSet := search.notSatSet
      errs := search.errs.map .ambiguousPath ++
        search.marks.multiplePathErrs.map fun entry ↦ .multiplePackagesPath (entry.2.map action) }

/-- `find_package_using_delivered_files(delivered, file_dep, dep_vars, orig_dep_vars)`: none if a
loop takes more than `fuel` turns, and an error if it goes through `None`. -/
def findPackageUsingDeliveredFiles (fileDep : FileDependency)
    (notSatSet : Option (Finset (List Value)))
    (fuel : ℕ) : Option (Except Unit (Resolution Name Value)) :=
  ((makePaths fileDep).zipIdx.foldlM (tryPath cleanFmri delivered depVars origDepVars fuel)
    ⟨none, [], ⟨[], fun _ ↦ []⟩, notSatSet⟩).map (Search.finish fileDep)

end FindPackage

end Userland.Pkg.Publish
