import Userland.Library.SharedSets
import Userland.Pkg.Path
import Userland.Pkg.Variant.VariantSets

/-!
# The maps of delivered files

`resolve_internal_deps` of `pkg/publish/dependencies.py` notes for each file action of a manifest,
under its path, its normalized and its real path and its basename, the variants under which the file
is delivered. `VariantSets.merge` and `merge_unknown` store the set objects of the other dictionary,
and change them later in place, so that the dictionaries are dictionaries of references here.

Scope. A set object is named by where it comes from: it is one of the sets of `pkg_vars`, or the one
that the constructor of `VariantSets` makes of a tag of a file action. `realpath` depends on the
file system.
-/

set_option autoImplicit false
set_option relaxedAutoImplicit false

namespace Userland.Pkg.Publish

open Library Library.SharedSets Variant

/-- A set object: a set of `pkg_vars`, or the set of a tag of the file action at a position. -/
inductive SetRef (Name : Type)
  | package (address : ℕ)
  | tag (position : ℕ) (name : Name)
deriving DecidableEq

variable {Name Value : Type} [LinearOrder Name] [LinearOrder Value]

/-- A file action: its path, the proto area it was found in and its variant tags. -/
structure FileAction (Name Value : Type) where
  path : List Char
  protoDir : List Char
  tags : VariantSets Name Value

/-- An entry of one of the two maps. -/
inductive Entry
  | delivered (path : List Char)
  | deliveredBn (bn : List Char)
deriving DecidableEq

/-- The set objects and the maps `delivered` and `delivered_bn`. -/
structure State (Name Value : Type) where
  heap : Heap (SetRef Name) Value
  delivered : List (List Char × RefDict Name (SetRef Name))
  deliveredBn : List (List Char × RefDict Name (SetRef Name))

/-- What an entry maps to. -/
def State.entry (state : State Name Value) : Entry → Option (RefDict Name (SetRef Name))
  | .delivered path => state.delivered.lookup path
  | .deliveredBn bn => state.deliveredBn.lookup bn

/-- `setdefault(…, VariantSets()).merge(pvars)` on the map of an entry. -/
def State.merge (state : State Name Value) (entry : Entry) (pvars : RefDict Name (SetRef Name)) :
    State Name Value :=
  let merged := SharedSets.merge state.heap ((state.entry entry).getD RefDict.empty) pvars
  match entry with
  | .delivered path => ⟨merged.1, Dict.set state.delivered path merged.2, state.deliveredBn⟩
  | .deliveredBn bn => ⟨merged.1, state.delivered, Dict.set state.deliveredBn bn merged.2⟩

/-- The sets of `pkg_vars`. -/
def packageRefs (pkgVars : RefDict Name ℕ) : RefDict Name (SetRef Name) where
  entries := pkgVars.entries.map fun entry ↦ (entry.1, .package entry.2)
  nodup := by
    rw [List.map_map]
    exact pkgVars.nodup

/-- The sets that are made of the tags of a file action. -/
def tagRefs (position : ℕ) (tags : VariantSets Name Value) : RefDict Name (SetRef Name) where
  entries := tags.entries.map fun entry ↦ (entry.1, .tag position entry.1)
  nodup := by
    rw [List.map_map]
    exact tags.nodup

/-- `VariantSets(a.get_variants())`, with the variants of the package that it lacks, or `pkg_vars`
itself. -/
def pvars (pkgVars : RefDict Name ℕ) (position : ℕ) (a : FileAction Name Value) :
    RefDict Name (SetRef Name) :=
  if a.tags.entries = [] then packageRefs pkgVars
  else mergeUnknown (tagRefs position a.tags) (packageRefs pkgVars)

/-- The new set objects of a file action. -/
def makeTags (heap : Heap (SetRef Name) Value) (position : ℕ) (tags : VariantSets Name Value) :
    Heap (SetRef Name) Value
  | .package address => heap (.package address)
  | .tag other name => if other = position then tags.values name else heap (.tag other name)

section Maps

variable (realpath : List Char → List Char) (pkgVars : RefDict Name ℕ)

/-- The entries that a file action is noted under, in the order of the calls. -/
def FileAction.entries (a : FileAction Name Value) : List Entry :=
  let p := Path.join a.protoDir a.path
  [.delivered a.path, .delivered (Path.normpath p), .delivered (realpath p),
    .deliveredBn (Path.basename p)]

/-- One turn of the loop of `resolve_internal_deps`. -/
def deliverFile (state : State Name Value) (a : FileAction Name Value × ℕ) : State Name Value :=
  (a.1.entries realpath).foldl (fun state entry ↦ state.merge entry (pvars pkgVars a.2 a.1))
    { state with heap := makeTags state.heap a.2 a.1.tags }

/-- The maps after the loop over the file actions. -/
def deliveredMaps (heap : Heap (SetRef Name) Value) (files : List (FileAction Name Value)) :
    State Name Value :=
  files.zipIdx.foldl (deliverFile realpath pkgVars) ⟨heap, [], []⟩

end Maps

end Userland.Pkg.Publish
