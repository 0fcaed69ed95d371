import Mathlib.Data.List.Lex
import Userland.Library.Keyed
import Userland.Pkg.Actions.Kinds

/-!
# The difference of two manifests

`Manifest.difference` of `pkg/manifest.py` puts the selected actions of each manifest into a
dictionary, under the type and the value of the key attribute, or the identity of an action that
lacks the key attribute. It lists the actions of the destination whose keys the origin lacks, those
of the origin whose keys the destination lacks, and the pairs with a common key that differ. If one
of the manifests is an `EmptyCachedManifest`, the actions of the other are listed without a
dictionary.

Scope. An action is the address of an object. The dictionaries hand their entries out in the order
in which these were made, and a set of keys in the order of a dictionary. A list has no hash, so
that a dictionary cannot hold it as a key. A `CachedManifest` that has been loaded is a `Manifest`.
-/

set_option autoImplicit false
set_option relaxedAutoImplicit false

namespace Userland.Pkg.Difference

open Actions
open Library (Keyed.index)

/-- The objects of actions at their addresses. Three classes have a slot for a hash, and the
constructors of two of them fill it. -/
structure Objects where
  action : ℕ → Action
  slots : ∀ address, (action address).hash.isSome →
    (action address).name ∈ ["file".toList, "license".toList, "signature".toList]
  filled : ∀ address, (action address).name ∈ ["file".toList, "license".toList] →
    (action address).hash.isSome

/-- The manifests: an `EmptyCachedManifest` has no actions. -/
inductive Manifest
  | manifest (actions : List ℕ)
  | emptyCachedManifest
deriving DecidableEq

/-- `self.actions`. -/
def Manifest.actions : Manifest → List ℕ
  | .manifest actions => actions
  | .emptyCachedManifest => []

/-- The value of the key attribute, or the identity of an action without one. -/
inductive KeyValue
  | value (value : AttrValue)
  | identity (address : ℕ)
deriving DecidableEq

/-- A key of the dictionaries of `Manifest.difference`. -/
abbrev ActionKey := List Char × KeyValue

/-- A key with a list in it has no hash. -/
def ActionKey.hashable : ActionKey → Bool
  | (_, .value (.list _)) => false
  | _ => true

inductive DifferenceError
  | typeError
  | assertionError
deriving DecidableEq

/-- The three lists of a difference. An addition and a removal are given by their one action. -/
structure ManifestDifference where
  added : List ℕ
  changed : List (ℕ × ℕ)
  removed : List ℕ
deriving DecidableEq

/-- `Action.orderdict`, in which a class without a place of its own has that of unknown actions. -/
def ord (name : List Char) : ℕ :=
  let ol := ["set", "depend", "group", "user", "dir", "file", "hardlink", "link",
    "driver", "unknown", "legacy", "signature"]
  if String.ofList name ∈ ol then ol.idxOf (String.ofList name) else ol.idxOf "unknown"

section Difference

variable (objects : Objects)

/-- `(a.name, a.attrs.get(a.key_attr, id(a)))`. -/
def actionKey (a : ℕ) : ActionKey :=
  ((objects.action a).name,
    match (objects.action a).key with
    | some value => .value value
    | none => .identity a)

/-- `Manifest.gen_actions`. -/
def genActions (self : Manifest) (excludes : List (Action → Bool)) : List ℕ :=
  self.actions.filter fun a ↦ excludes.all fun c ↦ c (objects.action a)

/-- The dictionary of some actions. -/
def actionDict (actions : List ℕ) : Except DifferenceError (List (ActionKey × ℕ)) :=
  if actions.all fun a ↦ (actionKey objects a).hashable then .ok
    (Keyed.index (actionKey objects) actions)
  else .error .typeError

/-- `different`, which asserts that the other action has a hash if this one has, where it comes to
comparing them. -/
def checkedDifferent (self other : Action) : Except DifferenceError Bool :=
  if ¬ (self.name = "file".toList ∧ (self.get "elfhash".toList).isSome ∧
      (other.get "elfhash".toList).isSome) ∧ self.sameAttrs Action.sameValue other ∧
      self.hash.isSome ∧ other.hash = none then
    .error .assertionError
  else .ok (self.different other)

/-- The pairs that are different, or licenses. -/
def changedPairs : List (ℕ × ℕ) → Except DifferenceError (List (ℕ × ℕ))
  | [] => .ok []
  | pair :: pairs => do
    let different ← checkedDifferent (objects.action pair.1) (objects.action pair.2)
    let changed ← changedPairs pairs
    return if different || (objects.action pair.1).name = "license".toList then pair :: changed
      else changed

/-- `Action.__cmp__` with `compare`: two directories are ordered by their paths, and other actions
of one place by their addresses. -/
def Precedes (self other : ℕ) : Prop :=
  ord (objects.action self).name < ord (objects.action other).name ∨
    ord (objects.action self).name = ord (objects.action other).name ∧
      if (objects.action self).name = "dir".toList then
        ¬ List.lt (((objects.action other).text "path".toList).getD [])
          (((objects.action self).text "path".toList).getD [])
      else self ≤ other

instance (self other : ℕ) : Decidable (Precedes objects self other) := by
  unfold Precedes
  infer_instance

/-- `Manifest.difference`, with the override of `EmptyCachedManifest`. -/
def difference (self origin : Manifest) (originExclude selfExclude : List (Action → Bool)) :
    Except DifferenceError ManifestDifference :=
  match self, origin with
  | .emptyCachedManifest, _ => .ok ⟨[], [], genActions objects origin originExclude⟩
  | .manifest _, .emptyCachedManifest => .ok ⟨genActions objects self selfExclude, [], []⟩
  | .manifest _, .manifest _ => do
    let sdict ← actionDict objects (genActions objects self selfExclude)
    let odict ← actionDict objects (genActions objects origin originExclude)
    let added := (sdict.filter fun entry ↦ !(odict.map Prod.fst).contains entry.1).map Prod.snd
    let removed := (odict.filter fun entry ↦ !(sdict.map Prod.fst).contains entry.1).map Prod.snd
    let changed ← changedPairs objects (odict.filterMap fun entry ↦
      (sdict.lookup entry.1).map fun dest ↦ (entry.2, dest))
    return ⟨added.insertionSort (Precedes objects),
      changed.insertionSort fun first second ↦ Precedes objects first.2 second.2,
      removed.insertionSort fun first second ↦ Precedes objects second first⟩

end Difference

end Userland.Pkg.Difference
