import Userland.Pkg.Actions.Action

/-!
# Types of actions and their comparison

The key attribute of each type of action, as the classes of `pkg/actions` declare it, and
`different`, by which an action is compared with the one that takes its place.
-/

set_option autoImplicit false
set_option relaxedAutoImplicit false

namespace Userland.Pkg.Actions

/-- `key_attr` of the class of an action type. -/
def keyAttr (name : List Char) : Option (List Char) :=
  [("set", "name"), ("depend", "fmri"), ("dir", "path"), ("driver", "name"), ("file", "path"),
    ("group", "groupname"), ("hardlink", "path"), ("legacy", "pkg"), ("license", "license"),
    ("link", "path"), ("user", "username")].lookup (String.ofList name) |>.map String.toList

namespace Action

/-- `attrs.get(key_attr, None)`. -/
def key (action : Action) : Option AttrValue :=
  (keyAttr action.name).bind action.get

/-- The value of an attribute with one value. -/
def text (action : Action) (name : List Char) : Option (List Char) :=
  match action.get name with
  | some (.str value) => some value
  | _ => none

theorem text_eq_some_iff {action : Action} {name value : List Char} :
    action.text name = some value ↔ action.get name = some (.str value) := by
  unfold text
  split
  · rename_i other hother
    rw [hother, Option.some_inj, Option.some_inj, AttrValue.str.injEq]
  · rename_i hother
    exact iff_of_false (by simp) fun h ↦ hother value h

/-- `self.attrs[name] = value`. -/
def setAttr (action : Action) (name : List Char) (value : AttrValue) : Action where
  name := action.name
  hash := action.hash
  attrs := Library.Dict.set action.attrs name value
  nodup := Library.Dict.nodup_set action.nodup name value

/-- Values compare as equal if they are, and lists also if they hold the same values in another
order. -/
def sameValue : AttrValue → AttrValue → Bool
  | .list values, .list others => values.isPerm others
  | value, other => value == other

/-- Two actions have attributes of the same names whose values compare as equal. -/
def sameAttrs (same : AttrValue → AttrValue → Bool) (self other : Action) : Bool :=
  (self.attrs.map Prod.fst).all (other.attrs.map Prod.fst).contains &&
    other.attrs.all fun attr ↦
      match self.get attr.1 with
      | some value => same value attr.2
      | none => false

/-- `self.different(other)`, for two actions of one type. Files with the hash of their ELF contents
are compared without the hash of the file. -/
def different (self other : Action) : Bool :=
  if self.name = "file".toList ∧ (self.get "elfhash".toList).isSome ∧
      (other.get "elfhash".toList).isSome then
    !sameAttrs (· == ·) self other
  else !(sameAttrs sameValue self other && (self.hash = none || self.hash = other.hash))

end Action

end Userland.Pkg.Actions
