import Mathlib.Data.List.Dedup
import Userland.Pkg.Actions.FromStr
import Userland.Pkg.Actions.Kinds
import Userland.Pkg.Path
import Userland.Pkg.Text

/-!
# The list of directories of a manifest

`CachedManifest` of `pkg/manifest.py` writes a line `dir path=… key=value …` for each directory that
the actions of the manifest refer to and each set of variant and facet tags they do it with. A
directory to which an action without tags refers gets one line without tags. `get_directories` reads
the lines back as actions and keeps the paths of those that the excludes let pass.

The loop of `expanddirs` yields the ancestors of a path (`mem_components`); it ends for a relative
path (`components_relative`) and never for an absolute one (`components_absolute`).

Scope. A dictionary of tags is the list of its entries in the order of their keys, and `iteritems`
is the order in which a dictionary hands its entries out. A call of `directory_references` that
raises, and a loop of `expanddirs` that does not end, yield `none`.
-/

set_option autoImplicit false
set_option relaxedAutoImplicit false

namespace Userland.Pkg.Manifest

open Actions Text

/-- The keys of variant and facet tags. -/
def IsTag (key : List Char) : Prop :=
  "variant.".toList <+: key ∨ "facet.".toList <+: key

instance (key : List Char) : Decidable (IsTag key) :=
  inferInstanceAs (Decidable (_ ∨ _))

/-- The tags of an action, each with its value. -/
abbrev Tags := List (List Char × List Char)

/-- `Action.get_varcet_keys`. -/
def getVarcetKeys (action : Action) : List (List Char) × List (List Char) :=
  ((action.attrs.map Prod.fst).filter fun key ↦ "variant.".toList <+: key,
    (action.attrs.map Prod.fst).filter fun key ↦ "facet.".toList <+: key)

/-- The dictionary of the tags of an action that `__actions_to_dirs` makes. -/
def variants (action : Action) : Tags :=
  (((getVarcetKeys action).1 ++ (getVarcetKeys action).2).filterMap fun name ↦
    (action.text name).map fun value ↦ (name, value)).insertionSort Library.Dict.KeyLE

/-- The actions of a loaded manifest. `__add_action` puts the values of tags in sets, so that none
of them is a list. The names of attributes were read from a text, and no text of a manifest goes on
behind the end of a line. -/
structure CachedManifest where
  actions : List Action
  tags : ∀ action ∈ actions, ∀ attr ∈ action.attrs, IsTag attr.1 → ∃ value, attr.2 = .str value
  keys : ∀ action ∈ actions, ∀ attr ∈ action.attrs, Library.QuotedFields.Key marks attr.1
  lines : ∀ action ∈ actions, ∀ attr ∈ action.attrs,
    '\n' ∉ attr.1 ∧ ∀ value ∈ attr.2.toList, '\n' ∉ value

/-- `os.path.join("var/sadm/pkg", pkg)`. -/
def legacyDir (pkg : List Char) : List Char :=
  if pkg.head? = some '/' then pkg else "var/sadm/pkg/".toList ++ pkg

/-- `directory_references` of the class of an action. -/
def directoryReferences (action : Action) : Option (List (List Char)) :=
  if action.name = "dir".toList then
    (action.text "path".toList).map fun path ↦ [Path.normpath path]
  else if action.name = "legacy".toList then
    (action.text "pkg".toList).map fun pkg ↦ [Path.normpath (legacyDir pkg)]
  else
    match action.get "path".toList with
    | none => some []
    | some (.str path) => some [Path.dirname (Path.normpath path)]
    | some (.list _) => none

/-- The loop of `expanddirs` over the components of a path. It takes no more turns than the path has
characters, or it never ends. -/
def components : (fuel : ℕ) → List Char → Option (List (List Char))
  | _, [] => some []
  | 0, _ :: _ => none
  | fuel + 1, c :: path => (components fuel (Path.dirname (c :: path))).map ((c :: path) :: ·)

/-- `expanddirs(dirs)`. -/
def expanddirs (dirs : List (List Char)) : Option (List (List Char)) :=
  (dirs.mapM fun dir ↦ components dir.length dir).map fun found ↦ found.flatten.dedup

/-- The directories with the tags they are referred to with. -/
abbrev Dirs := List (List Char × List Tags)

/-- The tags of one reference are added to its directory, unless they are there. -/
def addTags (tags : Tags) (dirs : Dirs) (dir : List Char) : Dirs :=
  match dirs.lookup dir with
  | none => Library.Dict.set dirs dir [tags]
  | some tagged =>
    if tags ∈ tagged then dirs
    else Library.Dict.set dirs dir (tagged ++ [tags])

/-- One turn of the loop of `__actions_to_dirs`. -/
def addAction (dirs : Dirs) (action : Action) : Option Dirs := do
  let references ← directoryReferences action
  let expanded ← expanddirs references
  return expanded.foldl (addTags (variants action)) dirs

/-- No tags remain for a directory with a reference that is always installed. -/
def collapse (tagged : List Tags) : List Tags :=
  if [] ∈ tagged then [[]] else tagged

/-- `CachedManifest.__actions_to_dirs`. -/
def actionsToDirs (self : CachedManifest) : Option Dirs :=
  (self.actions.foldlM addAction []).map fun dirs ↦
    dirs.map fun entry ↦ (entry.1, collapse entry.2)

section Lines

variable (iteritems : Tags → Tags)

/-- One line of the list. -/
def line (dir : List Char) (tags : Tags) : List Char :=
  "dir path=".toList ++ dir ++ ' ' ::
    [' '].intercalate ((iteritems tags).map fun tag ↦ tag.1 ++ '=' :: tag.2) ++ ['\n']

/-- `CachedManifest.__gen_dirs_to_str`. -/
def genDirsToStr (dirs : Dirs) : List (List Char) :=
  dirs.flatMap fun entry ↦ entry.2.map (line iteritems entry.1)

end Lines

/-- `Action.include_this`. -/
def includeThis (excludes : List (Action → Bool)) (action : Action) : Bool :=
  excludes.all fun c ↦ c action

/-- `CachedManifest.get_directories`, which reads the lines from the file if it has been `stored`.
-/
def getDirectories (_fromstr : List Char → Option Action) (iteritems : Tags → Tags)
    (self : CachedManifest) (stored : Bool) (excludes : List (Action → Bool)) :
    Option (List (List Char)) := do
  let dirs ← actionsToDirs self
  let lines := if stored then readlines (genDirsToStr iteritems dirs).flatten
    else genDirsToStr iteritems dirs
  let alist ← lines.mapM fun s ↦ fromstr _fromstr (strip s)
  return ((alist.filter (includeThis excludes)).filterMap fun a ↦ a.text "path".toList).dedup

/-! ### Directories and their ancestors -/

/-- A directory is a reference or one of its ancestors. -/
def Ancestor (dir reference : List Char) : Prop :=
  dir ≠ [] ∧ ∃ n, Path.dirname^[n] reference = dir

theorem dirname_nil : Path.dirname [] = [] := rfl

theorem not_ancestor_nil (dir : List Char) : ¬ Ancestor dir [] := by
  rintro ⟨hne, n, rfl⟩
  rw [Function.iterate_fixed dirname_nil] at hne
  exact hne rfl

variable {path : List Char}

theorem mem_components {fuel : ℕ} {found : List (List Char)}
    (h : components fuel path = some found) (dir : List Char) :
    dir ∈ found ↔ Ancestor dir path := by
  induction fuel generalizing path found with
  | zero =>
    cases path with
    | nil =>
      obtain rfl := Option.some.inj h
      exact iff_of_false (List.not_mem_nil) (not_ancestor_nil dir)
    | cons c path => cases h
  | succ fuel ih =>
    cases path with
    | nil =>
      obtain rfl := Option.some.inj h
      exact iff_of_false (List.not_mem_nil) (not_ancestor_nil dir)
    | cons c path =>
      obtain ⟨rest, hrest, rfl⟩ := Option.map_eq_some_iff.mp h
      rw [List.mem_cons, ih hrest]
      constructor
      · rintro (rfl | ⟨hne, n, hn⟩)
        · exact ⟨List.cons_ne_nil _ _, 0, rfl⟩
        · exact ⟨hne, n + 1, hn⟩
      · rintro ⟨hne, n, hn⟩
        cases n with
        | zero => exact Or.inl hn.symm
        | succ n => exact Or.inr ⟨hne, n, hn⟩

theorem isPrefix_dirname (path : List Char) : Path.dirname path <+: path := by
  have hhead := List.rdropWhile_prefix (· ≠ '/') path
  unfold Path.dirname
  dsimp only
  split_ifs
  · exact hhead
  · exact (List.rdropWhile_prefix _ _).trans hhead

theorem head?_of_isPrefix_cons {first path : List Char} (h : first <+: path) (hne : first ≠ []) :
    first.head? = path.head? := by
  obtain ⟨rest, rfl⟩ := h
  rw [List.head?_append_of_ne_nil _ hne]

/-- A relative path has a shorter parent. -/
theorem length_dirname_lt (hne : path ≠ []) (h : path.head? ≠ some '/') :
    (Path.dirname path).length < path.length := by
  refine lt_of_le_of_ne (isPrefix_dirname path).length_le fun hlength ↦ ?_
  have hself := (isPrefix_dirname path).eq_of_length hlength
  have hhead := List.rdropWhile_prefix (· ≠ '/') path
  unfold Path.dirname at hself
  dsimp only at hself
  split_ifs at hself with hall
  · obtain ⟨c, rest, rfl⟩ := List.exists_cons_of_ne_nil hne
    rw [hself] at hall
    exact h (congrArg some (of_decide_eq_true (List.all_eq_true.mp hall c List.mem_cons_self)))
  · have hle := ((List.rdropWhile_prefix (· = '/') (path.rdropWhile (· ≠ '/'))).length_le)
    rw [hself] at hle
    have hwhole := hhead.eq_of_length (le_antisymm hhead.length_le hle)
    rw [hwhole] at hself
    have hlast := List.rdropWhile_eq_self_iff.mp hself hne
    have hlast' := List.rdropWhile_eq_self_iff.mp hwhole hne
    simp only [decide_eq_true_eq, ne_eq, not_not] at hlast hlast'
    exact hlast hlast'

/-- The parent of an absolute path is absolute. -/
theorem dirname_absolute (h : path.head? = some '/') : (Path.dirname path).head? = some '/' := by
  have hmem : '/' ∈ path := List.mem_of_head? h
  have hne : path.rdropWhile (· ≠ '/') ≠ [] := by
    intro hnil
    simpa using List.rdropWhile_eq_nil_iff.mp hnil '/' hmem
  rw [head?_of_isPrefix_cons (isPrefix_dirname path) ?_, h]
  unfold Path.dirname
  dsimp only
  split_ifs with hall
  · exact hne
  · intro hnil
    exact hall (List.all_eq_true.mpr (List.rdropWhile_eq_nil_iff.mp hnil))

theorem components_relative {fuel : ℕ} (h : path.head? ≠ some '/')
    (hfuel : path.length ≤ fuel) : ∃ found, components fuel path = some found := by
  induction fuel generalizing path with
  | zero =>
    rw [List.length_eq_zero_iff.mp (Nat.le_zero.mp hfuel)]
    exact ⟨[], rfl⟩
  | succ fuel ih =>
    cases path with
    | nil => exact ⟨[], rfl⟩
    | cons c path =>
      have hlength := length_dirname_lt (List.cons_ne_nil c path) h
      have hrelative : (Path.dirname (c :: path)).head? ≠ some '/' := by
        by_cases hnil : Path.dirname (c :: path) = []
        · simp [hnil]
        · rwa [head?_of_isPrefix_cons (isPrefix_dirname _) hnil]
      obtain ⟨found, hfound⟩ := ih hrelative (by omega)
      exact ⟨(c :: path) :: found, by rw [components, hfound]; rfl⟩

/-- The loop over an absolute path does not end. -/
theorem components_absolute (fuel : ℕ) (h : path.head? = some '/') :
    components fuel path = none := by
  induction fuel generalizing path with
  | zero =>
    cases path with
    | nil => cases h
    | cons c path => rfl
  | succ fuel ih =>
    cases path with
    | nil => cases h
    | cons c path => rw [components, ih (dirname_absolute h)]; rfl

end Userland.Pkg.Manifest
