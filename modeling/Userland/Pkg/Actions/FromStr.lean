import Mathlib.Data.List.Dedup
import Userland.Library.FieldReader
import Userland.Pkg.Actions.Action
import Userland.Pkg.Text

/-!
# Actions from their text

`actions.fromstr` builds an action from the type, the hash and the attributes that the compiled
`_actions._fromstr` finds in a text. That reader is a parameter here: `SplitsFields` says that it
takes a row of bare fields for these fields, and that whatever it finds in a text is a reading of
its fields. A key that occurs more than once gets the list of its values.

Only the constructor of `DirectoryAction` is modelled, which takes the slashes off the front of the
path and refuses an empty path.
-/

set_option autoImplicit false
set_option relaxedAutoImplicit false

namespace Userland.Pkg.Actions

open Library.QuotedFields

/-- The value of a key after the fields of a text have been added to the attributes one by one. -/
def gather (fields : List (List Char × List Char)) (key : List Char) : Option AttrValue :=
  match (fields.filter fun field ↦ field.1 = key).map Prod.snd with
  | [] => none
  | [value] => some (.str value)
  | values => some (.list values)

/-- What is known of `_fromstr`, which yields a type, a hash and attributes, or raises. An attribute
called `data` is refused. -/
structure SplitsFields (_fromstr : List Char → Option Action) : Prop where
  splits : ∀ (name : List Char) (fields : List (List Char × List Char)), name ≠ [] → ' ' ∉ name →
    fields ≠ [] → (∀ field ∈ fields, Key marks field.1 ∧ Bare marks field.2) →
    (∀ field ∈ fields, field.1 ≠ "data".toList) →
    ∃ found, _fromstr (name ++ row marks fields) = some found ∧ found.name = name ∧
      found.hash = none ∧ ∀ key, found.get key = gather fields key
  honours : ∀ (text : List Char) (found : Action), _fromstr text = some found →
    ∃ hash fields rest, text = found.name ++ hash ++ rest ∧ Reads marks rest fields ∧
      ∀ key, found.get key = gather fields key

/-- `DirectoryAction.__init__` with the attributes found in a text. -/
def directoryAction (found : Action) : Option Action :=
  match found.get "path".toList with
  | some (.str path) =>
    if path.dropWhile (· = '/') = [] then none
    else some ⟨found.name, found.hash,
      Library.Dict.set found.attrs "path".toList (.str (path.dropWhile (· = '/'))),
      Library.Dict.nodup_set found.nodup _ _⟩
  | _ => none

/-- `actions.fromstr(string)` for a text of type `dir`. -/
def fromstr (_fromstr : List Char → Option Action) (string : List Char) : Option Action :=
  (_fromstr string).bind fun found ↦
    if found.name = "dir".toList then directoryAction found else none

theorem get_directoryAction {found action : Action} (h : directoryAction found = some action) :
    (∃ path, found.get "path".toList = some (.str path) ∧ path.dropWhile (· = '/') ≠ [] ∧
      action.get "path".toList = some (.str (path.dropWhile (· = '/')))) ∧
      ∀ key, key ≠ "path".toList → action.get key = found.get key := by
  unfold directoryAction at h
  split at h
  · rename_i path hpath
    split_ifs at h with hempty
    obtain rfl := Option.some.inj h
    exact ⟨⟨path, hpath, hempty, Library.Dict.lookup_set_self _ _ _⟩,
      fun key hkey ↦ Library.Dict.lookup_set_of_ne _ hkey _⟩
  · cases h

theorem gather_of_nodup {fields : List (List Char × List Char)}
    (h : (fields.map Prod.fst).Nodup) (key : List Char) :
    gather fields key = (fields.lookup key).map AttrValue.str := by
  induction fields with
  | nil => rfl
  | cons field fields ih =>
    rw [List.map_cons, List.nodup_cons] at h
    unfold gather at ih ⊢
    rw [List.lookup_cons]
    by_cases hkey : field.1 = key
    · have hnone : fields.filter (fun other ↦ other.1 = key) = [] := by
        rw [List.filter_eq_nil_iff]
        intro other hother heq
        refine h.1 ?_
        rw [hkey, ← of_decide_eq_true heq]
        exact List.mem_map_of_mem hother
      rw [List.filter_cons_of_pos (p := fun other : List Char × List Char ↦
        other.1 = key) (decide_eq_true hkey), hnone, hkey, beq_self_eq_true]
      rfl
    · rw [List.filter_cons_of_neg (p := fun other : List Char × List Char ↦
        other.1 = key) (by simpa using hkey), ih h.2, beq_eq_false_iff_ne.mpr (Ne.symm hkey)]

/-- A value that was found by itself is among the fields. -/
theorem mem_of_gather {fields : List (List Char × List Char)} {key value : List Char}
    (h : gather fields key = some (.str value)) : (key, value) ∈ fields := by
  unfold gather at h
  split at h
  · cases h
  · rename_i found hfound
    obtain rfl := AttrValue.str.inj (Option.some.inj h)
    have hmem : found ∈ (fields.filter fun field ↦ field.1 = key).map Prod.snd := by
      rw [hfound]
      exact List.mem_singleton_self _
    obtain ⟨field, hfield, rfl⟩ := List.mem_map.mp hmem
    obtain ⟨hmem, hkey⟩ := List.mem_filter.mp hfield
    rwa [← of_decide_eq_true hkey]
  · cases h

/-! ### A reader -/

/-- The attributes of the fields of a text. -/
def gatherAttrs (fields : List (List Char × List Char)) : List (List Char × AttrValue) :=
  (fields.map Prod.fst).dedup.filterMap fun key ↦ (gather fields key).map fun value ↦ (key, value)

theorem nodup_gatherAttrs (fields : List (List Char × List Char)) :
    ((gatherAttrs fields).map Prod.fst).Nodup := by
  have hsub : ((gatherAttrs fields).map Prod.fst).Sublist (fields.map Prod.fst).dedup := by
    unfold gatherAttrs
    rw [List.map_filterMap]
    have : ∀ keys : List (List Char), (keys.filterMap fun key ↦
        ((gather fields key).map fun value ↦ (key, value)).map Prod.fst).Sublist keys := by
      intro keys
      induction keys with
      | nil => exact .slnil
      | cons key keys ih =>
        cases hkey : gather fields key with
        | none => simpa [hkey] using ih.cons key
        | some value => simpa [hkey] using ih
    exact this _
  exact hsub.nodup (List.nodup_dedup _)

theorem lookup_gatherAttrs (fields : List (List Char × List Char)) (key : List Char) :
    (gatherAttrs fields).lookup key = gather fields key := by
  ext value
  rw [Library.Dict.lookup_eq_some_iff_mem (nodup_gatherAttrs fields)]
  constructor
  · intro hmem
    obtain ⟨other, -, hother⟩ := List.mem_filterMap.mp hmem
    obtain ⟨found, hfound, heq⟩ := Option.map_eq_some_iff.mp hother
    obtain ⟨rfl, rfl⟩ := Prod.mk.inj heq
    exact hfound
  · intro hvalue
    refine List.mem_filterMap.mpr ⟨key, ?_, by rw [hvalue]; rfl⟩
    by_contra hkey
    have hnone : fields.filter (fun field ↦ field.1 = key) = [] := by
      rw [List.filter_eq_nil_iff]
      intro field hfield heq
      refine hkey (List.mem_dedup.mpr ?_)
      rw [← of_decide_eq_true heq]
      exact List.mem_map_of_mem hfield
    rw [gather, hnone] at hvalue
    cases hvalue

/-- The action of a type and the fields behind it. -/
def actionOfFields (name : List Char) (fields : List (List Char × List Char)) : Action :=
  ⟨name, none, gatherAttrs fields, nodup_gatherAttrs fields⟩

/-- A reader of texts without a hash. -/
def scan (text : List Char) : Option Action :=
  (scanRow marks text.length (text.dropWhile (· ≠ ' '))).bind fun fields ↦
    if "data".toList ∈ fields.map Prod.fst then none
    else some (actionOfFields (text.takeWhile (· ≠ ' ')) fields)

theorem splitsFields_scan : SplitsFields scan where
  splits := by
    intro name fields _ hname _ hfields hdata
    have hall : ∀ c ∈ name, decide (c ≠ ' ') = true :=
      fun c hc ↦ decide_eq_true fun heq ↦ hname (heq ▸ hc)
    have htake : (name ++ row marks fields).takeWhile (· ≠ ' ') = name ∧
        (name ++ row marks fields).dropWhile (· ≠ ' ') = row marks fields := by
      rw [List.takeWhile_append_of_pos hall, List.dropWhile_append_of_pos hall]
      rcases row_head (m := marks) fields with hnil | hhead
      · rw [hnil]
        simp
      · obtain ⟨rest, hrest⟩ := List.head?_eq_some_iff.mp hhead
        rw [hrest]
        simp [marks]
    refine ⟨actionOfFields name fields, ?_, rfl, rfl, lookup_gatherAttrs fields⟩
    have hdata' : ¬ "data".toList ∈ fields.map Prod.fst := by
      intro hmem
      obtain ⟨field, hfield, heq⟩ := List.mem_map.mp hmem
      exact hdata field hfield heq
    rw [scan, htake.1, htake.2, scanRow_row hfields (by simp), Option.bind_some, if_neg hdata']
  honours := by
    intro text found h
    obtain ⟨fields, hfields, h⟩ := Option.bind_eq_some_iff.mp h
    split_ifs at h
    obtain rfl := Option.some.inj h
    refine ⟨[], fields, _, ?_, reads_of_scanRow hfields, lookup_gatherAttrs fields⟩
    rw [List.append_nil]
    exact (List.takeWhile_append_dropWhile).symm

end Userland.Pkg.Actions
