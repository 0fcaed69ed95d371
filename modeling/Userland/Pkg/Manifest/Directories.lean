import Mathlib.Data.List.Sort
import Userland.Library.Traverse
import Userland.Pkg.Manifest.Dircache

/-!
# What the list of directories keeps of a manifest
-/

set_option autoImplicit false
set_option relaxedAutoImplicit false

namespace Userland.Pkg.Manifest

open Actions Library.QuotedFields Library.Traverse

/-! ### The tags of an action -/

theorem mem_variants {action : Action} {key value : List Char} :
    (key, value) ∈ variants action ↔ IsTag key ∧ action.get key = some (.str value) := by
  have hkey : action.get key = some (.str value) → key ∈ action.attrs.map Prod.fst :=
    fun h ↦ List.mem_map_of_mem (f := Prod.fst) (Library.Dict.mem_of_lookup h)
  unfold variants getVarcetKeys
  rw [List.mem_insertionSort, List.mem_filterMap]
  constructor
  · rintro ⟨name, hname, hmap⟩
    obtain ⟨other, hother, heq⟩ := Option.map_eq_some_iff.mp hmap
    obtain ⟨rfl, rfl⟩ := Prod.mk.inj heq
    refine ⟨?_, Action.text_eq_some_iff.mp hother⟩
    rcases List.mem_append.mp hname with hmem | hmem
    · exact Or.inl (of_decide_eq_true (List.mem_filter.mp hmem).2)
    · exact Or.inr (of_decide_eq_true (List.mem_filter.mp hmem).2)
  · rintro ⟨htag, hget⟩
    refine ⟨key, ?_, by rw [Action.text_eq_some_iff.mpr hget]; rfl⟩
    rw [List.mem_append, List.mem_filter, List.mem_filter]
    exact htag.imp (fun h ↦ ⟨hkey hget, decide_eq_true h⟩) fun h ↦ ⟨hkey hget, decide_eq_true h⟩

theorem nodup_variants (action : Action) : ((variants action).map Prod.fst).Nodup := by
  have hsub : ∀ names : List (List Char), ((names.filterMap fun name ↦
      (action.text name).map fun value ↦ (name, value)).map Prod.fst).Sublist names := by
    intro names
    induction names with
    | nil => exact .slnil
    | cons name names ih =>
      cases hname : action.text name with
      | none => simpa [hname] using ih.cons name
      | some value => simpa [hname] using ih
  have hkeys : ((getVarcetKeys action).1 ++ (getVarcetKeys action).2).Nodup := by
    refine (action.nodup.filter _).append (action.nodup.filter _) ?_
    intro key hvariant hfacet
    obtain ⟨rest, rfl⟩ := of_decide_eq_true (List.mem_filter.mp hvariant).2
    exact absurd (of_decide_eq_true (List.mem_filter.mp hfacet).2) (by simp)
  exact (((List.perm_insertionSort _ _).map Prod.fst).nodup_iff).mpr ((hsub _).nodup hkeys)

/-- Actions with the same tags give the same dictionary. -/
theorem variants_eq {action other : Action}
    (h : ∀ key, IsTag key → action.get key = other.get key) : variants action = variants other := by
  have hnodup : ∀ action, (variants action).Nodup := fun action ↦ (nodup_variants action).of_map _
  have hperm : (variants action).Perm (variants other) := by
    refine (List.perm_ext_iff_of_nodup (hnodup _) (hnodup _)).mpr ?_
    rintro ⟨key, value⟩
    rw [mem_variants, mem_variants]
    exact and_congr_right fun htag ↦ by rw [h key htag]
  have hsorted : ∀ action, (variants action).Pairwise Library.Dict.KeyLE :=
    fun action ↦ List.pairwise_insertionSort Library.Dict.KeyLE _
  refine hperm.eq_of_pairwise ?_ (hsorted _) (hsorted _)
  rintro ⟨key, value⟩ ⟨key', value'⟩ hfirst hsecond hle hge
  obtain rfl : key = key' := hle.antisymm hge
  have hfirst' := (Library.Dict.lookup_eq_some_iff_mem (nodup_variants other)).mpr
    (hperm.mem_iff.mp hfirst)
  have hsecond' := (Library.Dict.lookup_eq_some_iff_mem (nodup_variants other)).mpr hsecond
  rw [hfirst'] at hsecond'
  rw [Option.some.inj hsecond']

/-! ### Which directories are collected -/

/-- An action refers to a directory. -/
def Refers (action : Action) (dir : List Char) : Prop :=
  ∃ references, directoryReferences action = some references ∧
    ∃ reference ∈ references, Ancestor dir reference

/-- The tags are among those collected for a directory. -/
def Tagged (dirs : Dirs) (dir : List Char) (tags : Tags) : Prop :=
  ∃ tagged, dirs.lookup dir = some tagged ∧ tags ∈ tagged

theorem mem_expanddirs {references expanded : List (List Char)}
    (h : expanddirs references = some expanded) (dir : List Char) :
    dir ∈ expanded ↔ ∃ reference ∈ references, Ancestor dir reference := by
  obtain ⟨found, hfound, rfl⟩ := Option.map_eq_some_iff.mp h
  rw [List.mem_dedup, List.mem_flatten]
  constructor
  · rintro ⟨ancestors, hmem, hdir⟩
    obtain ⟨reference, hreference, hcomponents⟩ := (mem_mapM hfound ancestors).mp hmem
    exact ⟨reference, hreference, (mem_components hcomponents dir).mp hdir⟩
  · rintro ⟨reference, hreference, hdir⟩
    obtain ⟨ancestors, hancestors⟩ := exists_mapM_iff.mp ⟨found, hfound⟩ reference hreference
    exact ⟨ancestors, (mem_mapM hfound ancestors).mpr ⟨reference, hreference, hancestors⟩,
      (mem_components hancestors dir).mpr hdir⟩

theorem tagged_addTags (tags : Tags) (dirs : Dirs) (dir other : List Char) (found : Tags) :
    Tagged (addTags tags dirs dir) other found ↔
      Tagged dirs other found ∨ other = dir ∧ found = tags := by
  unfold addTags Tagged
  split
  · rename_i hdir
    by_cases hother : other = dir
    · rw [hother, Library.Dict.lookup_set_self, hdir]
      simp
    · rw [Library.Dict.lookup_set_of_ne _ hother]
      simp [hother]
  · rename_i tagged hdir
    split_ifs with hmem
    · refine ⟨Or.inl, fun h ↦ h.elim id ?_⟩
      rintro ⟨rfl, rfl⟩
      exact ⟨tagged, hdir, hmem⟩
    · by_cases hother : other = dir
      · rw [hother, Library.Dict.lookup_set_self, hdir]
        simp
      · rw [Library.Dict.lookup_set_of_ne _ hother]
        simp [hother]

theorem tagged_foldl_addTags (tags : Tags) (expanded : List (List Char)) (dirs : Dirs)
    (dir : List Char) (found : Tags) : Tagged (expanded.foldl (addTags tags) dirs) dir found ↔
      Tagged dirs dir found ∨ dir ∈ expanded ∧ found = tags := by
  induction expanded generalizing dirs with
  | nil => simp
  | cons first expanded ih =>
    rw [List.foldl_cons, ih, tagged_addTags, List.mem_cons, or_assoc, or_and_right]

/-- The tags of one action are added to the directories that it refers to. -/
theorem tagged_addAction {dirs dirs' : Dirs} {action : Action}
    (h : addAction dirs action = some dirs')
    (dir : List Char) (found : Tags) : Tagged dirs' dir found ↔
      Tagged dirs dir found ∨ Refers action dir ∧ found = variants action := by
  obtain ⟨references, hreferences, h⟩ := Option.bind_eq_some_iff.mp h
  obtain ⟨expanded, hexpanded, h⟩ := Option.bind_eq_some_iff.mp h
  obtain rfl := Option.some.inj h
  rw [tagged_foldl_addTags, mem_expanddirs hexpanded]
  refine or_congr_right (and_congr_left fun _ ↦ ⟨fun h ↦ ⟨references, hreferences, h⟩, ?_⟩)
  rintro ⟨others, hothers, hancestor⟩
  rw [hreferences] at hothers
  rwa [Option.some.inj hothers]

theorem tagged_foldlM_addAction {actions : List Action} {dirs dirs' : Dirs}
    (h : actions.foldlM addAction dirs = some dirs') (dir : List Char) (found : Tags) :
    Tagged dirs' dir found ↔
      Tagged dirs dir found ∨ ∃ action ∈ actions, Refers action dir ∧ found = variants action := by
  induction actions generalizing dirs with
  | nil =>
    obtain rfl := Option.some.inj h
    simp
  | cons action actions ih =>
    rw [List.foldlM_cons] at h
    obtain ⟨next, hnext, h⟩ := Option.bind_eq_some_iff.mp h
    rw [ih h, tagged_addAction hnext, or_assoc]
    simp

theorem nodup_addTags {dirs : Dirs} (h : (dirs.map Prod.fst).Nodup) (tags : Tags)
    (dir : List Char) : ((addTags tags dirs dir).map Prod.fst).Nodup := by
  unfold addTags
  split
  · exact Library.Dict.nodup_set h _ _
  · split_ifs
    · exact h
    · exact Library.Dict.nodup_set h _ _

theorem nodup_foldl_addTags {dirs : Dirs} (h : (dirs.map Prod.fst).Nodup) (tags : Tags)
    (expanded : List (List Char)) : ((expanded.foldl (addTags tags) dirs).map Prod.fst).Nodup := by
  induction expanded generalizing dirs with
  | nil => exact h
  | cons first expanded ih => exact ih (nodup_addTags h _ _)

theorem nodup_foldlM_addAction {actions : List Action} {dirs dirs' : Dirs}
    (h : actions.foldlM addAction dirs = some dirs') (hnodup : (dirs.map Prod.fst).Nodup) :
    (dirs'.map Prod.fst).Nodup := by
  induction actions generalizing dirs with
  | nil =>
    obtain rfl := Option.some.inj h
    exact hnodup
  | cons action actions ih =>
    rw [List.foldlM_cons] at h
    obtain ⟨next, hnext, h⟩ := Option.bind_eq_some_iff.mp h
    refine ih h ?_
    obtain ⟨references, -, hnext⟩ := Option.bind_eq_some_iff.mp hnext
    obtain ⟨expanded, -, hnext⟩ := Option.bind_eq_some_iff.mp hnext
    obtain rfl := Option.some.inj hnext
    exact nodup_foldl_addTags hnodup _ _

/-- The directories with the tags that remain for them, as they are listed. -/
def kept (dirs : Dirs) : List (List Char × Tags) :=
  dirs.flatMap fun entry ↦ entry.2.map fun tags ↦ (entry.1, tags)

/-- What is listed for a manifest: a directory with the tags of an action that refers to it, but
only without tags if an action refers to it without tags. -/
def Kept (self : CachedManifest) (dir : List Char) (tags : Tags) : Prop :=
  (∃ action ∈ self.actions, Refers action dir ∧ variants action = tags) ∧
    (tags ≠ [] → ∀ action ∈ self.actions, Refers action dir → variants action ≠ [])

theorem mem_kept {self : CachedManifest} {dirs : Dirs} (h : actionsToDirs self = some dirs)
    (dir : List Char) (tags : Tags) : (dir, tags) ∈ kept dirs ↔ Kept self dir tags := by
  obtain ⟨collected, hcollected, rfl⟩ := Option.map_eq_some_iff.mp h
  have htagged := tagged_foldlM_addAction hcollected dir
  have hnodup := nodup_foldlM_addAction hcollected List.nodup_nil
  have hall : ∀ found, Tagged collected dir found ↔
      ∃ action ∈ self.actions, Refers action dir ∧ found = variants action := by
    intro found
    rw [htagged]
    refine or_iff_right ?_
    rintro ⟨tagged, hlookup, -⟩
    cases hlookup
  have hkept : (dir, tags) ∈ kept (collected.map fun entry ↦ (entry.1, collapse entry.2)) ↔
      ∃ tagged, collected.lookup dir = some tagged ∧ tags ∈ collapse tagged := by
    simp only [kept, List.mem_flatMap, List.mem_map, Prod.mk.injEq]
    constructor
    · rintro ⟨-, ⟨entry, hentry, rfl⟩, found, hfound, rfl, rfl⟩
      exact ⟨entry.2, (Library.Dict.lookup_eq_some_iff_mem hnodup).mpr hentry, hfound⟩
    · rintro ⟨tagged, hlookup, hmem⟩
      exact ⟨_, ⟨_, (Library.Dict.lookup_eq_some_iff_mem hnodup).mp hlookup, rfl⟩, tags,
        hmem, rfl, rfl⟩
  have hcollapse : (∃ tagged, collected.lookup dir = some tagged ∧ tags ∈ collapse tagged) ↔
      Tagged collected dir tags ∧ (tags ≠ [] → ¬ Tagged collected dir []) := by
    constructor
    · rintro ⟨tagged, hlookup, hmem⟩
      unfold collapse at hmem
      split_ifs at hmem with hnil
      · rw [List.mem_singleton.mp hmem]
        exact ⟨⟨tagged, hlookup, hnil⟩, fun hne ↦ absurd rfl hne⟩
      · refine ⟨⟨tagged, hlookup, hmem⟩, fun _ ⟨other, hother, hmem'⟩ ↦ hnil ?_⟩
        rw [hlookup] at hother
        rwa [Option.some.inj hother]
    · rintro ⟨⟨tagged, hlookup, hmem⟩, hnil⟩
      refine ⟨tagged, hlookup, ?_⟩
      unfold collapse
      split_ifs with hnil'
      · by_contra htags
        exact hnil (fun heq ↦ htags (by rw [heq]; exact List.mem_singleton_self _)) ⟨tagged,
          hlookup, hnil'⟩
      · exact hmem
  rw [hkept, hcollapse, hall, hall, Kept]
  simp only [not_exists, not_and, eq_comm, ne_eq]

/-! ### Manifests whose directories can be listed -/

/-- Every action refers to directories by relative paths. -/
def Relative (self : CachedManifest) : Prop :=
  ∀ action ∈ self.actions, ∃ references, directoryReferences action = some references ∧
    ∀ reference ∈ references, reference.head? ≠ some '/'

theorem exists_expanddirs_iff {references : List (List Char)} :
    (∃ expanded, expanddirs references = some expanded) ↔
      ∀ reference ∈ references, reference.head? ≠ some '/' := by
  have hcomponents : ∀ path : List Char,
      (∃ found, components path.length path = some found) ↔ path.head? ≠ some '/' := by
    intro path
    refine ⟨fun ⟨found, hfound⟩ habsolute ↦ ?_, fun h ↦ components_relative h le_rfl⟩
    rw [components_absolute _ habsolute] at hfound
    cases hfound
  simp only [← hcomponents, ← exists_mapM_iff, expanddirs, Option.map_eq_some_iff]
  exact ⟨fun ⟨_, found, hfound, _⟩ ↦ ⟨found, hfound⟩, fun ⟨found, hfound⟩ ↦ ⟨_, found, hfound, rfl⟩⟩

theorem exists_actionsToDirs_iff (self : CachedManifest) :
    (∃ dirs, actionsToDirs self = some dirs) ↔ Relative self := by
  have hadd : ∀ dirs action, (∃ dirs', addAction dirs action = some dirs') ↔
      ∃ references, directoryReferences action = some references ∧
        ∀ reference ∈ references, reference.head? ≠ some '/' := by
    intro dirs action
    constructor
    · rintro ⟨dirs', h⟩
      obtain ⟨references, hreferences, h⟩ := Option.bind_eq_some_iff.mp h
      obtain ⟨expanded, hexpanded, -⟩ := Option.bind_eq_some_iff.mp h
      exact ⟨references, hreferences, exists_expanddirs_iff.mp ⟨expanded, hexpanded⟩⟩
    · rintro ⟨references, hreferences, hrelative⟩
      obtain ⟨expanded, hexpanded⟩ := exists_expanddirs_iff.mpr hrelative
      exact ⟨expanded.foldl (addTags (variants action)) dirs, by
        rw [addAction, hreferences, Option.bind_eq_bind, Option.bind_some, hexpanded]; rfl⟩
  have hrun : ∀ (actions : List Action) (dirs : Dirs),
      (∃ dirs', actions.foldlM addAction dirs = some dirs') ↔
        ∀ action ∈ actions, ∃ references, directoryReferences action = some references ∧
          ∀ reference ∈ references, reference.head? ≠ some '/' := by
    intro actions
    induction actions with
    | nil => exact fun dirs ↦ iff_of_true ⟨dirs, rfl⟩ (by simp)
    | cons action actions ih =>
      intro dirs
      rw [List.forall_mem_cons, ← hadd dirs, List.foldlM_cons]
      constructor
      · rintro ⟨dirs', h⟩
        obtain ⟨next, hnext, h⟩ := Option.bind_eq_some_iff.mp h
        exact ⟨⟨next, hnext⟩, (ih next).mp ⟨dirs', h⟩⟩
      · rintro ⟨⟨next, hnext⟩, hrest⟩
        obtain ⟨dirs', h⟩ := (ih next).mpr hrest
        exact ⟨dirs', by rw [hnext]; exact h⟩
  rw [Relative, ← hrun self.actions []]
  simp only [actionsToDirs, Option.map_eq_some_iff]
  exact ⟨fun ⟨_, found, hfound, _⟩ ↦ ⟨found, hfound⟩, fun ⟨found, hfound⟩ ↦ ⟨_, found, hfound, rfl⟩⟩

end Userland.Pkg.Manifest
