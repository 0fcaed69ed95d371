import Mathlib.Data.Char
import Userland.Pkg.Publish.Delivered

/-!
# Entries that share a set

A set object that the first file action of an entry makes is stored in all entries of the action
that have no set yet, and a later file action of one of these entries adds its values to all of
them. The maps are right after each file action (`Exact`) exactly if no file action brings a value
to a set that an entry of another path or the package holds without having the value (`Fits`):
`maps_exact_iff`.
-/

set_option autoImplicit false
set_option relaxedAutoImplicit false

namespace Userland.Pkg.Publish

open Library Library.SharedSets Variant

variable {Name Value : Type} [LinearOrder Name] [LinearOrder Value]

/-! ### Views of the maps -/

/-- The reference that an entry has under a name. -/
def State.view (state : State Name Value) (entry : Entry) (name : Name) : Option (SetRef Name) :=
  (state.entry entry).bind fun dict ↦ dict.lookup name

/-- The values that an entry has under a name. -/
def State.contents (state : State Name Value) (entry : Entry) (name : Name) : Finset Value :=
  match state.view entry name with
  | some reference => state.heap reference
  | none => ∅

theorem State.entry_merge (state : State Name Value) (entry other : Entry)
    (pvars : RefDict Name (SetRef Name)) : (state.merge entry pvars).entry other =
      if other = entry then
        some (SharedSets.merge state.heap ((state.entry entry).getD RefDict.empty) pvars).2
      else state.entry other := by
  split_ifs with h
  · rw [h]
    cases entry <;> exact Dict.lookup_set_self _ _ _
  · cases entry <;> cases other <;> try rfl
    · exact Dict.lookup_set_of_ne _ (fun heq ↦ h (congrArg Entry.delivered heq)) _
    · exact Dict.lookup_set_of_ne _ (fun heq ↦ h (congrArg Entry.deliveredBn heq)) _

theorem State.heap_merge (state : State Name Value) (entry : Entry)
    (pvars : RefDict Name (SetRef Name)) : (state.merge entry pvars).heap =
      (SharedSets.merge state.heap ((state.entry entry).getD RefDict.empty) pvars).1 := by
  cases entry <;> rfl

omit [LinearOrder Value] in
theorem State.lookup_entry_getD (state : State Name Value) (entry : Entry) (name : Name) :
    ((state.entry entry).getD RefDict.empty).lookup name = state.view entry name := by
  unfold State.view
  cases state.entry entry <;> rfl

theorem State.view_merge (state : State Name Value) (entry other : Entry)
    (pvars : RefDict Name (SetRef Name)) (name : Name) : (state.merge entry pvars).view other name =
      if other = entry then (state.view other name).or (pvars.lookup name)
      else state.view other name := by
  rw [State.view, State.entry_merge]
  split_ifs with h
  · rw [Option.bind_some, lookup_merge, State.lookup_entry_getD, h]
  · rfl

/-! ### A merge into several entries -/

section Entries

variable (pvars : RefDict Name (SetRef Name))

/-- The entries of one file action in a row. -/
def State.mergeAll (state : State Name Value) (entries : List Entry) : State Name Value :=
  entries.foldl (fun state entry ↦ state.merge entry pvars) state

variable {pvars} {entries : List Entry}

theorem State.view_mergeAll (state : State Name Value) (other : Entry) (name : Name) :
    (state.mergeAll pvars entries).view other name =
      if other ∈ entries then (state.view other name).or (pvars.lookup name)
      else state.view other name := by
  induction entries generalizing state with
  | nil => rfl
  | cons entry entries ih =>
    rw [State.mergeAll, List.foldl_cons, ← State.mergeAll, ih, State.view_merge]
    by_cases hother : other = entry
    · rw [if_pos hother, Option.or_assoc, Option.or_self, ite_self,
        if_pos (List.mem_cons.mpr (Or.inl hother))]
    · rw [if_neg hother]
      simp only [List.mem_cons, hother, false_or]

theorem State.isSome_entry_mergeAll (state : State Name Value) (other : Entry) :
    ((state.mergeAll pvars entries).entry other).isSome = true ↔
      other ∈ entries ∨ (state.entry other).isSome = true := by
  induction entries generalizing state with
  | nil => simp [State.mergeAll]
  | cons entry entries ih =>
    rw [State.mergeAll, List.foldl_cons, ← State.mergeAll, ih, State.entry_merge, List.mem_cons]
    by_cases hother : other = entry
    · simp [hother]
    · simp [hother]

theorem State.subset_mergeAll (state : State Name Value) (reference : SetRef Name) :
    state.heap reference ⊆ (state.mergeAll pvars entries).heap reference := by
  induction entries generalizing state with
  | nil => exact Finset.Subset.refl _
  | cons entry entries ih =>
    refine Finset.Subset.trans ?_ (ih _)
    rw [State.heap_merge]
    exact subset_merge _ _ _ _

/-- The values of a file action arrive behind each reference that one of its entries has. -/
theorem State.mem_of_mergeAll_flow {state : State Name Value} {entry : Entry}
    (hentry : entry ∈ entries)
    {name : Name} {target source : SetRef Name} (hview : state.view entry name = some target)
    (hsource : pvars.lookup name = some source) :
    state.heap source ⊆ (state.mergeAll pvars entries).heap target := by
  induction entries generalizing state with
  | nil => exact absurd hentry List.not_mem_nil
  | cons first entries ih =>
    rw [State.mergeAll, List.foldl_cons, ← State.mergeAll]
    by_cases hfirst : entry = first
    · refine Finset.Subset.trans ?_ (State.subset_mergeAll _ target)
      rw [State.heap_merge, ← hfirst]
      exact mem_of_merge_flow ((state.lookup_entry_getD entry name).trans hview) hsource
    · have hsub : state.heap source ⊆ (state.merge first pvars).heap source := by
        rw [State.heap_merge]
        exact subset_merge _ _ _ _
      refine hsub.trans (ih ((List.mem_cons.mp hentry).resolve_left hfirst) ?_)
      rw [State.view_merge, if_neg hfirst, hview]

/-- A bound of the sets that the values of a file action respect stays a bound. -/
theorem State.mergeAll_le {state : State Name Value} {bound : SetRef Name → Set Value}
    (hheap : ∀ reference, ↑(state.heap reference) ⊆ bound reference)
    (hflow : ∀ entry ∈ entries, ∀ name target source, state.view entry name = some target →
      pvars.lookup name = some source → bound source ⊆ bound target) (reference : SetRef Name) :
    ↑((state.mergeAll pvars entries).heap reference) ⊆ bound reference := by
  induction entries generalizing state with
  | nil => exact hheap reference
  | cons first entries ih =>
    rw [List.forall_mem_cons] at hflow
    rw [State.mergeAll, List.foldl_cons, ← State.mergeAll]
    refine ih (fun other ↦ ?_) ?_
    · rw [State.heap_merge]
      refine merge_le hheap (fun name target source htarget hsource ↦ ?_) other
      rw [State.lookup_entry_getD] at htarget
      exact hflow.1 name target source htarget hsource
    · intro entry hentry name target source htarget hsource
      rw [State.view_merge] at htarget
      split_ifs at htarget with hfirst
      · rcases Option.or_eq_some_iff.mp htarget with h | ⟨-, h⟩
        · exact hflow.2 entry hentry name target source h hsource
        · rw [hsource] at h
          rw [Option.some.inj h]
      · exact hflow.2 entry hentry name target source htarget hsource

end Entries

/-! ### What the maps should hold -/

variable (realpath : List Char → List Char) (pkgVars : RefDict Name ℕ)
  (heap : Heap (SetRef Name) Value)

/-- The values of a variant under which a file action delivers its file. -/
def original (a : FileAction Name Value) (name : Name) : Finset Value :=
  match a.tags.get name with
  | some row => row
  | none =>
    match pkgVars.lookup name with
    | some address => heap (.package address)
    | none => ∅

/-- The maps hold, under each path and basename, the variants of the file actions that deliver it,
and the sets of the package are as they were. -/
structure Exact (files : List (FileAction Name Value)) : Prop where
  present : ∀ entry, ((deliveredMaps realpath pkgVars heap files).entry entry).isSome = true ↔
    ∃ a ∈ files, entry ∈ a.entries realpath
  names : ∀ entry name, ((deliveredMaps realpath pkgVars heap files).view entry name).isSome =
    true ↔
    ∃ a ∈ files, entry ∈ a.entries realpath ∧
      ((a.tags.get name).isSome = true ∨ (pkgVars.lookup name).isSome = true)
  values : ∀ entry name value,
    value ∈ (deliveredMaps realpath pkgVars heap files).contents entry name ↔
    ∃ a ∈ files, entry ∈ a.entries realpath ∧ value ∈ original pkgVars heap a name
  package : ∀ name address, pkgVars.lookup name = some address →
    (deliveredMaps realpath pkgVars heap files).heap (.package address) = heap (.package address)

/-- The set that an entry has under a name is that of the earliest file action of the entry with the
variant. -/
def owner (files : List (FileAction Name Value)) (entry : Entry) (name : Name) :
    Option (SetRef Name) :=
  files.zipIdx.findSome? fun a ↦
    if entry ∈ a.1.entries realpath then (pvars pkgVars a.2 a.1).lookup name else none

/-- A further file action brings no new value to a set of the package, nor to a set that an entry of
another path has. -/
def Fits (files : List (FileAction Name Value)) (a : FileAction Name Value) : Prop :=
  ∀ entry ∈ a.entries realpath, ∀ name target,
    owner realpath pkgVars files entry name = some target →
    ∀ value ∈ original pkgVars heap a name,
      match target with
      | .package address => value ∈ heap (.package address)
      | .tag _ _ => ∀ other, owner realpath pkgVars files other name = some target →
        other ∈ a.entries realpath ∨
          ∃ b ∈ files, other ∈ b.entries realpath ∧ value ∈ original pkgVars heap b name

/-! ### References of a file action -/

variable {realpath pkgVars heap} {files : List (FileAction Name Value)} {a : FileAction Name Value}

omit [LinearOrder Value] in
theorem lookup_pvars (position : ℕ) (a : FileAction Name Value) (name : Name) :
    (pvars pkgVars position a).lookup name = if (a.tags.get name).isSome = true then
      some (.tag position name) else (pkgVars.lookup name).map .package := by
  have htags : (tagRefs position a.tags).lookup name =
      (a.tags.get name).map fun _ ↦ .tag position name := by
    unfold tagRefs RefDict.lookup VariantSets.get
    dsimp only
    induction a.tags.entries with
    | nil => rfl
    | cons entry entries ih =>
      rw [List.map_cons, List.lookup_cons, List.lookup_cons]
      by_cases hname : name = entry.1
      · rw [hname, beq_self_eq_true]
        rfl
      · rw [beq_eq_false_iff_ne.mpr hname]
        exact ih
  have hpackage : (packageRefs pkgVars).lookup name = (pkgVars.lookup name).map .package := by
    unfold packageRefs RefDict.lookup
    dsimp only
    induction pkgVars.entries with
    | nil => rfl
    | cons entry entries ih =>
      rw [List.map_cons, List.lookup_cons, List.lookup_cons]
      cases name == entry.1 with
      | true => rfl
      | false => exact ih
  unfold pvars
  split_ifs with hempty hname hname
  · rw [VariantSets.get, hempty] at hname
    cases hname
  · exact hpackage
  · obtain ⟨row, hrow⟩ := Option.isSome_iff_exists.mp hname
    rw [lookup_mergeUnknown, htags, hrow]
    rfl
  · rw [lookup_mergeUnknown, htags, Option.not_isSome_iff_eq_none.mp hname, hpackage]
    rfl

variable {name : Name}

omit [LinearOrder Value] in
/-- What the set of a file action holds when it is made. -/
theorem values_source {position : ℕ} {source : SetRef Name}
    (h : (pvars pkgVars position a).lookup name = some source) :
    (source = .tag position name ∧ original pkgVars heap a name = a.tags.values name) ∨
      ∃ address, source = .package address ∧ pkgVars.lookup name = some address ∧
        original pkgVars heap a name = heap (.package address) := by
  rw [lookup_pvars] at h
  split_ifs at h with hname
  · obtain ⟨row, hrow⟩ := Option.isSome_iff_exists.mp hname
    refine Or.inl ⟨(Option.some.inj h).symm, ?_⟩
    rw [original, VariantSets.values, hrow]
    rfl
  · obtain ⟨address, haddress, rfl⟩ := Option.map_eq_some_iff.mp h
    refine Or.inr ⟨address, rfl, haddress, ?_⟩
    rw [original, Option.not_isSome_iff_eq_none.mp hname, haddress]

omit [LinearOrder Value] in
theorem exists_source (position : ℕ) {value : Value} (h : value ∈ original pkgVars heap a name) :
    ∃ source, (pvars pkgVars position a).lookup name = some source := by
  rw [lookup_pvars]
  split_ifs with hname
  · exact ⟨_, rfl⟩
  · rw [original, Option.not_isSome_iff_eq_none.mp hname] at h
    cases haddress : pkgVars.lookup name with
    | none =>
      rw [haddress] at h
      exact absurd h (Finset.notMem_empty value)
    | some address => exact ⟨_, rfl⟩

variable {target : SetRef Name} {entry : Entry}

omit [LinearOrder Value] in
/-- An owned set is one of the package, or was made of a tag with the name. -/
theorem owner_cases (h : owner realpath pkgVars files entry name = some target) :
    (∃ position, target = .tag position name ∧ position < files.length) ∨
      ∃ address, target = .package address ∧ pkgVars.lookup name = some address := by
  obtain ⟨⟨b, position⟩, hmem, hsome⟩ := List.exists_of_findSome?_eq_some h
  split_ifs at hsome
  rw [lookup_pvars] at hsome
  split_ifs at hsome
  · refine Or.inl ⟨position, (Option.some.inj hsome).symm, ?_⟩
    have hlt := List.snd_lt_of_mem_zipIdx hmem
    omega
  · obtain ⟨address, haddress, rfl⟩ := Option.map_eq_some_iff.mp hsome
    exact Or.inr ⟨address, rfl, haddress⟩

/-! ### The turns of the loop -/

/-- The maps with the new sets of a further file action. -/
def prepared (realpath : List Char → List Char) (pkgVars : RefDict Name ℕ)
    (heap : Heap (SetRef Name) Value)
    (files : List (FileAction Name Value)) (a : FileAction Name Value) : State Name Value :=
  { deliveredMaps realpath pkgVars heap files with
    heap := makeTags (deliveredMaps realpath pkgVars heap files).heap files.length a.tags }

theorem deliveredMaps_append_singleton : deliveredMaps realpath pkgVars heap (files ++ [a]) =
    (prepared realpath pkgVars heap files a).mergeAll (pvars pkgVars files.length a)
      (a.entries realpath) := by
  rw [deliveredMaps, List.zipIdx_append, List.foldl_append]
  simp [List.zipIdx_cons, prepared, deliveredMaps, deliverFile, State.mergeAll]

omit [LinearOrder Value] in
theorem owner_append_singleton (entry : Entry) (name : Name) :
    owner realpath pkgVars (files ++ [a]) entry name = (owner realpath pkgVars files entry name).or
      (if entry ∈ a.entries realpath then (pvars pkgVars files.length a).lookup name
        else none) := by
  rw [owner, List.zipIdx_append, List.findSome?_append]
  simp [List.zipIdx_cons, owner]

theorem view_deliveredMaps (entry : Entry) (name : Name) :
    (deliveredMaps realpath pkgVars heap files).view entry name =
    owner realpath pkgVars files entry name := by
  induction files using List.reverseRecOn with
  | nil => cases entry <;> rfl
  | append_singleton files a ih =>
    rw [deliveredMaps_append_singleton, State.view_mergeAll, owner_append_singleton, ← ih]
    have hview : (prepared realpath pkgVars heap files a).view entry name =
        (deliveredMaps realpath pkgVars heap files).view entry name := by
      cases entry <;> rfl
    rw [hview]
    split_ifs
    · rfl
    · exact Option.or_none.symm

theorem isSome_entry_deliveredMaps (entry : Entry) :
    ((deliveredMaps realpath pkgVars heap files).entry entry).isSome = true ↔
      ∃ a ∈ files, entry ∈ a.entries realpath := by
  induction files using List.reverseRecOn with
  | nil => cases entry <;> simp [deliveredMaps, State.entry]
  | append_singleton files a ih =>
    rw [deliveredMaps_append_singleton, State.isSome_entry_mergeAll]
    have hentry : (prepared realpath pkgVars heap files a).entry entry =
        (deliveredMaps realpath pkgVars heap files).entry entry := by
      cases entry <;> rfl
    rw [hentry, ih]
    simp only [List.mem_append, List.mem_singleton, or_and_right, exists_or, exists_eq_left]
    exact or_comm

omit [LinearOrder Value] in
theorem isSome_owner (entry : Entry) (name : Name) :
    (owner realpath pkgVars files entry name).isSome = true ↔
    ∃ a ∈ files, entry ∈ a.entries realpath ∧
      ((a.tags.get name).isSome = true ∨ (pkgVars.lookup name).isSome = true) := by
  have hsome : ∀ (position : ℕ) (a : FileAction Name Value),
      ((pvars pkgVars position a).lookup name).isSome = true ↔
        ((a.tags.get name).isSome = true ∨ (pkgVars.lookup name).isSome = true) := by
    intro position a
    rw [lookup_pvars]
    split_ifs with hname
    · exact iff_of_true rfl (Or.inl hname)
    · rw [Option.isSome_map, or_iff_right hname]
  induction files using List.reverseRecOn with
  | nil => simp [owner]
  | append_singleton files a ih =>
    have hlast : (if entry ∈ a.entries realpath then (pvars pkgVars files.length a).lookup name
        else none).isSome = true ↔ entry ∈ a.entries realpath ∧
          ((a.tags.get name).isSome = true ∨ (pkgVars.lookup name).isSome = true) := by
      split_ifs with hentry
      · exact (hsome _ a).trans (and_iff_right hentry).symm
      · exact iff_of_false Bool.false_ne_true fun h ↦ hentry h.1
    rw [owner_append_singleton, Option.isSome_or, Bool.or_eq_true]
    refine (or_congr ih hlast).trans ?_
    simp only [List.mem_append, List.mem_singleton, or_and_right, exists_or, exists_eq_left]

/-! ### One more file action -/

/-- The sets after a further file action hold no more than this, if the file action fits. -/
def bound (realpath : List Char → List Char) (pkgVars : RefDict Name ℕ)
    (heap : Heap (SetRef Name) Value)
    (files : List (FileAction Name Value)) (a : FileAction Name Value) : SetRef Name → Set Value
  | .package address => ↑((deliveredMaps realpath pkgVars heap files).heap (.package address))
  | .tag position name =>
    if position = files.length then ↑(a.tags.values name)
    else ↑((deliveredMaps realpath pkgVars heap files).heap (.tag position name)) ∪
      {value | value ∈ original pkgVars heap a name ∧ ∃ entry ∈ a.entries realpath,
        owner realpath pkgVars files entry name = some (.tag position name)}

theorem view_prepared (entry : Entry) (name : Name) :
    (prepared realpath pkgVars heap files a).view entry name =
    owner realpath pkgVars files entry name := by
  rw [← view_deliveredMaps]
  cases entry <;> rfl

/-- What a file action has under a name is what its set holds when it is made. -/
theorem prepared_source (h : Exact realpath pkgVars heap files) {source : SetRef Name}
    (hsource : (pvars pkgVars files.length a).lookup name = some source) :
    (prepared realpath pkgVars heap files a).heap source = original pkgVars heap a name ∧
      bound realpath pkgVars heap files a source = ↑(original pkgVars heap a name) := by
  rcases values_source hsource with ⟨rfl, hvalues⟩ | ⟨address, rfl, haddress, hvalues⟩
  · rw [hvalues]
    exact ⟨if_pos rfl, if_pos rfl⟩
  · rw [hvalues, ← h.package name address haddress]
    exact ⟨rfl, rfl⟩

theorem prepared_subset_bound (reference : SetRef Name) :
    ↑((prepared realpath pkgVars heap files a).heap reference) ⊆
      bound realpath pkgVars heap files a reference := by
  cases reference with
  | package address => exact Set.Subset.refl _
  | tag position name =>
    unfold prepared bound makeTags
    dsimp only
    split_ifs
    · exact Set.Subset.refl _
    · exact Set.subset_union_left

/-- An old set is as it was before the merges of a file action. -/
theorem prepared_of_owner (h : owner realpath pkgVars files entry name = some target) :
    (prepared realpath pkgVars heap files a).heap target =
      (deliveredMaps realpath pkgVars heap files).heap target := by
  rcases owner_cases h with ⟨position, rfl, hlt⟩ | ⟨address, rfl, -⟩
  · exact if_neg hlt.ne
  · rfl

theorem deliveredMaps_subset_bound (h : Exact realpath pkgVars heap files)
    (hfits : Fits realpath pkgVars heap files a) (reference : SetRef Name) :
    ↑((deliveredMaps realpath pkgVars heap (files ++ [a])).heap reference) ⊆
      bound realpath pkgVars heap files a reference := by
  rw [deliveredMaps_append_singleton]
  refine State.mergeAll_le prepared_subset_bound ?_ reference
  intro entry hentry name target source htarget hsource
  have howner := (view_prepared entry name).symm.trans htarget
  rw [(prepared_source h hsource).2]
  intro value hvalue
  have hfit := hfits entry hentry name target howner value hvalue
  rcases owner_cases howner with ⟨position, rfl, hlt⟩ | ⟨address, rfl, haddress⟩
  · rw [bound, if_neg hlt.ne]
    exact Or.inr ⟨hvalue, entry, hentry, howner⟩
  · rw [bound, h.package name address haddress]
    exact hfit

/-- The values of a file action arrive in the sets of its entries. -/
theorem original_subset_deliveredMaps (h : Exact realpath pkgVars heap files)
    (hentry : entry ∈ a.entries realpath)
    (howner : owner realpath pkgVars files entry name = some target) :
    original pkgVars heap a name ⊆ (deliveredMaps realpath pkgVars heap (files ++ [a])).heap
    target := by
  intro value hvalue
  obtain ⟨source, hsource⟩ := exists_source files.length hvalue
  rw [deliveredMaps_append_singleton]
  refine State.mem_of_mergeAll_flow hentry ((view_prepared entry name).trans howner) hsource ?_
  rwa [(prepared_source h hsource).1]

theorem deliveredMaps_subset (howner : owner realpath pkgVars files entry name = some target) :
    (deliveredMaps realpath pkgVars heap files).heap target ⊆
      (deliveredMaps realpath pkgVars heap (files ++ [a])).heap target := by
  rw [deliveredMaps_append_singleton, ← prepared_of_owner (a := a) howner]
  exact State.subset_mergeAll _ _

theorem mem_contents_of_owner (howner : owner realpath pkgVars files entry name = some target)
    {value : Value} :
    value ∈ (deliveredMaps realpath pkgVars heap files).contents entry name ↔
      value ∈ (deliveredMaps realpath pkgVars heap files).heap target := by
  rw [State.contents, view_deliveredMaps, howner]

theorem mem_contents_of_owner_eq_none
    (howner : owner realpath pkgVars files entry name = none) (value : Value) :
    value ∉ (deliveredMaps realpath pkgVars heap files).contents entry name := by
  rw [State.contents, view_deliveredMaps, howner]
  exact Finset.notMem_empty value

omit [LinearOrder Value] in
theorem owner_append_of_some (howner : owner realpath pkgVars files entry name = some target) :
    owner realpath pkgVars (files ++ [a]) entry name = some target := by
  rw [owner_append_singleton, howner]
  rfl

/-- A file action that fits keeps the maps exact. -/
theorem Exact.append (h : Exact realpath pkgVars heap files)
    (hfits : Fits realpath pkgVars heap files a) :
    Exact realpath pkgVars heap (files ++ [a]) where
  present entry := isSome_entry_deliveredMaps entry
  names entry name := by
    rw [view_deliveredMaps]
    exact isSome_owner entry name
  package name address haddress := by
    refine Finset.Subset.antisymm ?_ ?_
    · intro value hvalue
      have hmem := deliveredMaps_subset_bound h hfits (.package address) hvalue
      rwa [bound, h.package name address haddress] at hmem
    · rw [deliveredMaps_append_singleton, ← h.package name address haddress]
      exact State.subset_mergeAll (prepared realpath pkgVars heap files a) (.package address)
  values entry name value := by
    simp only [List.mem_append, List.mem_singleton, or_and_right, exists_or, exists_eq_left]
    cases howner : owner realpath pkgVars files entry name with
    | some target =>
      rw [mem_contents_of_owner (owner_append_of_some howner), ← h.values,
        mem_contents_of_owner howner]
      constructor
      · intro hmem
        have hbound := deliveredMaps_subset_bound h hfits target hmem
        rcases owner_cases howner with ⟨position, rfl, hlt⟩ | ⟨address, rfl, haddress⟩
        · rw [bound, if_neg hlt.ne] at hbound
          rcases hbound with hold | ⟨hvalue, other, hother, hshared⟩
          · exact Or.inl hold
          · rcases hfits other hother name _ hshared value hvalue entry howner with hentry | hb
            · exact Or.inr ⟨hentry, hvalue⟩
            · exact Or.inl ((mem_contents_of_owner howner).mp ((h.values entry name value).mpr hb))
        · exact Or.inl hbound
      · rintro (hold | ⟨hentry, hvalue⟩)
        · exact deliveredMaps_subset howner hold
        · exact original_subset_deliveredMaps h hentry howner hvalue
    | none =>
      rw [← h.values, or_iff_right (mem_contents_of_owner_eq_none howner value)]
      have hview : owner realpath pkgVars (files ++ [a]) entry name =
          if entry ∈ a.entries realpath then (pvars pkgVars files.length a).lookup name
          else none := by
        rw [owner_append_singleton, howner]
        rfl
      by_cases hentry : entry ∈ a.entries realpath
      · rw [if_pos hentry] at hview
        rw [and_iff_right hentry]
        cases hsource : (pvars pkgVars files.length a).lookup name with
        | none =>
          rw [hsource] at hview
          refine iff_of_false (mem_contents_of_owner_eq_none hview value) fun hvalue ↦ ?_
          obtain ⟨source, hsource'⟩ := exists_source files.length hvalue
          rw [hsource] at hsource'
          cases hsource'
        | some source =>
          rw [hsource] at hview
          rw [mem_contents_of_owner hview]
          constructor
          · intro hmem
            have hbound := deliveredMaps_subset_bound h hfits source hmem
            rwa [(prepared_source h hsource).2] at hbound
          · intro hvalue
            rw [deliveredMaps_append_singleton]
            refine State.subset_mergeAll _ _ ?_
            rwa [(prepared_source h hsource).1]
      · rw [if_neg hentry] at hview
        exact iff_of_false (mem_contents_of_owner_eq_none hview value) fun hb ↦ hentry hb.1

/-- Only a file action that fits keeps the maps exact. -/
theorem Exact.fits (h : Exact realpath pkgVars heap files)
    (h' : Exact realpath pkgVars heap (files ++ [a])) : Fits realpath pkgVars heap files a := by
  intro entry hentry name target howner value hvalue
  have harrived := original_subset_deliveredMaps h hentry howner hvalue
  rcases owner_cases howner with ⟨position, rfl, -⟩ | ⟨address, rfl, haddress⟩
  · intro other hother
    have hmem := (mem_contents_of_owner (owner_append_of_some hother)).mpr harrived
    obtain ⟨b, hb, hentry', hvalue'⟩ := (h'.values other name value).mp hmem
    rcases List.mem_append.mp hb with hb | hb
    · exact Or.inr ⟨b, hb, hentry', hvalue'⟩
    · rw [List.mem_singleton.mp hb] at hentry'
      exact Or.inl hentry'
  · rwa [h'.package name address haddress] at harrived

theorem Exact.nil : Exact realpath pkgVars heap ([] : List (FileAction Name Value)) where
  present entry := isSome_entry_deliveredMaps entry
  names entry name := by
    rw [view_deliveredMaps]
    exact isSome_owner entry name
  package _ _ _ := rfl
  values entry name value := by
    refine iff_of_false (mem_contents_of_owner_eq_none rfl value) ?_
    rintro ⟨a, ha, -⟩
    exact absurd ha List.not_mem_nil

variable (realpath pkgVars heap)

/-- The maps are exact after each file action if and only if each file action fits. -/
theorem maps_exact_iff (files : List (FileAction Name Value)) :
    (∀ front, front <+: files → Exact realpath pkgVars heap front) ↔
      ∀ front a, front ++ [a] <+: files → Fits realpath pkgVars heap front a := by
  constructor
  · intro h front a hbegins
    exact (h front ((List.prefix_append front [a]).trans hbegins)).fits (h _ hbegins)
  · intro h front
    induction front using List.reverseRecOn with
    | nil => exact fun _ ↦ Exact.nil
    | append_singleton front a ih =>
      intro hbegins
      exact (ih ((List.prefix_append front [a]).trans hbegins)).append (h front a hbegins)

/-! ### Two files of one name -/

/-- A file for one architecture. -/
def fileFor (path arch : String) : FileAction (List Char) (List Char) where
  path := path.toList
  protoDir := "/proto".toList
  tags :=
    { entries := [("variant.arch".toList, {arch.toList})]
      nodup := List.nodup_singleton _
      nonempty := by simp }

/-- The entry of a file is widened by another file of the same basename. -/
theorem maps_not_exact :
    "sparc".toList ∈ (deliveredMaps id RefDict.empty (fun _ ↦ ∅)
        [fileFor "usr/bin/ls" "i386", fileFor "usr/sbin/ls" "sparc"]).contents
      (.delivered "usr/bin/ls".toList) "variant.arch".toList ∧
    ¬ Exact id RefDict.empty (fun _ ↦ ∅) [fileFor "usr/bin/ls" "i386",
      fileFor "usr/sbin/ls" "sparc"] := by
  have hmem : "sparc".toList ∈ (deliveredMaps id RefDict.empty (fun _ ↦ ∅)
      [fileFor "usr/bin/ls" "i386", fileFor "usr/sbin/ls" "sparc"]).contents
        (.delivered "usr/bin/ls".toList) "variant.arch".toList := by
    decide
  refine ⟨hmem, fun h ↦ ?_⟩
  obtain ⟨a, ha, hentry, hvalue⟩ := (h.values _ _ _).mp hmem
  rcases List.mem_pair.mp ha with rfl | rfl
  · exact absurd hvalue (by decide)
  · exact absurd hentry (by decide)

end Userland.Pkg.Publish
