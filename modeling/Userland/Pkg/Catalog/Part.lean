import Mathlib.Data.List.Sort
import Userland.Library.Dict
import Userland.Library.Program
import Userland.Pkg.Fmri

/-!
# Parts of a catalog

`CatalogPart` of `pkg/catalog.py`: for every publisher and package name the list of the entries of
the versions, kept in ascending order if the part is `ordered`. `add` appends an entry and sorts the
list, which raises if some version of the list cannot be read; the entry then stays where it was
appended.

An addition adds at most one version, and if it returns, then the entry of the FMRI is the one added
(`CatalogPart.add_triple`).

Scope. The time of the last modification and the signatures of a part are not modelled here, and a
part is loaded.
-/

set_option autoImplicit false
set_option relaxedAutoImplicit false

namespace Userland.Pkg.Catalog

open Library Library.Dict

/-- What the operations of a catalog raise. -/
inductive Error
  | anarchicalCatalogFMRI
  | duplicateCatalogEntry
  | unknownCatalogEntry
  | illegalVersion
  | attributeError
  | invalidPackageErrors
  | assertionError
  | keyError
deriving DecidableEq

/-- What is stored about a package. The actions are kept as texts. -/
structure Metadata where
  metadata : Option (List (String × String))
  signatures : List (String × String)
  actions : Option (List (List Char))

/-- The entry of one version of a package. -/
structure Entry extends Metadata where
  version : String

/-- Publishers, their packages, and the entries of the versions. -/
abbrev Data := List (String × List (String × List Entry))

/-- `CatalogPart`. -/
structure CatalogPart where
  data : Data
  ordered : Bool

/-- `str(pfmri.version)`. -/
def versionText (pfmri : PkgFmri) : String :=
  match pfmri.version with
  | none => "None"
  | some version => String.ofList version.str

/-- The entries of a package. -/
def versions (data : Data) (pub stem : String) : List Entry :=
  (((data.lookup pub).getD []).lookup stem).getD []

/-- The data with other entries of a package. -/
def putVersions (data : Data) (pub stem : String) (entries : List Entry) : Data :=
  set data pub (set ((data.lookup pub).getD []) stem entries)

@[simp] theorem versions_putVersions (data : Data) (pub stem : String) (entries : List Entry) :
    versions (putVersions data pub stem entries) pub stem = entries := by
  rw [versions, putVersions, lookup_set_self, Option.getD_some, lookup_set_self, Option.getD_some]

theorem versions_putVersions_of_ne (data : Data) (pub stem : String) (entries : List Entry)
    {otherPub otherStem : String} (h : otherPub ≠ pub ∨ otherStem ≠ stem) :
    versions (putVersions data pub stem entries) otherPub otherStem =
      versions data otherPub otherStem := by
  rw [versions, versions, putVersions]
  by_cases hpub : otherPub = pub
  · subst hpub
    have hstem := h.resolve_left fun hne ↦ hne rfl
    rw [lookup_set_self, Option.getD_some, lookup_set_of_ne _ hstem]
  · rw [lookup_set_of_ne _ hpub]

namespace CatalogPart

/-! ### Sorting -/

/-- `order`: `cmp` of the versions, which are read with the build release 5.11. -/
def order (first second : Version × Entry) : Prop := first.1.cmp second.1 ≠ .gt

instance : DecidableRel order := fun _ _ ↦ inferInstanceAs (Decidable (_ ≠ _))

/-- The version of an entry, as `order` reads it. -/
def keyed (entry : Entry) : Except Error (Version × Entry) :=
  match Version.ofString entry.version.toList (some "5.11".toList) with
  | some version => .ok (version, entry)
  | none => .error .illegalVersion

/-- `ver_list.sort(cmp=order)`, which compares nothing in a list with less than two elements. -/
def sortVersions (entries : List Entry) : Except Error (List Entry) :=
  if entries.length ≤ 1 then .ok entries
  else (entries.mapM keyed).map fun found ↦ (found.insertionSort order).map Prod.snd

theorem keyed_snd {entry : Entry} {found : Version × Entry} (h : keyed entry = .ok found) :
    found.2 = entry := by
  unfold keyed at h
  split at h
  · rw [← Except.ok.inj h]
  · cases h

theorem map_snd_of_mapM_keyed {entries : List Entry} {found : List (Version × Entry)}
    (h : entries.mapM keyed = .ok found) : found.map Prod.snd = entries := by
  induction entries generalizing found with
  | nil => rw [← Except.ok.inj h]; rfl
  | cons entry rest ih =>
    rw [List.mapM_cons] at h
    cases hentry : keyed entry with
    | error error =>
      rw [hentry] at h
      cases h
    | ok first =>
      rw [hentry] at h
      cases hrest : rest.mapM keyed with
      | error error =>
        rw [hrest] at h
        cases h
      | ok others =>
        rw [hrest] at h
        rw [← Except.ok.inj h, List.map_cons, ih hrest, keyed_snd hentry]

theorem perm_sortVersions {entries sorted : List Entry} (h : sortVersions entries = .ok sorted) :
    sorted.Perm entries := by
  unfold sortVersions at h
  split_ifs at h with hlength
  · rw [Except.ok.inj h]
  · cases hfound : entries.mapM keyed with
    | error error =>
      rw [hfound] at h
      cases h
    | ok found =>
      rw [hfound] at h
      have hperm := (List.perm_insertionSort order found).map Prod.snd
      rw [map_snd_of_mapM_keyed hfound] at hperm
      exact Except.ok.inj h ▸ hperm

/-! ### Operations -/

/-- Sorts the entries of the package of an FMRI. -/
def sortFmri (pub stem : String) : Program CatalogPart Error Unit := do
  let self ← get
  let sorted ← Program.lift (sortVersions (versions self.data pub stem))
  if versions self.data pub stem ≠ [] then
    modify fun self ↦ { self with data := putVersions self.data pub stem sorted }

/-- `pfmri.publisher`, which no FMRI in a catalog lacks. -/
def publisherOf (pfmri : PkgFmri) : Except Error String :=
  match pfmri.publisher with
  | none => .error .anarchicalCatalogFMRI
  | some pub => if pub = "" then .error .anarchicalCatalogFMRI else .ok pub

/-- `CatalogPart.add(pfmri, metadata)`. -/
def add (pfmri : PkgFmri) (metadata : Metadata) : Program CatalogPart Error Entry := do
  let pub ← Program.lift (publisherOf pfmri)
  let self ← get
  let verList := versions self.data pub pfmri.pkgName
  if verList.any (·.version == versionText pfmri) then throw .duplicateCatalogEntry
  else
    let entry : Entry := { metadata with version := versionText pfmri }
    modify fun self ↦
      { self with data := putVersions self.data pub pfmri.pkgName (verList ++ [entry]) }
    if self.ordered then sortFmri pub pfmri.pkgName else pure ()
    return entry

/-- `CatalogPart.get_entry(pfmri)`. -/
def getEntry (self : CatalogPart) (pfmri : PkgFmri) : Except Error (Option Entry) := do
  let pub ← publisherOf pfmri
  return (versions self.data pub pfmri.pkgName).find? (·.version == versionText pfmri)

/-- `CatalogPart.publishers()`. -/
def publishers (self : CatalogPart) : List String :=
  (self.data.map Prod.fst).filter fun pub ↦ !("_".toList.isPrefixOf pub.toList)

/-- `CatalogPart.get_package_counts()`. -/
def getPackageCounts (self : CatalogPart) : ℕ × ℕ :=
  let lists := self.publishers.flatMap fun pub ↦ ((self.data.lookup pub).getD []).map Prod.snd
  (lists.length, lists.flatten.length)

/-! ### What an addition does -/

/-- The part has an entry for a version of a package. -/
def Has (self : CatalogPart) (pub stem version : String) : Prop :=
  ∃ entry ∈ versions self.data pub stem, entry.version = version

/-- Whatever an addition comes to, the part keeps its versions and gets at most the one to be added.
-/
structure Grown (pfmri : PkgFmri) (before after : CatalogPart) : Prop where
  ordered : after.ordered = before.ordered
  keeps : ∀ pub stem version, before.Has pub stem version → after.Has pub stem version
  only : ∀ pub stem version, after.Has pub stem version → before.Has pub stem version ∨
    pfmri.publisher = some pub ∧ pfmri.pkgName = stem ∧ versionText pfmri = version

theorem Grown.refl (pfmri : PkgFmri) (part : CatalogPart) : Grown pfmri part part :=
  ⟨rfl, fun _ _ _ h ↦ h, fun _ _ _ h ↦ Or.inl h⟩

variable {pfmri : PkgFmri}

theorem Grown.trans {first middle last : CatalogPart} (h : Grown pfmri first middle)
    (h' : Grown pfmri middle last) : Grown pfmri first last where
  ordered := h'.ordered.trans h.ordered
  keeps pub stem version hhas := h'.keeps pub stem version (h.keeps pub stem version hhas)
  only pub stem version hhas :=
    (h'.only pub stem version hhas).elim (h.only pub stem version) Or.inr

variable {pub : String}

theorem grown_of_versions {before after : CatalogPart} {entry : Entry}
    (hordered : after.ordered = before.ordered) (hpub : pfmri.publisher = some pub)
    (hentry : entry.version = versionText pfmri)
    (hsame : (versions after.data pub pfmri.pkgName).Perm
      (versions before.data pub pfmri.pkgName ++ [entry]))
    (hother : ∀ otherPub otherStem, otherPub ≠ pub ∨ otherStem ≠ pfmri.pkgName →
      versions after.data otherPub otherStem = versions before.data otherPub otherStem) :
    Grown pfmri before after := by
  have hiff : ∀ p s v, after.Has p s v ↔
      before.Has p s v ∨ pfmri.publisher = some p ∧ pfmri.pkgName = s ∧ versionText pfmri = v := by
    intro p s v
    unfold Has
    by_cases hkey : p = pub ∧ s = pfmri.pkgName
    · obtain ⟨rfl, rfl⟩ := hkey
      simp only [hsame.mem_iff, List.mem_append, List.mem_singleton, or_and_right, exists_or,
        exists_eq_left, hentry, hpub, true_and]
    · rw [hother p s (by tauto), hpub]
      refine (or_iff_left ?_).symm
      rintro ⟨heq, hstem, -⟩
      exact hkey ⟨(Option.some.inj heq).symm, hstem.symm⟩
  exact ⟨hordered, fun p s v h ↦ (hiff p s v).mpr (Or.inl h), fun p s v h ↦ (hiff p s v).mp h⟩

/-- The one element of a list that passes a test is found. -/
theorem find?_eq_of_perm {α : Type} {list others : List α} {element : α} {test : α → Bool}
    (hperm : list.Perm (others ++ [element])) (helement : test element = true)
    (hothers : ∀ other ∈ others, test other = false) : list.find? test = some element := by
  have hnone : others.filter test = [] :=
    List.filter_eq_nil_iff.mpr fun other hother ↦ by simp [hothers other hother]
  have hfilter := hperm.filter test
  rw [List.filter_append, hnone, List.nil_append, List.filter_singleton, helement] at hfilter
  rw [← List.head?_filter, List.perm_singleton.mp hfilter, List.head?_cons]

/-- The entries of a package are another list of the same entries. -/
structure Sorted (pub stem : String) (before after : CatalogPart) : Prop where
  ordered : after.ordered = before.ordered
  perm : (versions after.data pub stem).Perm (versions before.data pub stem)
  others : ∀ otherPub otherStem, otherPub ≠ pub ∨ otherStem ≠ stem →
    versions after.data otherPub otherStem = versions before.data otherPub otherStem

theorem sortFmri_triple (pub stem : String) (start : CatalogPart) :
    Program.Triple (fun state ↦ state = start) (sortFmri pub stem)
      (fun _ state ↦ Sorted pub stem start state) (fun _ state ↦ state = start) := by
  unfold sortFmri
  refine Program.Triple.bind (M := fun self state ↦ self = start ∧ state = start)
    (Program.Triple.get fun state h ↦ ⟨h, h⟩) fun self ↦ Program.Triple.assume fun hself ↦ ?_
  subst hself
  refine Program.Triple.bind (M := fun sorted state ↦
    sortVersions (versions self.data pub stem) = .ok sorted ∧ state = self)
    (Program.Triple.lift (fun _ _ hsorted h ↦ ⟨hsorted, h⟩) fun _ _ _ h ↦ h)
    fun sorted ↦ Program.Triple.assume fun hsorted ↦ ?_
  have hperm := perm_sortVersions hsorted
  split_ifs with hempty
  · refine Program.Triple.modify fun state h ↦ ?_
    subst h
    refine ⟨rfl, ?_, fun p s hne ↦ versions_putVersions_of_ne _ _ _ _ hne⟩
    rwa [versions_putVersions]
  · exact Program.Triple.pure fun state h ↦ h ▸ ⟨rfl, List.Perm.refl _, fun _ _ _ ↦ rfl⟩

theorem publisher_of_publisherOf (h : publisherOf pfmri = .ok pub) :
    pfmri.publisher = some pub := by
  unfold publisherOf at h
  split at h
  · cases h
  · rename_i name hname
    split_ifs at h
    rw [hname, Except.ok.inj h]

variable {self : CatalogPart}

theorem getEntry_eq (h : publisherOf pfmri = .ok pub) : self.getEntry pfmri =
      .ok ((versions self.data pub pfmri.pkgName).find? (·.version == versionText pfmri)) := by
  rw [getEntry, h]
  rfl

theorem getEntry_eq_none_iff (h : publisherOf pfmri = .ok pub) :
    self.getEntry pfmri = .ok none ↔ ¬ self.Has pub pfmri.pkgName (versionText pfmri) := by
  rw [getEntry_eq h, Except.ok.injEq, List.find?_eq_none]
  simp [Has]

theorem exists_publisherOf {found : Option Entry}
    (h : self.getEntry pfmri = .ok found) : ∃ pub, publisherOf pfmri = .ok pub := by
  unfold getEntry at h
  cases hpub : publisherOf pfmri with
  | ok pub => exact ⟨pub, rfl⟩
  | error error =>
    rw [hpub] at h
    cases h

theorem has_of_getEntry {entry : Entry}
    (h : self.getEntry pfmri = .ok (some entry)) (hpub : pfmri.publisher = some pub) :
    self.Has pub pfmri.pkgName (versionText pfmri) := by
  obtain ⟨other, hother⟩ := exists_publisherOf h
  obtain rfl := Option.some.inj (hpub.symm.trans (publisher_of_publisherOf hother))
  by_contra hnot
  rw [(getEntry_eq_none_iff hother).mpr hnot] at h
  cases h

/-- What `add` does: the part is `Grown`, and if `add` returns, then the entry of the FMRI is the
one that was added, and there was none before. -/
theorem add_triple (pfmri : PkgFmri) (metadata : Metadata) (start : CatalogPart) :
    Program.Triple (fun state ↦ state = start) (add pfmri metadata)
      (fun _ state ↦ Grown pfmri start state ∧ start.getEntry pfmri = .ok none ∧
        state.getEntry pfmri = .ok (some { metadata with version := versionText pfmri }))
      (fun _ state ↦ Grown pfmri start state) := by
  unfold add
  refine Program.Triple.bind (M := fun pub state ↦ publisherOf pfmri = .ok pub ∧ state = start)
    (Program.Triple.lift (fun _ _ hpub h ↦ ⟨hpub, h⟩) fun _ _ _ h ↦ h ▸ Grown.refl _ _)
    fun pub ↦ Program.Triple.assume fun hpub ↦ ?_
  have hpublisher := publisher_of_publisherOf hpub
  refine Program.Triple.bind (M := fun self state ↦ self = start ∧ state = start)
    (Program.Triple.get fun state h ↦ ⟨h, h⟩) fun self ↦ Program.Triple.assume fun hself ↦ ?_
  subst hself
  dsimp only
  by_cases hduplicate :
    (versions self.data pub pfmri.pkgName).any (·.version == versionText pfmri) = true
  · rw [if_pos hduplicate]
    exact Program.Triple.throw fun state h ↦ h ▸ Grown.refl _ _
  · rw [if_neg hduplicate]
    have hnew : ∀ other ∈ versions self.data pub pfmri.pkgName,
        (other.version == versionText pfmri) = false := by
      simpa using hduplicate
    set entry : Entry := { metadata with version := versionText pfmri } with hentry
    set appended : CatalogPart := { self with
      data := putVersions self.data pub pfmri.pkgName
        (versions self.data pub pfmri.pkgName ++ [entry]) }
      with happended
    have hlist : versions appended.data pub pfmri.pkgName =
        versions self.data pub pfmri.pkgName ++ [entry] := versions_putVersions _ _ _ _
    have hothers : ∀ otherPub otherStem, otherPub ≠ pub ∨ otherStem ≠ pfmri.pkgName →
        versions appended.data otherPub otherStem = versions self.data otherPub otherStem :=
      fun _ _ hne ↦ versions_putVersions_of_ne _ _ _ _ hne
    have hafter : ∀ state, Sorted pub pfmri.pkgName appended state → Grown pfmri self state ∧
        self.getEntry pfmri = .ok none ∧ state.getEntry pfmri = .ok (some entry) := by
      intro state hsorted
      have hperm := hlist ▸ hsorted.perm
      refine ⟨grown_of_versions hsorted.ordered hpublisher rfl hperm fun p s hne ↦
        (hsorted.others p s hne).trans (hothers p s hne), ?_, ?_⟩
      · rw [getEntry_eq hpub, List.find?_eq_none.mpr fun other hother ↦ by simp [hnew other hother]]
      · rw [getEntry_eq hpub, find?_eq_of_perm hperm (by simp [hentry]) hnew]
    have hrefl : Sorted pub pfmri.pkgName appended appended :=
      ⟨rfl, List.Perm.refl _, fun _ _ _ ↦ rfl⟩
    refine Program.Triple.bind (M := fun _ state ↦ state = appended)
      (Program.Triple.modify fun state h ↦ by rw [h]) fun _ ↦ ?_
    split_ifs with hordered
    · exact Program.Triple.bind ((sortFmri_triple _ _ _).weaken (fun _ h ↦ h) (fun _ _ h ↦ h)
        fun _ state h ↦ (hafter state (h ▸ hrefl)).1) fun _ ↦ Program.Triple.pure hafter
    · exact Program.Triple.pure fun state h ↦ hafter state (h ▸ hrefl)

end CatalogPart

end Userland.Pkg.Catalog
