import Mathlib.Algebra.Order.BigOperators.Group.List
import Mathlib.Algebra.Order.Group.Nat
import Mathlib.Data.List.MinMax
import Userland.Pkg.Manifest.Directories

/-!
# When the list of directories is faithful

The lines of `manifest.dircache` are put together by hand, with paths and values of tags as they
are, while the reader of actions parts fields at blanks and honours quotes. A directory whose name
holds a blank, or begins with a quote, is read back as another one or not at all.

`faithful_iff` says for which manifests the list is faithful: every action refers to directories by
relative paths, and every line that is written is legible. Excludes that refuse actions without tags
ask for more, since a directory to which an action without tags refers is listed without tags only:
no directory may be referred to both with and without tags.

If a line is not legible, then among the illegible lines with the most characters there is one that
no line is read as, and excludes that pass its tags alone miss its directory.
-/

set_option autoImplicit false
set_option relaxedAutoImplicit false

namespace Userland.Pkg.Manifest

open Actions Text Library.QuotedFields Library.Traverse

variable {_fromstr : List Char → Option Action} {iteritems : Tags → Tags}

/-- The fields of a line. -/
def fields (iteritems : Tags → Tags) (dir : List Char) (tags : Tags) :
    List (List Char × List Char) :=
  ("path".toList, dir) :: iteritems tags

/-- A line whose fields can be read back: the path and the values of the tags may stand bare, and
the last of them does not end in white space. -/
structure Readable (iteritems : Tags → Tags) (dir : List Char) (tags : Tags) : Prop where
  bare : ∀ field ∈ fields iteritems dir tags, Bare marks field.2
  ending : ∀ c, (row marks (fields iteritems dir tags)).getLast? = some c → isSpace c = false

/-! ### What a line is read as -/

theorem line_eq (dir : List Char) (tags : Tags) : ∃ trailing, (∀ c ∈ trailing, isSpace c = true) ∧
    line iteritems dir tags = "dir".toList ++ row marks (fields iteritems dir tags) ++
    trailing := by
  have hpath : "dir path=".toList = "dir".toList ++ (' ' :: "path".toList ++ ['=']) := rfl
  unfold line fields
  rw [row_cons, hpath]
  cases hitems : iteritems tags with
  | nil => exact ⟨[' ', '\n'], by simp [isSpace], by simp [row, marks]⟩
  | cons item items =>
    refine ⟨['\n'], by simp [isSpace], ?_⟩
    rw [← List.cons_append, List.cons_append]
    have hrow : ' ' :: [' '].intercalate ((item :: items).map fun tag ↦ tag.1 ++ '=' :: tag.2) =
        ((item :: items).map fun tag ↦ tag.1 ++ '=' :: tag.2).flatMap fun text ↦ ' ' :: text :=
      intercalate_blank (by simp)
    rw [List.flatMap_map] at hrow
    simp only [List.append_assoc, List.cons_append, List.nil_append, row, marks] at hrow ⊢
    rw [← hrow]
    simp

/-- A line without the white space at its end. -/
theorem strip_line (dir : List Char) (tags : Tags) : strip (line iteritems dir tags) =
    ("dir".toList ++ row marks (fields iteritems dir tags)).rdropWhile isSpace := by
  obtain ⟨trailing, htrailing, heq⟩ := @line_eq iteritems dir tags
  have hfront : ∀ text : List Char, ("dir".toList ++ text).dropWhile isSpace =
      "dir".toList ++ text :=
    fun text ↦ rfl
  rw [strip, heq, List.append_assoc, hfront, ← List.append_assoc,
    rdropWhile_append_of_all htrailing]

theorem row_fields_ne_nil (dir : List Char) (tags : Tags) :
    row marks (fields iteritems dir tags) ≠ [] :=
  List.cons_ne_nil _ _

/-- How many characters a line has without the white space behind it. -/
def width (iteritems : Tags → Tags) (dir : List Char) (tags : Tags) : ℕ :=
  ("dir".toList ++ row marks (fields iteritems dir tags)).length

theorem length_strip_line_le (dir : List Char) (tags : Tags) :
    (strip (line iteritems dir tags)).length ≤ width iteritems dir tags := by
  rw [strip_line]
  exact (List.rdropWhile_prefix _ _).length_le

theorem Readable.strip_line {dir : List Char} {tags : Tags} (h : Readable iteritems dir tags) :
    strip (line iteritems dir tags) =
      "dir".toList ++ row marks (fields iteritems dir tags) := by
  rw [Manifest.strip_line, List.rdropWhile_eq_self_iff]
  intro hne
  have hlast := List.getLast?_eq_some_getLast hne
  rw [List.getLast?_append_of_ne_nil _ (row_fields_ne_nil dir tags)] at hlast
  exact Bool.eq_false_iff.mp (h.ending _ hlast)

/-- A line that is not legible although all its values may stand bare loses a character. -/
theorem length_strip_line_lt {dir : List Char} {tags : Tags} (h : ¬ Readable iteritems dir tags)
    (hbare : ∀ field ∈ fields iteritems dir tags, Bare marks field.2) :
    (strip (line iteritems dir tags)).length < width iteritems dir tags := by
  refine lt_of_le_of_ne (length_strip_line_le dir tags) fun hlength ↦ h ⟨hbare, fun c hc ↦ ?_⟩
  rw [strip_line] at hlength
  have hself := (List.rdropWhile_prefix _ _).eq_of_length hlength
  have hne : "dir".toList ++ row marks (fields iteritems dir tags) ≠ [] := by simp
  have hlast := List.rdropWhile_eq_self_iff.mp hself hne
  have hget := List.getLast?_eq_some_getLast hne
  rw [List.getLast?_append_of_ne_nil _ (row_fields_ne_nil dir tags), hc] at hget
  rw [Option.some.inj hget]
  simpa using hlast

theorem path_not_isTag : ¬ IsTag "path".toList := by decide

section Reading

variable (horder : ∀ tags, (iteritems tags).Perm tags)
include horder

theorem nodup_fields {dir : List Char} {tags : Tags} (h : (tags.map Prod.fst).Nodup)
    (htags : ∀ tag ∈ tags, IsTag tag.1) :
    ((fields iteritems dir tags).map Prod.fst).Nodup := by
  rw [fields, List.map_cons, List.nodup_cons]
  refine ⟨fun hmem ↦ ?_, ((horder tags).map Prod.fst).nodup_iff.mpr h⟩
  obtain ⟨tag, htag, heq⟩ := List.mem_map.mp hmem
  have hpath := htags tag ((horder tags).mem_iff.mp htag)
  rw [heq] at hpath
  exact path_not_isTag hpath

/-- A legible line is read as the directory with the tags. -/
theorem fromstr_line (hread : SplitsFields _fromstr) {dir : List Char} {tags : Tags}
    (h : Readable iteritems dir tags) (hrelative : dir.head? ≠ some '/')
    (hnodup : (tags.map Prod.fst).Nodup) (htags : ∀ tag ∈ tags, IsTag tag.1 ∧ Key marks tag.1) :
    ∃ action, fromstr _fromstr (strip (line iteritems dir tags)) = some action ∧
      action.get "path".toList = some (.str dir) ∧
      ∀ key, IsTag key → action.get key = (tags.lookup key).map AttrValue.str := by
  have hkeys : ∀ field ∈ fields iteritems dir tags, Key marks field.1 ∧
      (field.1 = "path".toList ∨ IsTag field.1) := by
    intro field hfield
    rcases List.mem_cons.mp hfield with rfl | hfield
    · exact ⟨show Key marks "path".toList by decide, Or.inl rfl⟩
    · obtain ⟨htag, hkey⟩ := htags field ((horder tags).mem_iff.mp hfield)
      exact ⟨hkey, Or.inr htag⟩
  have hdata : ∀ field ∈ fields iteritems dir tags, field.1 ≠ "data".toList := by
    intro field hfield heq
    rcases (hkeys field hfield).2 with hpath | htag
    · exact absurd (hpath.symm.trans heq) (by decide)
    · rw [heq] at htag
      exact absurd htag (by decide)
  obtain ⟨found, hfound, hname, -, hget⟩ := hread.splits "dir".toList (fields iteritems dir tags)
    (by decide) (by decide) (List.cons_ne_nil _ _)
    (fun field hfield ↦ ⟨(hkeys field hfield).1, h.bare field hfield⟩) hdata
  have hgather := gather_of_nodup
    (@nodup_fields _ horder dir _ hnodup fun tag htag ↦ (htags tag htag).1)
  have hpath : found.get "path".toList = some (.str dir) := by
    rw [hget, hgather, fields, List.lookup_cons_self]
    rfl
  have hdir : dir.dropWhile (· = '/') = dir := by
    cases dir with
    | nil => rfl
    | cons c dir =>
      rw [List.dropWhile_cons_of_neg]
      simpa using hrelative
  have hempty : dir.dropWhile (· = '/') ≠ [] := by
    rw [hdir]
    exact (h.bare _ List.mem_cons_self).1
  rw [h.strip_line, fromstr, hfound, Option.bind_some, if_pos hname, directoryAction, hpath]
  dsimp only
  rw [if_neg hempty]
  refine ⟨_, rfl, ?_, fun key hkey ↦ ?_⟩
  · rw [Action.get, Library.Dict.lookup_set_self, hdir]
  · have hne : key ≠ "path".toList := fun heq ↦ path_not_isTag (heq ▸ hkey)
    rw [Action.get, Library.Dict.lookup_set_of_ne _ hne]
    change found.get key = _
    rw [hget, hgather, fields, List.lookup_cons, beq_eq_false_iff_ne.mpr hne,
      Library.Dict.lookup_perm (((horder tags).map Prod.fst).nodup_iff.mpr hnodup) (horder tags)]

/-- A line that is read as a directory with tags is as long as the line of these, and longer if that
one has a value that cannot stand bare. -/
theorem width_le_of_fromstr (hread : SplitsFields _fromstr) {dir text : List Char} {action : Action}
    (h : fromstr _fromstr text = some action)
    (hdir : action.get "path".toList = some (.str dir)) :
    width iteritems dir (variants action) ≤ text.length ∧
      ((∃ field ∈ fields iteritems dir (variants action), ¬ Bare marks field.2) →
        width iteritems dir (variants action) < text.length) := by
  obtain ⟨found, hfound, h⟩ := Option.bind_eq_some_iff.mp h
  split_ifs at h with hname
  obtain ⟨⟨path, hpath, -, hstripped⟩, hother⟩ := get_directoryAction h
  obtain ⟨hash, all, rest, htext, hreads, hget⟩ := hread.honours text found hfound
  have hdir' : dir = path.dropWhile (· = '/') := by
    rw [hdir] at hstripped
    exact AttrValue.str.inj (Option.some.inj hstripped)
  have hlonger : dir.length ≤ path.length := by
    rw [hdir']
    exact (List.dropWhile_suffix _).length_le
  have hmem : ∀ field ∈ ("path".toList, path) :: iteritems (variants action), field ∈ all := by
    intro field hfield
    rcases List.mem_cons.mp hfield with rfl | hfield
    · exact mem_of_gather (by rw [← hget, hpath])
    · obtain ⟨key, value⟩ := field
      obtain ⟨htag, hvalue⟩ := mem_variants.mp ((horder _).mem_iff.mp hfield)
      rw [hother key fun heq ↦ path_not_isTag (heq ▸ htag), hget] at hvalue
      exact mem_of_gather hvalue
  have hnodup : (("path".toList, path) :: iteritems (variants action)).Nodup :=
    (@nodup_fields _ horder path _ (nodup_variants action) fun tag htag ↦
      (mem_variants.mp htag).1).of_map _
  have hall : (row marks (("path".toList, path) :: iteritems (variants action))).length ≤
      (row marks all).length := by
    rw [length_row, length_row]
    obtain ⟨sub, hperm, hsub⟩ := List.subperm_of_subset hnodup hmem
    rw [← (hperm.map _).sum_eq]
    exact (hsub.map _).sum_le_sum fun _ _ ↦ Nat.zero_le _
  have hrow : (row marks (fields iteritems dir (variants action))).length + path.length =
      (row marks (("path".toList, path) :: iteritems (variants action))).length + dir.length := by
    simp only [fields, length_row, List.map_cons, List.sum_cons]
    omega
  have hlength := hreads.length_le
  have htotal : text.length = 3 + hash.length + rest.length := by
    rw [htext, hname, List.length_append, List.length_append]
    rfl
  have hwidth : width iteritems dir (variants action) =
      3 + (row marks (fields iteritems dir (variants action))).length := by
    rw [width, List.length_append]
    rfl
  refine ⟨by omega, ?_⟩
  rintro ⟨field, hfield, hbare⟩
  by_cases hsame : path = dir
  · have := hreads.length_lt ⟨field, hmem field (by rwa [hsame]), hbare⟩
    omega
  · have hlt : dir.length < path.length := by
      refine lt_of_le_of_ne hlonger fun hlength ↦ hsame ?_
      rw [hdir'] at hlength ⊢
      exact ((List.dropWhile_suffix _).eq_of_length hlength).symm
    omega

end Reading

/-! ### The directories found -/

variable {self : CachedManifest}

/-- An action of a manifest has a text for each of its tags. -/
theorem get_of_isTag {action : Action} (h : action ∈ self.actions) {key : List Char}
    (htag : IsTag key) :
    action.get key = ((variants action).lookup key).map AttrValue.str := by
  cases hget : action.get key with
  | none =>
    have hnone : (variants action).lookup key = none := by
      rw [Option.eq_none_iff_forall_ne_some]
      intro value hvalue
      have hmem := (mem_variants.mp (Library.Dict.mem_of_lookup hvalue)).2
      rw [hget] at hmem
      cases hmem
    rw [hnone]
    rfl
  | some value =>
    obtain ⟨text, rfl⟩ := self.tags action h _ (Library.Dict.mem_of_lookup hget) htag
    rw [(Library.Dict.lookup_eq_some_iff_mem (nodup_variants action)).mpr
      (mem_variants.mpr ⟨htag, hget⟩)]
    rfl

theorem newline_not_mem_reference {action : Action} (h : action ∈ self.actions)
    {references : List (List Char)} (hreferences : directoryReferences action = some references) :
    ∀ reference ∈ references, '\n' ∉ reference := by
  have hget : ∀ {key value}, action.get key = some (.str value) → '\n' ∉ value :=
    fun hget ↦ (self.lines action h _ (Library.Dict.mem_of_lookup hget)).2 _
      (List.mem_singleton_self _)
  have htext : ∀ {key value}, action.text key = some value → '\n' ∉ value :=
    fun htext ↦ hget (Action.text_eq_some_iff.mp htext)
  have hnorm : ∀ {path : List Char}, '\n' ∉ path → '\n' ∉ Path.normpath path := by
    intro path hpath hmem
    rcases Path.mem_normpath hmem with heq | heq | hmem
    · cases heq
    · cases heq
    · exact hpath hmem
  unfold directoryReferences at hreferences
  split_ifs at hreferences
  · obtain ⟨path, hpath, rfl⟩ := Option.map_eq_some_iff.mp hreferences
    simpa using hnorm (htext hpath)
  · obtain ⟨pkg, hpkg, rfl⟩ := Option.map_eq_some_iff.mp hreferences
    have hlegacy : '\n' ∉ legacyDir pkg := by
      unfold legacyDir
      split_ifs
      · exact htext hpkg
      · rw [List.mem_append, not_or]
        exact ⟨by decide, htext hpkg⟩
    simpa using hnorm hlegacy
  · split at hreferences
    · obtain rfl := Option.some.inj hreferences
      simp
    · rename_i path hpath
      obtain rfl := Option.some.inj hreferences
      simp only [List.mem_singleton, forall_eq]
      exact fun hmem ↦ hnorm (hget hpath) ((isPrefix_dirname _).subset hmem)
    · cases hreferences

theorem Ancestor.prefix_of {dir reference : List Char} (h : Ancestor dir reference) :
    dir <+: reference := by
  obtain ⟨-, n, rfl⟩ := h
  induction n with
  | zero => exact List.prefix_rfl
  | succ n ih =>
    rw [Function.iterate_succ_apply']
    exact (isPrefix_dirname _).trans ih

section Found

variable (horder : ∀ tags, (iteritems tags).Perm tags)
include horder

/-- The lines are the same in the file. -/
theorem lines_eq {dirs : Dirs} (hdirs : actionsToDirs self = some dirs)
    (stored : Bool) : (if stored then readlines (genDirsToStr iteritems dirs).flatten
      else genDirsToStr iteritems dirs) =
      (kept dirs).map fun entry ↦ line iteritems entry.1 entry.2 := by
  have hkept : genDirsToStr iteritems dirs =
      (kept dirs).map fun entry ↦ line iteritems entry.1 entry.2 := by
    unfold genDirsToStr kept
    rw [List.map_flatMap]
    simp only [List.map_map, Function.comp_def]
  cases stored with
  | false => exact hkept
  | true =>
    rw [if_pos rfl, hkept, readlines_flatten]
    intro text htext
    obtain ⟨⟨dir, tags⟩, hentry, rfl⟩ := List.mem_map.mp htext
    obtain ⟨⟨action, haction, ⟨references, hreferences, reference, hreference, hancestor⟩, rfl⟩,
        -⟩ :=
      (mem_kept hdirs dir tags).mp hentry
    refine ⟨_, rfl, ?_⟩
    have hdir : '\n' ∉ dir := fun hmem ↦ newline_not_mem_reference haction hreferences reference
      hreference (hancestor.prefix_of.subset hmem)
    rw [List.mem_append, List.mem_append, List.mem_cons, not_or, not_or, not_or]
    refine ⟨⟨by decide, hdir⟩, by decide, fun hmem ↦ ?_⟩
    rcases Library.mem_intercalate hmem with heq | ⟨text, htext, hc⟩
    · exact absurd heq (by decide)
    · obtain ⟨⟨key, value⟩, htag, rfl⟩ := List.mem_map.mp htext
      obtain ⟨-, hget⟩ := mem_variants.mp ((horder _).mem_iff.mp htag)
      obtain ⟨hkey, hvalue⟩ := self.lines action haction _ (Library.Dict.mem_of_lookup hget)
      rcases List.mem_append.mp hc with hc | hc
      · exact hkey hc
      · rcases List.mem_cons.mp hc with heq | hc
        · cases heq
        · exact hvalue value (List.mem_singleton_self _) hc

/-- What is found are the paths that the lines are read as, as far as the excludes let them pass. -/
theorem mem_getDirectories {dirs : Dirs}
    (hdirs : actionsToDirs self = some dirs) {stored : Bool} {excludes : List (Action → Bool)}
    {found : List (List Char)}
    (h : getDirectories _fromstr iteritems self stored excludes = some found) (dir : List Char) :
    dir ∈ found ↔ ∃ entry ∈ kept dirs, ∃ action,
      fromstr _fromstr (strip (line iteritems entry.1 entry.2)) = some action ∧
        includeThis excludes action = true ∧ action.get "path".toList = some (.str dir) := by
  unfold getDirectories at h
  rw [hdirs, Option.bind_eq_bind, Option.bind_some] at h
  obtain ⟨alist, halist, h⟩ := Option.bind_eq_some_iff.mp h
  obtain rfl := Option.some.inj h
  rw [lines_eq horder hdirs] at halist
  simp only [List.mem_dedup, List.mem_filterMap, List.mem_filter, Action.text_eq_some_iff]
  constructor
  · rintro ⟨action, ⟨hmem, hincluded⟩, hpath⟩
    obtain ⟨text, htext, hread⟩ := (mem_mapM halist action).mp hmem
    obtain ⟨entry, hentry, rfl⟩ := List.mem_map.mp htext
    exact ⟨entry, hentry, action, hread, hincluded, hpath⟩
  · rintro ⟨entry, hentry, action, hread, hincluded, hpath⟩
    exact ⟨action, ⟨(mem_mapM halist action).mpr ⟨_, List.mem_map_of_mem hentry, hread⟩, hincluded⟩,
      hpath⟩

theorem exists_getDirectories {dirs : Dirs}
    (hdirs : actionsToDirs self = some dirs) (stored : Bool) (excludes : List (Action → Bool))
    (h : ∀ entry ∈ kept dirs, ∃ action,
      fromstr _fromstr (strip (line iteritems entry.1 entry.2)) = some action) :
    ∃ found, getDirectories _fromstr iteritems self stored excludes = some found := by
  have hlines : ∀ text ∈ (kept dirs).map fun entry ↦ line iteritems entry.1 entry.2,
      ∃ action, fromstr _fromstr (strip text) = some action := by
    intro text htext
    obtain ⟨entry, hentry, rfl⟩ := List.mem_map.mp htext
    exact h entry hentry
  obtain ⟨alist, halist⟩ := exists_mapM_iff.mpr hlines
  refine ⟨((alist.filter (includeThis excludes)).filterMap fun a ↦ a.text "path".toList).dedup, ?_⟩
  rw [getDirectories, hdirs, Option.bind_eq_bind, Option.bind_some, lines_eq horder hdirs]
  dsimp only
  rw [halist]
  rfl

end Found

/-! ### Faithful lists -/

/-- The excludes let an action pass that refers to the directory. -/
def Allowed (self : CachedManifest) (excludes : List (Action → Bool)) (dir : List Char) : Prop :=
  ∃ action ∈ self.actions, includeThis excludes action = true ∧ Refers action dir

/-- The directories found, from the file or not, are those of the actions that pass. -/
def Faithful (_fromstr : List Char → Option Action) (iteritems : Tags → Tags)
    (self : CachedManifest) (excludes : List (Action → Bool)) : Prop :=
  ∀ stored, ∃ found, getDirectories _fromstr iteritems self stored excludes = some found ∧
    ∀ dir, dir ∈ found ↔ Allowed self excludes dir

/-- Excludes that test only variant and facet attributes. -/
def TestsTags (excludes : List (Action → Bool)) : Prop :=
  ∀ c ∈ excludes, ∀ action other : Action,
    (∀ key, IsTag key → action.get key = other.get key) → c action = c other

/-- Excludes that let every action without tags pass. -/
def PassesUntagged (excludes : List (Action → Bool)) : Prop :=
  ∀ action : Action, (∀ key, IsTag key → action.get key = none) →
    includeThis excludes action = true

/-- Every line that is written is legible. -/
def Legible (iteritems : Tags → Tags) (self : CachedManifest) : Prop :=
  ∀ dir tags, Kept self dir tags → Readable iteritems dir tags

/-- No directory is referred to both with and without tags. -/
def Unmixed (self : CachedManifest) : Prop :=
  ∀ dir, ∀ action ∈ self.actions, ∀ other ∈ self.actions, Refers action dir → Refers other dir →
    variants action = [] → variants other = []

theorem TestsTags.includeThis_eq {excludes : List (Action → Bool)} (h : TestsTags excludes)
    {action other : Action} (hsame : ∀ key, IsTag key → action.get key = other.get key) :
    includeThis excludes action = includeThis excludes other := by
  unfold includeThis
  rw [Bool.eq_iff_iff, List.all_eq_true, List.all_eq_true]
  exact forall₂_congr fun c hc ↦ by rw [h c hc action other hsame]

/-- Excludes that let pass what has one of some dictionaries of tags. -/
def passes (allowed : List Tags) :
    List (Action → Bool) := [fun action ↦ allowed.contains (variants action)]

theorem testsTags_passes (allowed : List Tags) : TestsTags (passes allowed) := by
  intro c hc action other hsame
  obtain rfl := List.mem_singleton.mp hc
  simp only [variants_eq hsame]

theorem includeThis_passes (allowed : List Tags) (action : Action) :
    includeThis (passes allowed) action = true ↔ variants action ∈ allowed := by
  simp [includeThis, passes]

theorem variants_eq_nil {action : Action} (h : ∀ key, IsTag key → action.get key = none) :
    variants action = [] := by
  rw [List.eq_nil_iff_forall_not_mem]
  rintro ⟨key, value⟩ hmem
  obtain ⟨htag, hget⟩ := mem_variants.mp hmem
  rw [h key htag] at hget
  cases hget

theorem passesUntagged_passes {allowed : List Tags} (h : [] ∈ allowed) :
    PassesUntagged (passes allowed) := by
  intro action haction
  rw [includeThis_passes, variants_eq_nil haction]
  exact h

theorem Kept.relative {dir : List Char} {tags : Tags}
    (h : Kept self dir tags) (hrelative : Relative self) : dir.head? ≠ some '/' := by
  obtain ⟨⟨action, haction, ⟨references, hreferences, reference, hreference, hancestor⟩, -⟩, -⟩ := h
  obtain ⟨others, hothers, hall⟩ := hrelative action haction
  rw [hreferences] at hothers
  rw [head?_of_isPrefix_cons hancestor.prefix_of hancestor.1]
  exact hall reference (Option.some.inj hothers ▸ hreference)

theorem Kept.keys {dir : List Char} {tags : Tags} (h : Kept self dir tags) :
    ∀ tag ∈ tags, IsTag tag.1 ∧ Key marks tag.1 := by
  obtain ⟨⟨action, haction, -, rfl⟩, -⟩ := h
  rintro ⟨key, value⟩ hmem
  obtain ⟨htag, hget⟩ := mem_variants.mp hmem
  exact ⟨htag, self.keys action haction _ (Library.Dict.mem_of_lookup hget)⟩

section Main

variable (hread : SplitsFields _fromstr) (horder : ∀ tags, (iteritems tags).Perm tags)
include hread horder

/-- What a legible line of a manifest is read as. -/
theorem Kept.fromstr_line {dir : List Char} {tags : Tags}
    (h : Kept self dir tags) (hrelative : Relative self) (hreadable : Readable iteritems dir tags) :
    ∃ action, fromstr _fromstr (strip (line iteritems dir tags)) = some action ∧
      action.get "path".toList = some (.str dir) ∧ variants action = tags ∧
      ∀ other ∈ self.actions, variants other = tags →
        ∀ key, IsTag key → action.get key = other.get key := by
  have hnodup : (tags.map Prod.fst).Nodup := by
    obtain ⟨⟨action, -, -, rfl⟩, -⟩ := h
    exact nodup_variants action
  obtain ⟨action, hline, hpath, hget⟩ := Manifest.fromstr_line horder hread hreadable
    (h.relative hrelative) hnodup h.keys
  have hsame : ∀ other ∈ self.actions, variants other = tags →
      ∀ key, IsTag key → action.get key = other.get key := by
    intro other hother heq key htag
    rw [hget key htag, get_of_isTag hother htag, heq]
  obtain ⟨⟨other, hother, -, heq⟩, -⟩ := h
  exact ⟨action, hline, hpath, (variants_eq (hsame other hother heq)).trans heq, hsame⟩

/-- The characters of a line, and whether one of its values cannot stand bare. -/
def weight (iteritems : Tags → Tags) (dir : List Char) (tags : Tags) : ℕ :=
  2 * width iteritems dir tags +
    if ∀ field ∈ fields iteritems dir tags, Bare marks field.2 then 0 else 1

/-- If the lists are faithful, then an illegible line is outweighed by another one. -/
theorem exists_weight_lt {dirs : Dirs} (hdirs : actionsToDirs self = some dirs)
    (hfaithful : ∀ excludes, TestsTags excludes → PassesUntagged excludes →
      Faithful _fromstr iteritems self excludes)
    {dir : List Char} {tags : Tags} (hkept : (dir, tags) ∈ kept dirs)
    (h : ¬ Readable iteritems dir tags) :
    ∃ entry ∈ kept dirs, ¬ Readable iteritems entry.1 entry.2 ∧
      weight iteritems dir tags < weight iteritems entry.1 entry.2 := by
  have hrelative := (exists_actionsToDirs_iff self).mp ⟨dirs, hdirs⟩
  obtain ⟨⟨act, hact, hrefers, rfl⟩, hnil⟩ := (mem_kept hdirs dir tags).mp hkept
  obtain ⟨found, hfound, hmem⟩ := hfaithful (passes [[], variants act]) (testsTags_passes _)
    (passesUntagged_passes List.mem_cons_self) false
  have hdir : dir ∈ found :=
    (hmem dir).mpr ⟨act, hact, (includeThis_passes _ _).mpr (by simp), hrefers⟩
  obtain ⟨⟨dir', tags'⟩, hentry, action, hline, hincluded, hpath⟩ :=
    (mem_getDirectories horder hdirs hfound dir).mp hdir
  have htags : variants action = variants act := by
    rcases List.mem_pair.mp ((includeThis_passes _ _).mp hincluded) with huntagged | htagged
    · by_contra hne
      rw [huntagged] at hne
      obtain ⟨found₀, hfound₀, hmem₀⟩ := hfaithful (passes [[]]) (testsTags_passes _)
        (passesUntagged_passes List.mem_cons_self) false
      have hdir₀ : dir ∈ found₀ := (mem_getDirectories horder hdirs hfound₀ dir).mpr
        ⟨_, hentry, action, hline, (includeThis_passes _ _).mpr (by rw [huntagged]; simp), hpath⟩
      obtain ⟨other, hother, hpasses, hrefers'⟩ := (hmem₀ dir).mp hdir₀
      exact hnil (Ne.symm hne) other hother hrefers'
        (List.mem_singleton.mp ((includeThis_passes _ _).mp hpasses))
    · exact htagged
  have hunreadable : ¬ Readable iteritems dir' tags' := by
    intro hreadable
    obtain ⟨action', hline', hpath', htags', -⟩ :=
      ((mem_kept hdirs dir' tags').mp hentry).fromstr_line hread horder hrelative hreadable
    obtain rfl := Option.some.inj (hline.symm.trans hline')
    rw [hpath] at hpath'
    obtain rfl := AttrValue.str.inj (Option.some.inj hpath')
    rw [← htags', htags] at hreadable
    exact h hreadable
  refine ⟨_, hentry, hunreadable, ?_⟩
  obtain ⟨hle, hlt⟩ := width_le_of_fromstr horder hread hline hpath
  rw [htags] at hle hlt
  dsimp only at hle hlt ⊢
  have hstrip := @length_strip_line_le iteritems dir' tags'
  unfold weight
  by_cases hbare : ∀ field ∈ fields iteritems dir (variants act), Bare marks field.2
  · rw [if_pos hbare]
    split_ifs with hbare'
    · have := length_strip_line_lt hunreadable hbare'
      omega
    · omega
  · have := hlt (by simpa using hbare)
    rw [if_neg hbare]
    omega

/-- If the lists are faithful, then every line is legible. -/
theorem legible_of_faithful (hrelative : Relative self)
    (hfaithful : ∀ excludes, TestsTags excludes → PassesUntagged excludes →
      Faithful _fromstr iteritems self excludes) : Legible iteritems self := by
  classical
  obtain ⟨dirs, hdirs⟩ := (exists_actionsToDirs_iff self).mpr hrelative
  intro dir tags hkept
  by_contra hunreadable
  let illegible := (kept dirs).filter fun entry ↦ ¬ Readable iteritems entry.1 entry.2
  have hmem : (dir, tags) ∈ illegible :=
    List.mem_filter.mpr ⟨(mem_kept hdirs dir tags).mpr hkept, decide_eq_true hunreadable⟩
  let f : List Char × Tags → ℕ := fun entry ↦ weight iteritems entry.1 entry.2
  obtain ⟨longest, hlongest⟩ : ∃ longest, longest ∈ illegible.argmax f := by
    cases hargmax : illegible.argmax f with
    | none =>
      rw [List.argmax_eq_none.mp hargmax] at hmem
      cases hmem
    | some longest => exact ⟨longest, rfl⟩
  obtain ⟨hentry, hillegible⟩ := List.mem_filter.mp (List.argmax_mem hlongest)
  obtain ⟨longer, hlonger, hillegible', hlt⟩ := exists_weight_lt hread horder hdirs hfaithful hentry
    (of_decide_eq_true hillegible)
  exact absurd (List.le_of_mem_argmax (f := f)
    (List.mem_filter.mpr ⟨hlonger, decide_eq_true hillegible'⟩) hlongest) (not_le.mpr hlt)

/-- For legible lines, what is found are the listed directories whose tags pass. -/
theorem mem_getDirectories_of_legible {dirs : Dirs}
    (hdirs : actionsToDirs self = some dirs) (hlegible : Legible iteritems self)
    {excludes : List (Action → Bool)} (htests : TestsTags excludes) (stored : Bool) :
    ∃ found, getDirectories _fromstr iteritems self stored excludes = some found ∧
      ∀ dir, dir ∈ found ↔ ∃ action ∈ self.actions, Kept self dir (variants action) ∧
        includeThis excludes action = true := by
  have hrelative := (exists_actionsToDirs_iff self).mp ⟨dirs, hdirs⟩
  have hline : ∀ entry ∈ kept dirs, ∃ action,
      fromstr _fromstr (strip (line iteritems entry.1 entry.2)) = some action ∧
        action.get "path".toList = some (.str entry.1) ∧ ∀ other ∈ self.actions,
          variants other = entry.2 → includeThis excludes action = includeThis excludes other := by
    rintro ⟨dir, tags⟩ hentry
    have hkept := (mem_kept hdirs dir tags).mp hentry
    obtain ⟨action, hread, hpath, -, hsame⟩ :=
      hkept.fromstr_line hread horder hrelative (hlegible dir tags hkept)
    exact ⟨action, hread, hpath, fun other hother heq ↦
      htests.includeThis_eq (hsame other hother heq)⟩
  obtain ⟨found, hfound⟩ := exists_getDirectories horder hdirs stored excludes fun entry hentry ↦
    (hline entry hentry).imp fun action h ↦ h.1
  refine ⟨found, hfound, fun dir ↦ ?_⟩
  rw [mem_getDirectories horder hdirs hfound]
  constructor
  · rintro ⟨⟨dir', tags⟩, hentry, action, hread, hincluded, hpath⟩
    obtain ⟨action', hread', hpath', hsame⟩ := hline _ hentry
    obtain rfl := Option.some.inj (hread.symm.trans hread')
    rw [hpath] at hpath'
    obtain rfl := AttrValue.str.inj (Option.some.inj hpath')
    have hkept := (mem_kept hdirs _ tags).mp hentry
    obtain ⟨⟨other, hother, -, rfl⟩, -⟩ := id hkept
    exact ⟨other, hother, hkept, by rw [← hsame other hother rfl, hincluded]⟩
  · rintro ⟨other, hother, hkept, hincluded⟩
    have hentry := (mem_kept hdirs _ _).mpr hkept
    obtain ⟨action, hread, hpath, hsame⟩ := hline _ hentry
    exact ⟨_, hentry, action, hread, by rw [hsame other hother rfl, hincluded], hpath⟩

/-- The list of directories of a manifest is faithful for all excludes that test only tags and let
actions without tags pass exactly if all references are relative and all lines are legible. It is
faithful for all excludes that test only tags exactly if, besides, no directory is referred to both
with and without tags. -/
theorem faithful_iff (self : CachedManifest) :
    ((∀ excludes, TestsTags excludes → PassesUntagged excludes →
      Faithful _fromstr iteritems self excludes) ↔ Relative self ∧ Legible iteritems self) ∧
    ((∀ excludes, TestsTags excludes → Faithful _fromstr iteritems self excludes) ↔
      Relative self ∧ Legible iteritems self ∧ Unmixed self) := by
  have hnecessary : (∀ excludes, TestsTags excludes → PassesUntagged excludes →
      Faithful _fromstr iteritems self excludes) → Relative self ∧ Legible iteritems self := by
    intro hfaithful
    have hrelative : Relative self := by
      obtain ⟨found, hfound, -⟩ := hfaithful (passes [[]]) (testsTags_passes _)
        (passesUntagged_passes List.mem_cons_self) false
      obtain ⟨dirs, hdirs, -⟩ := Option.bind_eq_some_iff.mp hfound
      exact (exists_actionsToDirs_iff self).mp ⟨dirs, hdirs⟩
    exact ⟨hrelative, legible_of_faithful hread horder hrelative hfaithful⟩
  have hkept : ∀ {action dir}, action ∈ self.actions → Refers action dir →
      (variants action ≠ [] → ∀ other ∈ self.actions, Refers other dir → variants other ≠ []) →
      Kept self dir (variants action) :=
    fun haction hrefers h ↦ ⟨⟨_, haction, hrefers, rfl⟩, h⟩
  refine ⟨⟨hnecessary, ?_⟩, ?_, ?_⟩
  · rintro ⟨hrelative, hlegible⟩ excludes htests hpasses stored
    obtain ⟨dirs, hdirs⟩ := (exists_actionsToDirs_iff self).mpr hrelative
    obtain ⟨found, hfound, hmem⟩ :=
      mem_getDirectories_of_legible hread horder hdirs hlegible htests stored
    refine ⟨found, hfound, fun dir ↦ (hmem dir).trans ⟨?_, ?_⟩⟩
    · rintro ⟨action, haction, ⟨⟨other, hother, hrefers, heq⟩, -⟩, hincluded⟩
      refine ⟨other, hother, ?_, hrefers⟩
      rw [← hincluded]
      refine htests.includeThis_eq fun key htag ↦ ?_
      rw [get_of_isTag hother htag, get_of_isTag haction htag, heq]
    · rintro ⟨action, haction, hincluded, hrefers⟩
      by_cases huntagged : ∃ other ∈ self.actions, Refers other dir ∧ variants other = []
      · obtain ⟨other, hother, hrefers', hnil⟩ := huntagged
        refine ⟨other, hother, hkept hother hrefers' fun hne ↦ absurd hnil hne, hpasses other ?_⟩
        intro key htag
        rw [get_of_isTag hother htag, hnil]
        rfl
      · exact ⟨action, haction, hkept haction hrefers fun _ other hother hrefers' hnil ↦
          huntagged ⟨other, hother, hrefers', hnil⟩, hincluded⟩
  · intro hfaithful
    obtain ⟨hrelative, hlegible⟩ := hnecessary fun excludes htests _ ↦ hfaithful excludes htests
    refine ⟨hrelative, hlegible, fun dir action haction other hother hrefers hrefers' hnil ↦ ?_⟩
    by_contra hne
    obtain ⟨dirs, hdirs⟩ := (exists_actionsToDirs_iff self).mpr hrelative
    obtain ⟨found, hfound, hmem⟩ := mem_getDirectories_of_legible hread horder hdirs hlegible
      (testsTags_passes [variants other]) false
    obtain ⟨found', hfound', hmem'⟩ := hfaithful _ (testsTags_passes [variants other]) false
    obtain rfl := Option.some.inj (hfound.symm.trans hfound')
    obtain ⟨third, -, ⟨-, hthird⟩, hincluded⟩ := (hmem dir).mp ((hmem' dir).mpr
      ⟨other, hother, (includeThis_passes _ _).mpr (List.mem_singleton_self _), hrefers'⟩)
    have heq := List.mem_singleton.mp ((includeThis_passes _ _).mp hincluded)
    rw [heq] at hthird
    exact hthird hne action haction hrefers hnil
  · rintro ⟨hrelative, hlegible, hunmixed⟩ excludes htests stored
    obtain ⟨dirs, hdirs⟩ := (exists_actionsToDirs_iff self).mpr hrelative
    obtain ⟨found, hfound, hmem⟩ :=
      mem_getDirectories_of_legible hread horder hdirs hlegible htests stored
    refine ⟨found, hfound, fun dir ↦ (hmem dir).trans ⟨?_, ?_⟩⟩
    · rintro ⟨action, haction, ⟨⟨other, hother, hrefers, heq⟩, -⟩, hincluded⟩
      refine ⟨other, hother, ?_, hrefers⟩
      rw [← hincluded]
      refine htests.includeThis_eq fun key htag ↦ ?_
      rw [get_of_isTag hother htag, get_of_isTag haction htag, heq]
    · rintro ⟨action, haction, hincluded, hrefers⟩
      exact ⟨action, haction, hkept haction hrefers fun hne other hother hrefers' hnil ↦
        hne (hunmixed dir other hother action haction hrefers' hrefers hnil), hincluded⟩

end Main

/-! ### A directory whose name holds a blank -/

/-- A manifest with one file, which has no tags. -/
def manifestOf (path : List Char) (h : '\n' ∉ path) : CachedManifest where
  actions := [⟨"file".toList, none, [("path".toList, .str path)], List.nodup_singleton _⟩]
  tags := by
    intro action haction attr hattr htag
    obtain rfl := List.mem_singleton.mp haction
    obtain rfl := List.mem_singleton.mp hattr
    exact ⟨path, rfl⟩
  keys := by
    intro action haction attr hattr
    obtain rfl := List.mem_singleton.mp haction
    obtain rfl := List.mem_singleton.mp hattr
    exact show Key marks "path".toList by decide
  lines := by
    intro action haction attr hattr
    obtain rfl := List.mem_singleton.mp haction
    obtain rfl := List.mem_singleton.mp hattr
    exact ⟨show '\n' ∉ "path".toList by decide, fun value hvalue ↦
      List.mem_singleton.mp hvalue ▸ h⟩

theorem faithful_iff_scan :
    SplitsFields scan ∧ ((∀ excludes, TestsTags excludes → PassesUntagged excludes →
      Faithful scan id (manifestOf "usr/bin/ls".toList (by decide)) excludes) ↔
      Relative (manifestOf "usr/bin/ls".toList (by decide)) ∧
        Legible id (manifestOf "usr/bin/ls".toList (by decide))) :=
  ⟨splitsFields_scan, (faithful_iff splitsFields_scan (fun _ ↦ List.Perm.refl _) _).1⟩

/-- The directory `opt/my tools` is lost: its line cannot be read as an action. -/
theorem not_faithful_blank :
    TestsTags [] ∧ PassesUntagged [] ∧
      getDirectories scan id (manifestOf "opt/my tools/run".toList (by decide)) true [] = none ∧
      Allowed (manifestOf "opt/my tools/run".toList (by decide)) [] "opt/my tools".toList ∧
      ¬ Faithful scan id (manifestOf "opt/my tools/run".toList (by decide)) [] := by
  have hnone : getDirectories scan id (manifestOf "opt/my tools/run".toList (by decide)) true [] =
      none := by decide +kernel
  refine ⟨fun c hc ↦ absurd hc List.not_mem_nil, fun _ _ ↦ rfl, hnone, ?_, fun h ↦ ?_⟩
  · refine ⟨_, List.mem_cons_self, rfl, ["opt/my tools".toList], by decide +kernel, _,
      List.mem_cons_self, by decide, 0, rfl⟩
  · obtain ⟨found, hfound, -⟩ := h true
    rw [hnone] at hfound
    cases hfound

end Userland.Pkg.Manifest
