import Mathlib.Data.List.Sort
import Mathlib.Data.Finset.Dedup
import Userland.Library.Dict
import Userland.Library.Separated
import Userland.Library.Traverse
import Userland.Pkg.Search.IndexStore
import Userland.Pkg.Versions.Fmri

/-!
# Offsets of packages

`pkg/search_storage.py`: `InvertedDict` keeps the offsets that belong to each package. Its file has
a line for each set of offsets: the packages that share the set, and the offsets, each but the first
as the difference to the one before it.

A file that was written is read back, and the offsets of the packages that a predicate accepts are
the offsets that were added for them, exactly if the text of no package has white space
(`recovered_iff_blankless`).

Scope. A dictionary is a list of entries in the order of insertion. `p_id_trans.get_entity` is a
function from package ids to FMRIs that their constructor accepted.
-/

set_option autoImplicit false
set_option relaxedAutoImplicit false

namespace Userland.Pkg.Search

open Library Flyweight

/-! ### The dictionary -/

/-- `InvertedDict`. -/
structure InvertedDict where
  dict : List (List Char × List Char)
  fmriOffsets : List (ℕ × List ℤ)

namespace InvertedDict

/-- The dictionary that the constructor makes. -/
def empty : InvertedDict where
  dict := []
  fmriOffsets := []

/-- `add_pair(p_id, offset)`. -/
def addPair (self : InvertedDict) (pId : ℕ) (offset : ℤ) : InvertedDict :=
  { self with fmriOffsets := Dict.append self.fmriOffsets pId offset }

/-- A row of calls of `add_pair`. -/
def addPairs (self : InvertedDict) (pairs : List (ℕ × ℤ)) : InvertedDict :=
  pairs.foldl (fun self pair ↦ self.addPair pair.1 pair.2) self

/-- `sorted(set(offsets))`. -/
def sortedSet (offsets : List ℤ) : List ℤ :=
  offsets.dedup.insertionSort (· ≤ ·)

/-- The loop over sorted offsets of `invert_id_to_offsets_dict`, after the offset `old_o`. -/
def bucket (oldO : ℤ) : List ℤ → List ℤ
  | [] => []
  | o :: rest => (o - oldO) :: bucket o rest

/-- The text of a bucket. -/
def bucketText (offsets : List ℤ) : List Char :=
  [' '].intercalate ((bucket 0 (sortedSet offsets)).map Text.strInt)

/-- `invert_id_to_offsets_dict()`: the packages of each bucket. The offsets of the packages are
deleted. -/
def invertIdToOffsetsDict (self : InvertedDict) : List (List Char × List ℕ) × InvertedDict :=
  (self.fmriOffsets.foldl (fun inv entry ↦ Dict.append inv (bucketText entry.2) entry.1) [],
    { self with fmriOffsets := [] })

/-- The text of a package in the file: `get_fmri(anarchy=True, include_scheme=False)`. -/
def fmriText (getEntity : ℕ → AcceptedFmri) (pId : ℕ) : List Char :=
  (getEntity pId).fmri.pkgName ++ piece '@' ((getEntity pId).fmri.version.map VersionObject.str)

/-- `__make_line(offset_str, p_ids, trans)`. -/
def makeLine (getEntity : ℕ → AcceptedFmri) (offsetStr : List Char) (pIds : List ℕ) : List Char :=
  [' '].intercalate (pIds.map (fmriText getEntity)) ++ '!' :: offsetStr

/-- `write_dict_file(path, version_num)`: the text of the file, and the dictionary afterwards. -/
def writeDictFile (self : InvertedDict) (getEntity : ℕ → AcceptedFmri) (versionNum : ℤ) :
    List Char × InvertedDict :=
  let (inv, self) := self.invertIdToOffsetsDict
  (protectedWriteDictFile versionNum (inv.map fun entry ↦ makeLine getEntity entry.1 entry.2), self)

/-- A line of the file, with what stands in front of the `!` and behind it; `none` is `ValueError`.
-/
def splitLine (l : List Char) : Option (List Char × List Char) :=
  match l.splitOn '!' with
  | [fmris, offs] => some (fmris, offs)
  | _ => none

/-- `read_dict_file()`; `none` is `ValueError`. -/
def readDictFile (self : InvertedDict) (file : List Char) : Option InvertedDict := do
  let entries ← (remainingLines file).mapM splitLine
  return { self with dict := entries.foldl (fun dict entry ↦ Dict.set dict entry.1 entry.2) self.dict }

/-- `de_delta(offs)`, after the offset `old_o`; `none` is `ValueError`. -/
def deDelta (oldO : ℤ) : List (List Char) → Option (List ℤ)
  | [] => some []
  | o :: rest => do
    let o := (← Text.parseInt o) + oldO
    return o :: (← deDelta o rest)

/-- `get_offsets(match_func)`; `none` is `ValueError`. -/
def getOffsets (self : InvertedDict) (matchFunc : List Char → Bool) : Option (Finset ℤ) := do
  let offs ← (self.dict.filter fun entry ↦
      (words Text.isSpace entry.1).any matchFunc).mapM fun entry ↦
    deDelta 0 (words Text.isSpace entry.2)
  return offs.flatten.toFinset

/-! ### Buckets -/

theorem mem_sortedSet {offsets : List ℤ} {o : ℤ} : o ∈ sortedSet offsets ↔ o ∈ offsets := by
  rw [sortedSet, (List.perm_insertionSort _ _).mem_iff, List.mem_dedup]

/-- Adding up the differences gives the offsets back. -/
theorem deDelta_bucket (oldO : ℤ) (offsets : List ℤ) :
    deDelta oldO ((bucket oldO offsets).map Text.strInt) = some offsets := by
  induction offsets generalizing oldO with
  | nil => rfl
  | cons o rest ih =>
    rw [bucket, List.map_cons, deDelta, Text.parseInt_strInt, Option.bind_eq_bind, Option.bind_some,
      sub_add_cancel]
    dsimp only
    rw [ih]
    rfl

theorem deDelta_bucketText (offsets : List ℤ) :
    deDelta 0 (words Text.isSpace (bucketText offsets ++ ['\n'])) = some (sortedSet offsets) := by
  rw [words_append_blank (by decide), bucketText, words_intercalate (by decide), deDelta_bucket]
  intro word hword
  obtain ⟨n, -, rfl⟩ := List.mem_map.mp hword
  exact ⟨Text.strInt_ne_nil n, fun c hc ↦ Text.not_isSpace_of_mem_strInt hc⟩

theorem notMem_bucketText {c : Char} (hdigit : c.isDigit = false) (hsign : c ≠ '-')
    (hblank : c ≠ ' ') (offsets : List ℤ) : c ∉ bucketText offsets := by
  intro h
  rcases mem_intercalate h with h | ⟨word, hword, hc⟩
  · exact hblank (List.mem_singleton.mp h)
  · obtain ⟨n, -, rfl⟩ := List.mem_map.mp hword
    exact Text.notMem_strInt hdigit hsign n hc

/-! ### Texts of packages -/

section Texts

variable {getEntity : ℕ → AcceptedFmri}

/-- No character of the text of a package is white space. -/
def Blankless (getEntity : ℕ → AcceptedFmri) (pId : ℕ) : Prop :=
  ∀ c ∈ fmriText getEntity pId, Text.isSpace c = false

/-- A name that is accepted is a valid name, or one before a line break. -/
theorem exists_name {name : List Char} (h : matchesPkgName name = true) : ∃ front back,
    name = front ++ back ∧ PkgFmri.validPkgName front = true ∧ (back = [] ∨ back = ['\n']) := by
  rw [matchesPkgName, Bool.or_eq_true, Bool.and_eq_true, beq_iff_eq] at h
  rcases h with hvalid | ⟨hlast, hvalid⟩
  · exact ⟨name, [], (List.append_nil _).symm, hvalid, Or.inl rfl⟩
  · exact ⟨name.dropLast, ['\n'], (List.dropLast_append_getLast? _ hlast).symm, hvalid, Or.inr rfl⟩

/-- The text of a package is not empty, and has no `!`. -/
theorem fmriText_spec (pId : ℕ) : fmriText getEntity pId ≠ [] ∧ '!' ∉ fmriText getEntity pId := by
  obtain ⟨hname, hread⟩ := (getEntity pId).spec
  obtain ⟨front, back, hsplit, hvalid, hback⟩ := exists_name hname
  have hfront : front ≠ [] := by
    rintro rfl
    exact absurd hvalid (by decide)
  rw [fmriText, hsplit]
  refine ⟨by simp [hfront], List.not_mem_append (List.not_mem_append ?_ ?_) ?_⟩
  · exact PkgFmri.notMem_of_not_nameChar hvalid (by decide) (by decide)
  · rcases hback with rfl | rfl <;> decide
  · refine notMem_piece (by decide) (notMem_version hread ?_)
    exact not_versionChar (by decide) (by decide) (by decide)

variable {pIds : List ℕ}

theorem words_join (hblankless : ∀ pId ∈ pIds, Blankless getEntity pId) :
    words Text.isSpace ([' '].intercalate (pIds.map (fmriText getEntity))) =
    pIds.map (fmriText getEntity) := by
  refine words_intercalate (by decide) fun word hword ↦ ?_
  obtain ⟨pId, hpId, rfl⟩ := List.mem_map.mp hword
  exact ⟨(fmriText_spec pId).1, hblankless pId hpId⟩

theorem notMem_join {c : Char} (hblank : c ≠ ' ') (h : ∀ pId ∈ pIds, c ∉ fmriText getEntity pId) :
    c ∉ [' '].intercalate (pIds.map (fmriText getEntity)) := by
  intro hc
  rcases mem_intercalate hc with hc | ⟨word, hword, hc⟩
  · exact hblank (List.mem_singleton.mp hc)
  · obtain ⟨pId, hpId, rfl⟩ := List.mem_map.mp hword
    exact h pId hpId hc

variable {offsets : List ℤ}

theorem notMem_makeLine (hblankless : ∀ pId ∈ pIds, Blankless getEntity pId) :
    '\n' ∉ makeLine getEntity (bucketText offsets) pIds := by
  refine List.not_mem_append (notMem_join (by decide) fun pId hpId hc ↦ ?_) ?_
  · exact absurd (hblankless pId hpId _ hc) (by decide)
  · exact List.not_mem_cons_of_ne_of_not_mem (by decide)
      (notMem_bucketText (by decide) (by decide) (by decide) offsets)

/-- A line is split into its packages and its offsets. -/
theorem splitLine_makeLine : splitLine (makeLine getEntity (bucketText offsets) pIds ++ ['\n']) =
      some ([' '].intercalate (pIds.map (fmriText getEntity)), bucketText offsets ++ ['\n']) := by
  have hsplit : (makeLine getEntity (bucketText offsets) pIds ++ ['\n']).splitOn '!' =
      [[' '].intercalate (pIds.map (fmriText getEntity)), bucketText offsets ++ ['\n']] := by
    have hmem : ∀ piece ∈ [[' '].intercalate (pIds.map (fmriText getEntity)),
        bucketText offsets ++ ['\n']], '!' ∉ piece := by
      intro piece hpiece
      rcases List.mem_pair.mp hpiece with rfl | rfl
      · exact notMem_join (by decide) fun pId _ ↦ (fmriText_spec pId).2
      · exact List.not_mem_append (notMem_bucketText (by decide) (by decide) (by decide) offsets)
          (by decide)
    rw [← List.splitOn_intercalate '!' hmem (List.cons_ne_nil _ _), List.intercalate_cons_cons,
      List.intercalate_singleton, makeLine, List.append_assoc, List.append_assoc]
    rfl
  rw [splitLine, hsplit]

end Texts

/-! ### Packages and their offsets -/

section RoundTrip

variable {pairs : List (ℕ × ℤ)} {pId : ℕ} {offsets : List ℤ}

theorem fmriOffsets_addPairs (self : InvertedDict) (pairs : List (ℕ × ℤ)) :
    (self.addPairs pairs).fmriOffsets =
      pairs.foldl (fun entries pair ↦ Dict.append entries pair.1 pair.2) self.fmriOffsets := by
  induction pairs generalizing self with
  | nil => rfl
  | cons pair rest ih => exact ih (self.addPair pair.1 pair.2)

theorem dict_addPairs (self : InvertedDict) (pairs : List (ℕ × ℤ)) :
    (self.addPairs pairs).dict = self.dict := by
  induction pairs generalizing self with
  | nil => rfl
  | cons pair rest ih => exact ih (self.addPair pair.1 pair.2)

theorem nodup_addPairs (pairs : List (ℕ × ℤ)) :
    ((empty.addPairs pairs).fmriOffsets.map Prod.fst).Nodup := by
  rw [fmriOffsets_addPairs]
  exact Dict.nodup_foldl_append pairs List.nodup_nil

/-- The offsets of a package are those that were added for it. -/
theorem mem_addPairs (h : (pId, offsets) ∈ (empty.addPairs pairs).fmriOffsets) (o : ℤ) :
    o ∈ offsets ↔ (pId, o) ∈ pairs := by
  have hlisted : Dict.Listed (empty.addPairs pairs).fmriOffsets pId o ↔ (pId, o) ∈ pairs := by
    rw [fmriOffsets_addPairs, Dict.listed_foldl_append]
    exact or_iff_right (Dict.not_listed_nil pId o)
  rw [← hlisted, Dict.Listed, (Dict.lookup_eq_some_iff_mem (nodup_addPairs pairs)).mpr h]
  simp

theorem exists_mem_addPairs {o : ℤ} (h : (pId, o) ∈ pairs) :
    ∃ offsets, (pId, offsets) ∈ (empty.addPairs pairs).fmriOffsets := by
  have hlisted : Dict.Listed (empty.addPairs pairs).fmriOffsets pId o := by
    rw [fmriOffsets_addPairs, Dict.listed_foldl_append]
    exact Or.inr h
  obtain ⟨offsets, hlookup, -⟩ := hlisted
  exact ⟨offsets, Dict.mem_of_lookup hlookup⟩

/-- Every package has an offset. -/
theorem exists_pair (h : (pId, offsets) ∈ (empty.addPairs pairs).fmriOffsets) :
    ∃ o, (pId, o) ∈ pairs := by
  have hne : offsets ≠ [] := by
    rw [fmriOffsets_addPairs] at h
    exact Dict.ne_nil_of_mem_foldl_append pairs (fun _ hentry ↦ absurd hentry List.not_mem_nil) _ h
  obtain ⟨o, ho⟩ := List.exists_mem_of_ne_nil offsets hne
  exact ⟨o, (mem_addPairs h o).mp ho⟩

/-- The buckets of the offsets that were added. -/
def buckets (pairs : List (ℕ × ℤ)) : List (List Char × List ℕ) :=
  (empty.addPairs pairs).invertIdToOffsetsDict.1

theorem buckets_eq (pairs : List (ℕ × ℤ)) : buckets pairs =
    ((empty.addPairs pairs).fmriOffsets.map fun entry ↦ (bucketText entry.2, entry.1)).foldl
      (fun inv addition ↦ Dict.append inv addition.1 addition.2) [] := by
  rw [List.foldl_map]
  rfl

theorem nodup_buckets (pairs : List (ℕ × ℤ)) : ((buckets pairs).map Prod.fst).Nodup := by
  rw [buckets_eq]
  exact Dict.nodup_foldl_append _ List.nodup_nil

/-- A package is in the bucket of its offsets, and in no other one. -/
theorem exists_mem_buckets_iff {h : List Char} : (∃ pIds, (h, pIds) ∈ buckets pairs ∧ pId ∈ pIds) ↔
    ∃ offsets, (pId, offsets) ∈ (empty.addPairs pairs).fmriOffsets ∧ bucketText offsets = h := by
  rw [← Dict.listed_iff (nodup_buckets pairs), buckets_eq, Dict.listed_foldl_append,
    or_iff_right (Dict.not_listed_nil h pId), List.mem_map]
  simp [and_comm]

theorem ne_nil_of_mem_buckets {entry : List Char × List ℕ} (h : entry ∈ buckets pairs) :
    entry.2 ≠ [] := by
  rw [buckets_eq] at h
  exact Dict.ne_nil_of_mem_foldl_append _ (fun _ hentry ↦ absurd hentry List.not_mem_nil) _ h

theorem exists_bucketText {entry : List Char × List ℕ} (h : entry ∈ buckets pairs) :
    ∃ offsets, entry.1 = bucketText offsets := by
  obtain ⟨pId, hpId⟩ := List.exists_mem_of_ne_nil _ (ne_nil_of_mem_buckets h)
  obtain ⟨offsets, -, htext⟩ := exists_mem_buckets_iff.mp ⟨entry.2, h, hpId⟩
  exact ⟨offsets, htext.symm⟩

theorem bucket_unique {first second : List Char × List ℕ} (hfirst : first ∈ buckets pairs)
    (hsecond : second ∈ buckets pairs) (hmem : pId ∈ first.2) (hmem' : pId ∈ second.2) :
    first.1 = second.1 := by
  obtain ⟨offsets, hoffsets, htext⟩ := exists_mem_buckets_iff.mp ⟨first.2, hfirst, hmem⟩
  obtain ⟨offsets', hoffsets', htext'⟩ := exists_mem_buckets_iff.mp ⟨second.2, hsecond, hmem'⟩
  have heq : offsets = offsets' := by
    have hlookup := (Dict.lookup_eq_some_iff_mem (nodup_addPairs pairs)).mpr hoffsets
    rw [(Dict.lookup_eq_some_iff_mem (nodup_addPairs pairs)).mpr hoffsets'] at hlookup
    exact (Option.some.inj hlookup).symm
  rw [← htext, ← htext', heq]

/-- What is read of a line. -/
def readEntry (getEntity : ℕ → AcceptedFmri) (entry : List Char × List ℕ) : List Char × List Char :=
  ([' '].intercalate (entry.2.map (fmriText getEntity)), entry.1 ++ ['\n'])

variable {getEntity : ℕ → AcceptedFmri}

/-- After the file was written and read back, the offsets of the packages that a predicate accepts
are those that were added for them, for every predicate. -/
def Recovered (getEntity : ℕ → AcceptedFmri) (pairs : List (ℕ × ℤ)) (versionNum : ℤ) : Prop :=
  ∀ matchFunc : List Char → Bool, ∃ read offs,
    ((empty.addPairs pairs).writeDictFile getEntity versionNum).2.readDictFile
        ((empty.addPairs pairs).writeDictFile getEntity versionNum).1 = some read ∧
      read.getOffsets matchFunc = some offs ∧
      ∀ o, o ∈ offs ↔ ∃ pId, (pId, o) ∈ pairs ∧ matchFunc (fmriText getEntity pId) = true

/-- A text with white space is no word, so that no line has it. -/
theorem Recovered.blankless {versionNum : ℤ} (h : Recovered getEntity pairs versionNum) :
    ∀ pair ∈ pairs, Blankless getEntity pair.1 := by
  intro pair hpair c hc
  by_contra hspace
  obtain ⟨read, offs, -, hoffs, hmem⟩ := h (· == fmriText getEntity pair.1)
  have hnone : ∀ entry ∈ read.dict,
      ¬ (words Text.isSpace entry.1).any (· == fmriText getEntity pair.1) = true := by
    intro entry _ hany
    obtain ⟨word, hword, heq⟩ := List.any_eq_true.mp hany
    rw [beq_iff_eq] at heq
    exact hspace ((of_mem_words hword).2 c (heq ▸ hc))
  rw [getOffsets, List.filter_eq_nil_iff.mpr hnone] at hoffs
  obtain rfl : offs = List.toFinset [] := (Option.some.inj hoffs).symm
  have habsurd := (hmem pair.2).mpr ⟨pair.1, hpair, beq_self_eq_true _⟩
  exact absurd (List.mem_toFinset.mp habsurd) List.not_mem_nil

section Written

variable (hblankless : ∀ pair ∈ pairs, Blankless getEntity pair.1)
include hblankless

theorem blankless_of_mem_buckets {entry : List Char × List ℕ} (h : entry ∈ buckets pairs) :
    ∀ pId ∈ entry.2, Blankless getEntity pId := by
  intro pId hpId
  obtain ⟨offsets, hoffsets, -⟩ := exists_mem_buckets_iff.mp ⟨entry.2, h, hpId⟩
  obtain ⟨o, ho⟩ := exists_pair hoffsets
  exact hblankless _ ho

variable (hinjective : ∀ pair ∈ pairs, ∀ other ∈ pairs,
  fmriText getEntity pair.1 = fmriText getEntity other.1 → pair.1 = other.1)
include hinjective

/-- Two buckets are written under the same packages only if they are the same. -/
theorem bucket_eq_of_readEntry {first second : List Char × List ℕ} (hfirst : first ∈ buckets pairs)
    (hsecond : second ∈ buckets pairs)
    (h : (readEntry getEntity first).1 = (readEntry getEntity second).1) :
    first.1 = second.1 := by
  have hwords : first.2.map (fmriText getEntity) = second.2.map (fmriText getEntity) := by
    rw [← words_join (blankless_of_mem_buckets hblankless hfirst),
      ← words_join (blankless_of_mem_buckets hblankless hsecond)]
    exact congrArg (words Text.isSpace) h
  obtain ⟨pId, hpId⟩ := List.exists_mem_of_ne_nil _ (ne_nil_of_mem_buckets hfirst)
  obtain ⟨other, hother, htext⟩ :=
    List.mem_map.mp (hwords ▸ List.mem_map_of_mem (f := fmriText getEntity) hpId)
  obtain ⟨offsets, hoffsets, -⟩ := exists_mem_buckets_iff.mp ⟨first.2, hfirst, hpId⟩
  obtain ⟨offsets', hoffsets', -⟩ := exists_mem_buckets_iff.mp ⟨second.2, hsecond, hother⟩
  obtain ⟨o, ho⟩ := exists_pair hoffsets
  obtain ⟨o', ho'⟩ := exists_pair hoffsets'
  obtain rfl : other = pId := hinjective _ ho' _ ho htext
  exact bucket_unique hfirst hsecond hpId hother

/-- The file that was written is read back line by line. -/
theorem readDictFile_writeDictFile (versionNum : ℤ) :
    ((empty.addPairs pairs).writeDictFile getEntity versionNum).2.readDictFile
        ((empty.addPairs pairs).writeDictFile getEntity versionNum).1 =
      some { dict := (buckets pairs).map (readEntry getEntity), fmriOffsets := [] } := by
  have hlines : remainingLines ((empty.addPairs pairs).writeDictFile getEntity versionNum).1 =
      (buckets pairs).map fun entry ↦ makeLine getEntity entry.1 entry.2 ++ ['\n'] := by
    have hnotMem : ∀ name ∈ (buckets pairs).map fun entry ↦ makeLine getEntity entry.1 entry.2,
        '\n' ∉ name := by
      intro name hname
      obtain ⟨entry, hentry, rfl⟩ := List.mem_map.mp hname
      obtain ⟨offsets, htext⟩ := exists_bucketText hentry
      rw [htext]
      exact notMem_makeLine (blankless_of_mem_buckets hblankless hentry)
    exact (remainingLines_protectedWriteDictFile versionNum hnotMem).trans List.map_map
  have hentries :
      (remainingLines ((empty.addPairs pairs).writeDictFile getEntity versionNum).1).mapM
      splitLine =
      some ((buckets pairs).map (readEntry getEntity)) := by
    rw [hlines]
    refine Traverse.mapM_map_eq_map fun entry hentry ↦ ?_
    obtain ⟨offsets, htext⟩ := exists_bucketText hentry
    rw [htext, splitLine_makeLine, readEntry, htext]
  have hnodup : (([] ++ (buckets pairs).map (readEntry getEntity)).map Prod.fst).Nodup := by
    rw [List.nil_append, List.map_map]
    refine (List.Nodup.of_map Prod.fst (nodup_buckets pairs)).map_on fun first hfirst second
      hsecond h ↦ ?_
    exact List.inj_on_of_nodup_map (nodup_buckets pairs) hfirst hsecond
      (bucket_eq_of_readEntry hblankless hinjective hfirst hsecond h)
  have hdict : ((empty.addPairs pairs).writeDictFile getEntity versionNum).2.dict = [] :=
    dict_addPairs empty pairs
  rw [readDictFile, hentries, hdict, Option.bind_eq_bind, Option.bind_some,
    Dict.foldl_set_of_nodup hnodup]
  rfl

/-- Texts without white space are found again, with their offsets. -/
theorem recovered_of_blankless (versionNum : ℤ) : Recovered getEntity pairs versionNum := by
  intro matchFunc
  let lines := (buckets pairs).map (readEntry getEntity)
  have hlines : ∀ entry ∈ buckets pairs, ∀ pId ∈ entry.2, ∃ offsets,
      (pId, offsets) ∈ (empty.addPairs pairs).fmriOffsets ∧
        deDelta 0 (words Text.isSpace (readEntry getEntity entry).2) =
            some (sortedSet offsets) := by
    intro entry hentry pId hpId
    obtain ⟨offsets, hoffsets, htext⟩ := exists_mem_buckets_iff.mp ⟨entry.2, hentry, hpId⟩
    exact ⟨offsets, hoffsets, by rw [readEntry, ← htext, deDelta_bucketText]⟩
  have hmatches : ∀ entry ∈ buckets pairs,
      (words Text.isSpace (readEntry getEntity entry).1).any matchFunc = true ↔
      ∃ pId ∈ entry.2, matchFunc (fmriText getEntity pId) = true := by
    intro entry hentry
    rw [readEntry, words_join (blankless_of_mem_buckets hblankless hentry), List.any_map,
      List.any_eq_true]
    rfl
  obtain ⟨lists, hlists⟩ : ∃ lists,
      (lines.filter fun entry ↦ (words Text.isSpace entry.1).any matchFunc).mapM
      (fun entry ↦ deDelta 0 (words Text.isSpace entry.2)) = some lists := by
    refine Traverse.exists_mapM_iff.mpr fun line hline ↦ ?_
    obtain ⟨hline, hmatch⟩ := List.mem_filter.mp hline
    obtain ⟨entry, hentry, rfl⟩ := List.mem_map.mp hline
    obtain ⟨pId, hpId, -⟩ := (hmatches entry hentry).mp hmatch
    obtain ⟨offsets, -, hoffsets⟩ := hlines entry hentry pId hpId
    exact ⟨_, hoffsets⟩
  refine ⟨_, lists.flatten.toFinset, readDictFile_writeDictFile hblankless hinjective versionNum,
    ?_, fun o ↦ ?_⟩
  · rw [getOffsets, hlists]
    rfl
  rw [List.mem_toFinset, List.mem_flatten]
  constructor
  · rintro ⟨list, hlist, ho⟩
    obtain ⟨line, hline, hdecoded⟩ := (Traverse.mem_mapM hlists list).mp hlist
    obtain ⟨hline, hmatch⟩ := List.mem_filter.mp hline
    obtain ⟨entry, hentry, rfl⟩ := List.mem_map.mp hline
    obtain ⟨pId, hpId, hmatch⟩ := (hmatches entry hentry).mp hmatch
    obtain ⟨offsets, hmem, hoffsets⟩ := hlines entry hentry pId hpId
    obtain rfl : sortedSet offsets = list := Option.some.inj (hoffsets.symm.trans hdecoded)
    exact ⟨pId, (mem_addPairs hmem o).mp (mem_sortedSet.mp ho), hmatch⟩
  · rintro ⟨pId, hpair, hmatch⟩
    obtain ⟨offsets, hmem⟩ := exists_mem_addPairs hpair
    obtain ⟨pIds, hentry, hpId⟩ := exists_mem_buckets_iff.mpr ⟨offsets, hmem, rfl⟩
    have hline : readEntry getEntity (bucketText offsets, pIds) ∈ lines :=
      List.mem_map_of_mem hentry
    have hany := (hmatches _ hentry).mpr ⟨pId, hpId, hmatch⟩
    refine ⟨sortedSet offsets, (Traverse.mem_mapM hlists _).mpr ⟨_,
      List.mem_filter.mpr ⟨hline, hany⟩, ?_⟩, ?_⟩
    · rw [readEntry, deDelta_bucketText]
    · exact mem_sortedSet.mpr ((mem_addPairs hmem o).mpr hpair)

end Written

/-- Every predicate finds the offsets of its packages again exactly if no package that was added has
white space in its text. -/
theorem recovered_iff_blankless
    (hinjective : ∀ pair ∈ pairs, ∀ other ∈ pairs,
      fmriText getEntity pair.1 = fmriText getEntity other.1 → pair.1 = other.1) (versionNum : ℤ) :
    Recovered getEntity pairs versionNum ↔ ∀ pair ∈ pairs, Blankless getEntity pair.1 :=
  ⟨Recovered.blankless, fun hblankless ↦ recovered_of_blankless hblankless hinjective versionNum⟩

/-- Two packages that share an offset. -/
def twoPackages : ℕ → AcceptedFmri
  | 0 => acceptedName
  | _ => ⟨['m'], none, none, ⟨none, ['m'], none⟩, by decide +kernel⟩

theorem recovered_twoPackages : Recovered twoPackages [(0, 7), (1, 7), (0, 3)] 1 := by
  have hall : ∀ pair ∈ [(0, (7 : ℤ)), (1, 7), (0, 3)],
      (fmriText twoPackages pair.1).all (fun c ↦ Text.isSpace c == false) = true := by
    decide +kernel
  exact (recovered_iff_blankless (by decide +kernel) 1).mpr fun pair hpair c hc ↦
    beq_iff_eq.mp (List.all_eq_true.mp (hall pair hpair) c hc)

/-- A package whose name ends in a line break. -/
def brokenName : ℕ → AcceptedFmri
  | _ => ⟨"n\n@latest".toList, none, none, ⟨none, ['n', '\n'], none⟩, by decide +kernel⟩

/-- Its line is broken in two, and the file is not read. -/
theorem not_recovered_brokenName :
    (∀ pair ∈ [(0, (7 : ℤ))], ∀ other ∈ [(0, (7 : ℤ))],
      fmriText brokenName pair.1 = fmriText brokenName other.1 → pair.1 = other.1) ∧
    ¬ Recovered brokenName [(0, 7)] 1 := by
  refine ⟨by decide +kernel, fun h ↦ ?_⟩
  exact absurd (h.blankless (0, 7) List.mem_cons_self '\n' (by decide)) (by decide)

end RoundTrip

end InvertedDict

end Userland.Pkg.Search
