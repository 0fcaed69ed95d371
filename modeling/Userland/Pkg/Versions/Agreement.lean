import Userland.Pkg.Fmri
import Userland.Pkg.Versions.FmriOrder

/-!
# The documented versions

`Version` and `PkgFmri` of `pkg/version.py` and `pkg/fmri.py` are modelled twice: with the
components that `int` reads, and with documented digits only, where the components are natural
numbers. A text that is read by the second model is read by the first one, as the same version
(`readVersion_of_ofString`) and the same FMRI (`readFmri_of_ofString`).
-/

set_option autoImplicit false
set_option relaxedAutoImplicit false

namespace Userland.Pkg.Flyweight

/-- A sequence of natural numbers as an object. -/
def ofSequence (sequence : DotSequence) : DotObject where
  cls := .dotSequence
  parts := (sequence.parts.map Int.ofNat).map .num
  nonempty h := sequence.nonempty (List.map_eq_nil_iff.mp (List.map_eq_nil_iff.mp h))
  wildcardFree := by simp

/-- A version with natural numbers as an object. -/
def ofVersion (version : Version) : VersionObject where
  cls := .version
  release := ofSequence version.release
  buildRelease := ofSequence version.buildRelease
  branch := version.branch.map ofSequence
  timestr := version.timestr.map Timestr.text

/-- An FMRI with such a version as an object. -/
def ofPkgFmri (fmri : PkgFmri) : FmriObject where
  publisher := fmri.publisher.map String.toList
  pkgName := fmri.pkgName.toList
  version := fmri.version.map ofVersion

theorem mapM_dotsequenceVal {elems : List (List Char)} {parts : List ℕ}
    (h : elems.mapM DotSequence.dotsequenceVal = some parts) :
    elems.mapM dotsequenceVal = some (parts.map Int.ofNat) := by
  induction elems generalizing parts with
  | nil =>
    cases h
    rfl
  | cons elem rest ih =>
    rw [List.mapM_cons] at h ⊢
    obtain ⟨n, hn, h⟩ := Option.bind_eq_some_iff.mp h
    obtain ⟨ns, hns, h⟩ := Option.bind_eq_some_iff.mp h
    cases h
    rw [dotsequenceVal_of_digits hn, ih hns]
    rfl

theorem init_of_ofString {dotstring : List Char} {sequence : DotSequence}
    (h : DotSequence.ofString dotstring = some sequence) :
    DotObject.init .dotSequence dotstring = .ok (ofSequence sequence) := by
  unfold DotSequence.ofString at h
  split at h
  · cases h
  · cases h
  · next x xs hparts =>
    cases h
    unfold DotObject.init
    simp only [mapM_dotsequenceVal hparts]
    rfl

theorem readOptional_of_branchOfString {text : Option (List Char)} {branch : Option DotSequence}
    (h : Version.branchOfString text = some branch) :
    readOptional text = .ok (branch.map ofSequence) := by
  cases text with
  | none =>
    cases h
    rfl
  | some text =>
    obtain ⟨sequence, hsequence, rfl⟩ := Option.map_eq_some_iff.mp h
    rw [readOptional, init_of_ofString hsequence]
    rfl

theorem valid_of_timestrOfString {text : Option (List Char)} {timestr : Option Timestr}
    (h : Version.timestrOfString text = some timestr) :
    timestr.map Timestr.text = text ∧ (text.map validTime).getD true = true := by
  cases text with
  | none =>
    cases h
    exact ⟨rfl, rfl⟩
  | some text =>
    simp only [Version.timestrOfString] at h
    split_ifs at h with hvalid
    cases h
    exact ⟨rfl, validTime_of_validTimestr hvalid⟩

/-- A documented version text is read as the same version. -/
theorem readVersion_of_ofString {text : List Char} {buildString : Option (List Char)}
    {version : Version} (h : Version.ofString text buildString = some version) :
    readVersion text buildString = some (ofVersion version) := by
  unfold Version.ofString at h
  refine readVersion_iff.mpr ?_
  unfold versionTexts
  by_cases hempty : text = []
  · rw [if_pos hempty] at h
    cases h
  rw [if_neg hempty] at h
  dsimp only at h
  split_ifs at h with hrelease
  · cases h
  obtain ⟨release, hfirst, h⟩ := Option.bind_eq_some_iff.mp h
  obtain ⟨branch, hbranch, h⟩ := Option.bind_eq_some_iff.mp h
  obtain ⟨build, hbuild, h⟩ := Option.bind_eq_some_iff.mp h
  obtain ⟨buildRelease, hsecond, h⟩ := Option.bind_eq_some_iff.mp h
  obtain ⟨timestr, htimestr, h⟩ := Option.bind_eq_some_iff.mp h
  cases h
  obtain ⟨htext, hvalid⟩ := valid_of_timestrOfString htimestr
  refine ⟨⟨_, _, _, _⟩, ?_, rfl, init_of_ofString hfirst, readOptional_of_branchOfString hbranch,
    ⟨build, hbuild, init_of_ofString hsecond⟩, htext, hvalid⟩
  rw [if_neg hempty, if_neg hrelease]
  rfl

/-- A documented FMRI text is read as the same FMRI. -/
theorem readFmri_of_ofString {text : String} {buildRelease publisher : Option String}
    {fmri : PkgFmri} (h : PkgFmri.ofString text buildRelease publisher = some fmri) :
    readFmri text.toList (buildRelease.map String.toList) (publisher.map String.toList) =
      some (ofPkgFmri fmri) := by
  unfold PkgFmri.ofString at h
  unfold readFmri
  have hspace : text.toList.rdropWhile isSpace = text.toList.rdropWhile Text.isSpace := rfl
  rw [hspace]
  generalize text.toList.rdropWhile Text.isSpace = stripped at h ⊢
  obtain ⟨⟨veridx, nameidx⟩, hidx, h⟩ := Option.bind_eq_some_iff.mp h
  dsimp only at h
  obtain ⟨version, hversion, hname, rfl⟩ : ∃ version,
      readVersionPart (buildRelease.map String.toList) (veridx.map fun veridx ↦
        Version.slice stripped (veridx + 1) none) = some (version.map ofVersion) ∧
      PkgFmri.validPkgName (Version.slice stripped nameidx veridx) = true ∧
      fmri = ⟨if "pkg://".toList.isPrefixOf stripped then
          some (String.ofList (Version.slice stripped 6 (some (nameidx - 1)))) else publisher,
        String.ofList (Version.slice stripped nameidx veridx), version⟩ := by
    cases veridx with
    | none =>
      obtain ⟨version, hversion, h⟩ := Option.bind_eq_some_iff.mp h
      obtain ⟨hname, heq⟩ := Option.ite_none_right_eq_some.mp h
      cases hversion
      exact ⟨none, rfl, hname, (Option.some.inj heq).symm⟩
    | some veridx =>
      simp only [Option.map_some, readVersionPart]
      have hslice : Version.slice stripped (veridx + 1) none = stripped.drop (veridx + 1) := rfl
      rw [hslice]
      dsimp only at h
      by_cases hlatest : stripped.drop (veridx + 1) = "latest".toList
      · rw [if_pos hlatest] at h ⊢
        obtain ⟨version, hversion, h⟩ := Option.bind_eq_some_iff.mp h
        obtain ⟨hname, heq⟩ := Option.ite_none_right_eq_some.mp h
        cases hversion
        exact ⟨none, rfl, hname, (Option.some.inj heq).symm⟩
      · rw [if_neg hlatest] at h ⊢
        obtain ⟨version, hversion, h⟩ := Option.bind_eq_some_iff.mp h
        obtain ⟨hname, heq⟩ := Option.ite_none_right_eq_some.mp h
        obtain ⟨found, hfound, rfl⟩ := Option.map_eq_some_iff.mp hversion
        refine ⟨some found, ?_, hname, (Option.some.inj heq).symm⟩
        rw [readVersion_of_ofString hfound]
        rfl
  have hvalid : matchesPkgName (Version.slice stripped nameidx veridx) = true := by
    rw [matchesPkgName, hname, Bool.true_or]
  have hne : Version.slice stripped nameidx veridx ≠ [] := by
    intro hnil
    rw [hnil] at hname
    exact absurd hname (by decide)
  simp only [hidx, Option.bind_eq_bind, Option.bind_some, hversion, hne, hvalid, ofPkgFmri,
    Bool.not_true, Bool.false_eq_true, or_self, if_false, String.toList_ofList]
  split_ifs <;> simp

end Userland.Pkg.Flyweight
