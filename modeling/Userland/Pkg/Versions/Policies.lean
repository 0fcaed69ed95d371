import Userland.Pkg.Versions.Order

/-!
# Version policies

The policies of `Version.is_successor`. `CONSTRAINT_RELEASE`, `CONSTRAINT_RELEASE_MINOR` and
`CONSTRAINT_RELEASE_MAJOR` test the releases from the strictest to the loosest. The policies on
branches are documented as the same tests of the branches behind equal releases. But the two looser
ones have the values of the policies on releases, which are tested first, and `CONSTRAINT_BRANCH`
does not look at the releases.

The policies are as documented exactly for versions with equal releases whose branches have the same
major and minor number, and for versions with different major numbers whose branches do not continue
each other (`documented_iff`).
-/

set_option autoImplicit false
set_option relaxedAutoImplicit false

namespace Userland.Pkg.Flyweight

/-- A version with a major and a minor number in its release and in its branch. -/
structure NumberedVersion extends PlainVersion where
  ownBranch : DotObject
  hasBranch : object.branch = some ownBranch
  releaseLength : 2 ≤ object.release.parts.length
  branchLength : 2 ≤ ownBranch.parts.length

namespace NumberedVersion

open VersionObject

/-- `self.is_successor(other, constraint)` is true. -/
def Succeeds (self other : VersionObject) (constraint : Constraint) : Prop :=
  self.isSuccessor other constraint = some true

instance (self other : VersionObject) (constraint : Constraint) :
    Decidable (Succeeds self other constraint) :=
  inferInstanceAs (Decidable (_ = some true))

/-- The version with its branch in the place of its release. -/
def branchAsRelease (version : NumberedVersion) : VersionObject :=
  { version.object with release := version.ownBranch }

/-- A policy on branches asks for equal releases, and for the policy on releases of its kind between
the branches. -/
def LikeRelease (a b : NumberedVersion) (onBranch onRelease : Constraint) : Prop :=
  Succeeds a.object b.object onBranch ↔
    a.object.release.eq b.object.release = true ∧
      Succeeds a.branchAsRelease b.branchAsRelease onRelease

/-- The policies as the docstring of `is_successor` describes them. -/
structure Documented (a b : NumberedVersion) : Prop where
  branch_minor : Succeeds a.object b.object constraintBranch →
    Succeeds a.object b.object constraintBranchMinor
  branch_major : Succeeds a.object b.object constraintBranchMinor →
    Succeeds a.object b.object constraintBranchMajor
  branch_release : Succeeds a.object b.object constraintBranchMajor →
    a.object.release.eq b.object.release = true
  release_minor : Succeeds a.object b.object constraintRelease →
    Succeeds a.object b.object constraintReleaseMinor
  release_major : Succeeds a.object b.object constraintReleaseMinor →
    Succeeds a.object b.object constraintReleaseMajor
  like_release : LikeRelease a b constraintBranch constraintRelease
  like_release_minor : LikeRelease a b constraintBranchMinor constraintReleaseMinor
  like_release_major : LikeRelease a b constraintBranchMajor constraintReleaseMajor

/-! ### Sequences with two numbers -/

/-- The major numbers are the same. -/
def SameMajor (self other : DotObject) : Prop :=
  self.parts[0]? = other.parts[0]?

/-- The major and the minor numbers are the same. -/
def SameMinor (self other : DotObject) : Prop :=
  self.parts.take 2 = other.parts.take 2

theorem SameMinor.sameMajor {self other : DotObject} (h : SameMinor self other) :
    SameMajor self other := by
  have := congrArg (·[0]?) h
  simpa [SameMajor] using this

/-- A sequence that continues another one has its major and minor number. -/
theorem sameMinor_of_isPrefix {self other : DotObject} (hlength : 2 ≤ self.parts.length)
    (h : self.parts <+: other.parts) : SameMinor self other := by
  obtain ⟨rest, hrest⟩ := h
  rw [SameMinor, ← hrest, List.take_append_of_le_length hlength]

section Sequences

variable {self other : DotObject} (hself : self.cls = .dotSequence)
include hself

theorem isSubsequence_iff : self.isSubsequence other = true ↔ self.parts <+: other.parts := by
  rw [DotObject.isSubsequence, hself]
  exact List.isPrefixOf_iff_prefix

theorem isSameMajor_iff : self.isSameMajor other = true ↔ SameMajor self other := by
  rw [DotObject.isSameMajor, hself]
  simp [SameMajor, List.head?_eq_getElem?]

theorem isSameMinor_iff (hlength : 2 ≤ self.parts.length) (hother : 2 ≤ other.parts.length) :
    self.isSameMinor other = some true ↔ SameMinor self other := by
  rw [DotObject.isSameMinor, hself, SameMinor]
  rcases hparts : self.parts with _ | ⟨a, _ | ⟨a', as⟩⟩
  · simp [hparts] at hlength
  · simp [hparts] at hlength
  rcases hparts' : other.parts with _ | ⟨b, _ | ⟨b', bs⟩⟩
  · simp [hparts'] at hother
  · simp [hparts'] at hother
  by_cases hab : a = b <;> simp [hab]

end Sequences

/-! ### The tests of the policies -/

variable {a b : NumberedVersion}

theorem ownBranch_cls (version : NumberedVersion) : version.ownBranch.cls = .dotSequence :=
  version.branch _ version.hasBranch

section Releases

variable {self other : VersionObject}

theorem succeeds_release (h : other.release.cls = .dotSequence) :
    Succeeds self other constraintRelease ↔ other.release.parts <+: self.release.parts := by
  rw [← isSubsequence_iff h]
  simp [Succeeds, isSuccessor, constraintNone, constraintAuto, constraintRelease]

theorem succeeds_releaseMajor (h : other.release.cls = .dotSequence) :
    Succeeds self other constraintReleaseMajor ↔ SameMajor other.release self.release := by
  rw [← isSameMajor_iff h]
  simp [Succeeds, isSuccessor, constraintNone, constraintAuto, constraintRelease,
    constraintReleaseMajor]

theorem succeeds_releaseMinor (h : other.release.cls = .dotSequence)
    (hself : 2 ≤ self.release.parts.length) (hother : 2 ≤ other.release.parts.length) :
    Succeeds self other constraintReleaseMinor ↔ SameMinor other.release self.release := by
  rw [← isSameMinor_iff h hother hself]
  simp [Succeeds, isSuccessor, constraintNone, constraintAuto, constraintRelease,
    constraintReleaseMajor, constraintReleaseMinor]

end Releases

/-- `CONSTRAINT_BRANCH` leaves the releases out. -/
theorem succeeds_branch : Succeeds a.object b.object constraintBranch ↔
    b.ownBranch.parts <+: a.ownBranch.parts := by
  rw [← isSubsequence_iff b.ownBranch_cls]
  simp [Succeeds, isSuccessor, constraintNone, constraintAuto, constraintRelease,
    constraintReleaseMajor, constraintReleaseMinor, constraintBranch, onBranch, a.hasBranch,
    b.hasBranch]

/-- `CONSTRAINT_BRANCH_MAJOR` tests the releases. -/
theorem succeeds_branchMajor : Succeeds a.object b.object constraintBranchMajor ↔
    SameMajor b.object.release a.object.release :=
  succeeds_releaseMajor b.release

/-- `CONSTRAINT_BRANCH_MINOR` tests the releases. -/
theorem succeeds_branchMinor : Succeeds a.object b.object constraintBranchMinor ↔
    SameMinor b.object.release a.object.release :=
  succeeds_releaseMinor b.release a.releaseLength b.releaseLength

/-- The policies on releases get looser as documented. -/
theorem release_minor (h : Succeeds a.object b.object constraintRelease) :
    Succeeds a.object b.object constraintReleaseMinor := by
  rw [succeeds_release b.release] at h
  rw [succeeds_releaseMinor b.release a.releaseLength b.releaseLength]
  exact sameMinor_of_isPrefix b.releaseLength h

theorem release_major (h : Succeeds a.object b.object constraintReleaseMinor) :
    Succeeds a.object b.object constraintReleaseMajor := by
  rw [succeeds_releaseMinor b.release a.releaseLength b.releaseLength] at h
  rw [succeeds_releaseMajor b.release]
  exact h.sameMajor

theorem releases_eq_iff :
    a.object.release.eq b.object.release = true ↔
    a.object.release.parts = b.object.release.parts := by
  rw [PlainVersion.eq_iff_key a.release b.release, DotObject.key_eq_iff]

/-! ### When the policies are as documented -/

/-- The policies are as documented exactly if the releases are equal and the branches have the same
major and minor number, or the releases have different major numbers and the branch of one version
does not continue the branch of the other. -/
theorem documented_iff (a b : NumberedVersion) : Documented a b ↔
    (a.object.release.eq b.object.release = true ∧
        b.ownBranch.isSameMinor a.ownBranch = some true) ∨
      (b.object.release.isSameMajor a.object.release = false ∧
        b.ownBranch.isSubsequence a.ownBranch = false) := by
  rw [isSameMinor_iff b.ownBranch_cls b.branchLength a.branchLength, ← Bool.not_eq_true,
    ← Bool.not_eq_true, isSameMajor_iff b.release, isSubsequence_iff b.ownBranch_cls]
  have hrelease := @succeeds_release a.branchAsRelease b.branchAsRelease b.ownBranch_cls
  have hmajor := @succeeds_releaseMajor a.branchAsRelease b.branchAsRelease b.ownBranch_cls
  have hminor := @succeeds_releaseMinor a.branchAsRelease b.branchAsRelease b.ownBranch_cls
    a.branchLength
    b.branchLength
  constructor
  · intro h
    by_cases heq : a.object.release.eq b.object.release = true
    · have hsame : Succeeds a.object b.object constraintBranchMinor := by
        rw [succeeds_branchMinor, SameMinor, releases_eq_iff.mp heq]
      exact Or.inl ⟨heq, hminor.mp (h.like_release_minor.mp hsame).2⟩
    · refine Or.inr ⟨fun hsame ↦ heq (h.branch_release (succeeds_branchMajor.mpr hsame)), ?_⟩
      exact fun hbegins ↦ heq (h.like_release.mp (succeeds_branch.mpr hbegins)).1
  · rintro (⟨heq, hsame⟩ | ⟨hdiffer, hbegins⟩)
    · have hparts := releases_eq_iff.mp heq
      have hnumbers : SameMinor b.object.release a.object.release := by rw [SameMinor, hparts]
      have hbranchMinor := succeeds_branchMinor.mpr hnumbers
      have hbranchMajor := succeeds_branchMajor.mpr hnumbers.sameMajor
      exact ⟨fun _ ↦ hbranchMinor, fun _ ↦ hbranchMajor, fun _ ↦ heq, release_minor, release_major,
        succeeds_branch.trans (hrelease.symm.trans (and_iff_right heq).symm),
        iff_of_true hbranchMinor ⟨heq, hminor.mpr hsame⟩,
        iff_of_true hbranchMajor ⟨heq, hmajor.mpr hsame.sameMajor⟩⟩
    · have hbranch : ¬ Succeeds a.object b.object constraintBranch :=
        fun h ↦ hbegins (succeeds_branch.mp h)
      have hbranchMajor : ¬ Succeeds a.object b.object constraintBranchMajor :=
        fun h ↦ hdiffer (succeeds_branchMajor.mp h)
      have hbranchMinor : ¬ Succeeds a.object b.object constraintBranchMinor :=
        fun h ↦ hdiffer (succeeds_branchMinor.mp h).sameMajor
      have hne : ¬ a.object.release.eq b.object.release = true := by
        intro heq
        exact hdiffer (by rw [SameMajor, releases_eq_iff.mp heq])
      exact ⟨fun h ↦ absurd h hbranch, fun h ↦ absurd h hbranchMinor, fun h ↦ absurd h hbranchMajor,
        release_minor, release_major, iff_of_false hbranch fun h ↦ hne h.1,
        iff_of_false hbranchMinor fun h ↦ hne h.1, iff_of_false hbranchMajor fun h ↦ hne h.1⟩

/-- The version `5.11,1-branch.0`. -/
def onBranchNumber (branch : ℤ) : NumberedVersion where
  toPlainVersion := .ofBranch branch
  ownBranch := .ofNumbers branch [0]
  hasBranch := rfl
  releaseLength := le_rfl
  branchLength := le_rfl

/-- `5.11,1-2.0` succeeds `5.11,1-1.0` under `CONSTRAINT_BRANCH_MAJOR`. -/
theorem not_documented_branches : ¬ ∀ a b : NumberedVersion, Documented a b := by
  intro h
  have hlike := (h (onBranchNumber 2) (onBranchNumber 1)).like_release_major
  have hbranch := (hlike.mp (by decide)).2
  revert hbranch
  decide

end NumberedVersion

end Userland.Pkg.Flyweight
