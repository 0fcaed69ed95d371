import Userland.Pkg.Versions.Fmri

/-!
# The order of FMRIs

`PkgFmri.__cmp__` of `pkg/fmri.py`, for FMRIs whose versions are plain. Publishers, names and
versions are compared one after the other, and `None` is below everything: the comparison is the one
of a key in a lexicographic product (`PlainFmri.cmp_lt_iff`). What the constructor accepts is plain
(`PlainFmri.read_map`).
-/

set_option autoImplicit false
set_option relaxedAutoImplicit false

namespace Userland.Pkg.Flyweight

/-- A `PkgFmri` of a process that holds no wildcard sequence for its texts. -/
structure PlainFmri where
  publisher : Option (List Char)
  pkgName : List Char
  version : Option PlainVersion
deriving DecidableEq

/-- The plain version of an object. -/
def PlainVersion.ofObject (object : VersionObject)
    (h : ∃ version : PlainVersion, version.object = object) : PlainVersion where
  object := object
  version := by obtain ⟨version, rfl⟩ := h; exact version.version
  release := by obtain ⟨version, rfl⟩ := h; exact version.release
  buildRelease := by obtain ⟨version, rfl⟩ := h; exact version.buildRelease
  branch := by obtain ⟨version, rfl⟩ := h; exact version.branch
  timestr := by obtain ⟨version, rfl⟩ := h; exact version.timestr

namespace PlainFmri

def object (fmri : PlainFmri) : FmriObject :=
  ⟨fmri.publisher, fmri.pkgName, fmri.version.map PlainVersion.object⟩

/-! ### Reading -/

/-- What the constructor accepts. -/
def ofAccepted (accepted : AcceptedFmri) : PlainFmri where
  publisher := accepted.fmri.publisher
  pkgName := accepted.fmri.pkgName
  version := accepted.fmri.version.pmap PlainVersion.ofObject fun _ h ↦
    exists_plain accepted.spec.2 h

theorem object_ofAccepted (accepted : AcceptedFmri) :
    (ofAccepted accepted).object = accepted.fmri := by
  obtain ⟨text, buildRelease, argument, ⟨publisher, name, _ | version⟩, h⟩ := accepted <;> rfl

/-- `PkgFmri(fmri, build_release, publisher)`; `none` is `IllegalFmri`. -/
def read (fmri : List Char) (buildRelease publisher : Option (List Char)) : Option PlainFmri :=
  match h : readFmri fmri buildRelease publisher with
  | some found => some (ofAccepted ⟨fmri, buildRelease, publisher, found, h⟩)
  | none => none

theorem read_map (fmri : List Char) (buildRelease publisher : Option (List Char)) :
    (read fmri buildRelease publisher).map object = readFmri fmri buildRelease publisher := by
  unfold read
  split
  · next found h => exact (congrArg some (object_ofAccepted _)).trans h.symm
  · next h => exact h.symm

/-! ### The order -/

/-- The publisher as the source compares it: `None` is below every text. -/
def publisherKey (fmri : PlainFmri) : WithBot (List Char) :=
  textKey fmri.publisher

/-- The version as the source compares it: `None` is below every version. -/
def versionKey (fmri : PlainFmri) :
    WithBot ((List (WithTop ℤ) ×ₗ WithBot (List (WithTop ℤ)) ×ₗ WithBot (List Char)) ×ₗ
      List (WithTop ℤ)) :=
  fmri.version.map PlainVersion.fullKey

/-- The name and the version, in this order. -/
def nameVersion (fmri : PlainFmri) : List Char ×ₗ
    WithBot ((List (WithTop ℤ) ×ₗ WithBot (List (WithTop ℤ)) ×ₗ WithBot (List Char)) ×ₗ
      List (WithTop ℤ)) :=
  toLex (fmri.pkgName, fmri.versionKey)

/-- What `cmp` compares. -/
def sortKey (fmri : PlainFmri) : WithBot (List Char) ×ₗ List Char ×ₗ
    WithBot ((List (WithTop ℤ) ×ₗ WithBot (List (WithTop ℤ)) ×ₗ WithBot (List Char)) ×ₗ
      List (WithTop ℤ)) :=
  toLex (fmri.publisherKey, fmri.nameVersion)

theorem textCmp_lt_iff {self other : Option (List Char)} :
    FmriObject.textCmp self other = .lt ↔ textKey self < textKey other := by
  rw [← timestrLt_iff, FmriObject.textCmp]
  split_ifs with heq hlt
  · refine iff_of_false (by decide) fun h ↦ ?_
    rw [heq, timestrLt_iff] at h
    exact lt_irrefl _ h
  · exact iff_of_true rfl hlt
  · exact iff_of_false (by decide) hlt

theorem textCmp_gt_iff {self other : Option (List Char)} :
    FmriObject.textCmp self other = .gt ↔ textKey other < textKey self := by
  have hlt := @textCmp_lt_iff self other
  have heq := @FmriObject.textCmp_eq_iff self other
  have hkey : textKey self = textKey other ↔ self = other := Iff.rfl
  rcases lt_trichotomy (textKey self) (textKey other) with h | h | h
  · exact iff_of_false (by rw [hlt.mpr h]; decide) h.asymm
  · exact iff_of_false (by rw [heq.mpr (hkey.mp h)]; decide) h.not_gt
  · refine iff_of_true ?_ h
    cases hcmp : FmriObject.textCmp self other with
    | lt => exact absurd (hlt.mp hcmp) h.asymm
    | eq => exact absurd (hkey.mpr (heq.mp hcmp)) h.ne'
    | gt => rfl

theorem versionCmp_lt_iff {self other : PlainFmri} :
    FmriObject.versionCmp self.object.version other.object.version = .lt ↔
      self.versionKey < other.versionKey := by
  unfold object versionKey
  rcases self.version with _ | self <;> rcases other.version with _ | other
  · exact iff_of_false (by simp [FmriObject.versionCmp]) (lt_irrefl _)
  · exact iff_of_true rfl (WithBot.bot_lt_coe _)
  · exact iff_of_false (by simp [FmriObject.versionCmp]) not_lt_bot
  · exact PlainVersion.cmpLt_iff.trans WithBot.coe_lt_coe.symm

theorem versionCmp_eq_iff {self other : PlainFmri} :
    FmriObject.versionCmp self.object.version other.object.version = .eq ↔
      self.versionKey = other.versionKey := by
  unfold object versionKey
  rcases self.version with _ | self <;> rcases other.version with _ | other
  · exact iff_of_true rfl rfl
  · exact iff_of_false (by simp [FmriObject.versionCmp]) WithBot.bot_ne_coe
  · exact iff_of_false (by simp [FmriObject.versionCmp]) WithBot.coe_ne_bot
  · exact PlainVersion.cmpEq_iff.trans WithBot.coe_inj.symm

/-- `PkgFmri.__cmp__` is the order of the key. -/
theorem cmp_lt_iff {self other : PlainFmri} :
    self.object.cmp other.object = .lt ↔ self.sortKey < other.sortKey := by
  simp only [FmriObject.cmp, Ordering.then_eq_lt, textCmp_lt_iff, FmriObject.textCmp_eq_iff,
    versionCmp_lt_iff, Option.some_inj, sortKey, nameVersion, Prod.Lex.toLex_lt_toLex]
  exact or_congr_right (and_congr_right fun _ ↦ or_congr_left WithBot.coe_lt_coe)

end PlainFmri

end Userland.Pkg.Flyweight
