import Mathlib.Data.Int.ConditionallyCompleteOrder
import Mathlib.Data.List.Lex
import Mathlib.Order.WithBot
import Userland.Library.Lexicographic
import Userland.Pkg.Flyweight.History

/-!
# The order of versions

`Version` of `pkg/version.py` has four comparison methods of its own, `__eq__`, `__lt__`, `__gt__`
and `__cmp__`; `<=` and `>=` have none and go to `__cmp__`. The first three look at the release, the
branch and the time string, and `__cmp__` breaks their ties by the build release.

Both are the order of a key in a lexicographic product (`PlainVersion.lt_iff`,
`PlainVersion.version_cmp_eq`), so the four methods are coherent and only the ties differ
(`PlainVersion.coherent`). Two versions that are equal need not be zero under `cmp`
(`PlainVersion.cmp_zero_not_eq`).

Scope. The sequences of a version are `DotSequence` objects, as in a process that holds no wildcard
sequence for their texts.
-/

set_option autoImplicit false
set_option relaxedAutoImplicit false

namespace Userland.Pkg.Flyweight

/-! ### Sequences as lists of a linear order -/

/-- The wildcard is above every number. -/
def Part.key : Part → WithTop ℤ
  | .num n => n
  | .star => ⊤

theorem Part.key_injective : Function.Injective Part.key := by
  intro a b h
  cases a <;> cases b <;> simp_all [Part.key]

theorem Part.lt_iff {a b : Part} : a.lt b = true ↔ a.key < b.key := by
  cases a <;> cases b <;> simp [Part.lt, Part.key]

/-- The comparison of lists is the lexicographic one. -/
theorem partsLt_iff {as bs : List Part} :
    partsLt as bs = true ↔ as.map Part.key < bs.map Part.key := by
  induction as generalizing bs with
  | nil => cases bs <;> simp [partsLt]
  | cons a as ih =>
    cases bs with
    | nil => simp [partsLt]
    | cons b bs =>
      rw [partsLt, List.map_cons, List.map_cons, List.cons_lt_cons_iff]
      by_cases hab : a = b
      · simp [hab, ih]
      · have hkey : a.key ≠ b.key := fun h ↦ hab (Part.key_injective h)
        simp [hab, hkey, Part.lt_iff]

namespace DotObject

/-- What the comparisons of two sequences look at. -/
def key (ds : DotObject) : List (WithTop ℤ) :=
  ds.parts.map Part.key

theorem lt_iff {self other : DotObject} : self.lt other = true ↔ self.key < other.key :=
  partsLt_iff

/-- Two sequences with the same components have the same key. -/
theorem key_eq_iff {self other : DotObject} : self.key = other.key ↔ self.parts = other.parts :=
  (List.map_injective_iff.mpr Part.key_injective).eq_iff

theorem numbers_ne_nil (n : ℤ) (ns : List ℤ) : (n :: ns).map Part.num ≠ [] := by
  simp

theorem star_notMem_numbers (n : ℤ) (ns : List ℤ) (_ : DotClass.dotSequence = .dotSequence) :
    Part.star ∉ (n :: ns).map Part.num := by
  simp

/-- A sequence without wildcard. -/
def ofNumbers (n : ℤ) (ns : List ℤ) : DotObject :=
  ⟨.dotSequence, (n :: ns).map .num, numbers_ne_nil n ns, star_notMem_numbers n ns⟩

end DotObject

/-- A version of a process that holds no wildcard sequence for its texts. -/
structure PlainVersion where
  object : VersionObject
  version : object.cls = .version
  release : object.release.cls = .dotSequence
  buildRelease : object.buildRelease.cls = .dotSequence
  branch : ∀ branch ∈ object.branch, branch.cls = .dotSequence
  timestr : ∀ timestr ∈ object.timestr, validTime timestr = true
deriving DecidableEq

theorem ne_nil_of_validTime {timestr : List Char} (h : validTime timestr = true) :
    timestr ≠ [] := by
  rintro rfl
  exact absurd h (by decide)

/-- A text as the source compares it: `None` is below every text. -/
def textKey (text : Option (List Char)) : WithBot (List Char) :=
  text

theorem timestrLt_iff {self other : Option (List Char)} :
    timestrLt self other = true ↔ textKey self < textKey other := by
  cases self with
  | none =>
    cases other with
    | none => exact iff_of_false (by simp [timestrLt]) (lt_irrefl _)
    | some other => exact iff_of_true rfl (WithBot.bot_lt_coe _)
  | some self =>
    cases other with
    | none => exact iff_of_false (by simp [timestrLt]) not_lt_bot
    | some other => exact decide_eq_true_iff.trans WithBot.coe_lt_coe.symm

/-- What `__hash__` hashes. -/
inductive HashKey
  | timestr (text : List Char)
  | sequences (release : List Part) (branch : Option (List Part))
deriving DecidableEq

namespace VersionObject

/-- `Version.__hash__`; an empty time string counts as absent. -/
def hashKey (self : VersionObject) : HashKey :=
  match self.timestr.filter (· ≠ []) with
  | some timestr => .timestr timestr
  | none => .sequences self.release.parts (self.branch.map DotObject.parts)

/-- `self <= other`, which `__cmp__` answers. -/
def le (self other : VersionObject) : Bool :=
  self.cmp other != .gt

/-- `self >= other`, which `__cmp__` answers. -/
def ge (self other : VersionObject) : Bool :=
  self.cmp other != .lt

end VersionObject

namespace PlainVersion

/-- The time string as the source compares it: `None` is below every text. -/
def timestrKey (version : PlainVersion) : WithBot (List Char) :=
  version.object.timestr

/-- The branch as the source compares it: `None` is below every sequence. -/
def branchKey (version : PlainVersion) : WithBot (List (WithTop ℤ)) :=
  version.object.branch.map DotObject.key

/-- What `<`, `>` and `==` compare. -/
def key (version : PlainVersion) :
    List (WithTop ℤ) ×ₗ WithBot (List (WithTop ℤ)) ×ₗ WithBot (List Char) :=
  toLex (version.object.release.key, toLex (version.branchKey, version.timestrKey))

/-- What `cmp` compares. -/
def fullKey (version : PlainVersion) :
    (List (WithTop ℤ) ×ₗ WithBot (List (WithTop ℤ)) ×ₗ WithBot (List Char)) ×ₗ List (WithTop ℤ) :=
  toLex (version.key, version.object.buildRelease.key)

variable {a b c : PlainVersion}

/-- Sequences without wildcard are equal if their components are. -/
theorem eq_iff_key {self other : DotObject} (hself : self.cls = .dotSequence)
    (hother : other.cls = .dotSequence) : self.eq other = true ↔ self.key = other.key := by
  rw [DotObject.key_eq_iff]
  simp [DotObject.eq, hself, hother]

theorem branch_lt_iff :
    optionalLt a.object.branch b.object.branch = true ↔ a.branchKey < b.branchKey := by
  unfold branchKey
  cases a.object.branch with
  | none =>
    cases b.object.branch with
    | none => exact iff_of_false (by simp [optionalLt]) (lt_irrefl _)
    | some other => exact iff_of_true rfl (WithBot.bot_lt_coe _)
  | some self =>
    cases b.object.branch with
    | none => exact iff_of_false (by simp [optionalLt]) not_lt_bot
    | some other => exact DotObject.lt_iff.trans WithBot.coe_lt_coe.symm

theorem branch_eq_iff :
    optionalEq a.object.branch b.object.branch = true ↔ a.branchKey = b.branchKey := by
  have ha := a.branch
  have hb := b.branch
  unfold branchKey
  cases hself : a.object.branch with
  | none =>
    cases b.object.branch with
    | none => exact iff_of_true rfl rfl
    | some other => exact iff_of_false (by simp [optionalEq]) (WithBot.coe_ne_bot).symm
  | some self =>
    cases hother : b.object.branch with
    | none => exact iff_of_false (by simp [optionalEq]) WithBot.coe_ne_bot
    | some other => exact (eq_iff_key (ha self hself) (hb other hother)).trans WithBot.coe_inj.symm

theorem timestr_lt_iff :
    timestrLt a.object.timestr b.object.timestr = true ↔ a.timestrKey < b.timestrKey :=
  timestrLt_iff

/-- `Version.__lt__` is the order of the key. -/
theorem versionLt_iff : a.object.versionLt b.object = true ↔ a.key < b.key :=
  Library.chainLt_iff DotObject.lt_iff (eq_iff_key a.release b.release) branch_lt_iff branch_eq_iff
    timestr_lt_iff

theorem lt_iff : a.object.lt b.object = true ↔ a.key < b.key := by
  rw [VersionObject.lt, a.version, b.version]
  exact versionLt_iff

theorem gt_iff : a.object.gt b.object = true ↔ b.key < a.key := by
  rw [VersionObject.gt, a.version, b.version]
  exact versionLt_iff

theorem eq_iff : a.object.eq b.object = true ↔ a.key = b.key := by
  simp only [VersionObject.eq, a.version, b.version, Bool.and_eq_true, branch_eq_iff,
    eq_iff_key a.release b.release, key, toLex_inj, Prod.mk.injEq, and_assoc, beq_iff_eq]
  rfl

/-- `Version.__cmp__` is the comparison of the key with the build release behind it. -/
theorem version_cmp_eq : a.object.cmp b.object = cmp a.fullKey b.fullKey :=
  Library.breakTies_eq_cmp lt_iff gt_iff DotObject.lt_iff DotObject.lt_iff

theorem cmpLt_iff : a.object.cmp b.object = .lt ↔ a.fullKey < b.fullKey := by
  rw [version_cmp_eq]
  exact cmp_eq_lt_iff _ _

theorem cmpGt_iff : a.object.cmp b.object = .gt ↔ b.fullKey < a.fullKey := by
  rw [version_cmp_eq]
  exact cmp_eq_gt_iff _ _

theorem cmpEq_iff : a.object.cmp b.object = .eq ↔ a.fullKey = b.fullKey := by
  rw [version_cmp_eq]
  exact cmp_eq_eq_iff _ _

theorem le_iff : a.object.le b.object = true ↔ a.fullKey ≤ b.fullKey := by
  rw [VersionObject.le, bne_iff_ne, ne_eq, cmpGt_iff, not_lt]

theorem ge_iff : a.object.ge b.object = true ↔ b.fullKey ≤ a.fullKey := by
  rw [VersionObject.ge, bne_iff_ne, ne_eq, cmpLt_iff, not_lt]

/-- Versions with the same key differ in nothing but the build release. -/
theorem parts_of_key_eq (h : a.key = b.key) :
    a.object.release.parts = b.object.release.parts ∧
      a.object.branch.map DotObject.parts = b.object.branch.map DotObject.parts ∧
      a.object.timestr = b.object.timestr := by
  simp only [key, toLex_inj, Prod.mk.injEq, DotObject.key_eq_iff] at h
  obtain ⟨hrelease, hbranch, htimestr⟩ := h
  refine ⟨hrelease, ?_, htimestr⟩
  have hkeys : a.object.branch.map DotObject.key = b.object.branch.map DotObject.key := hbranch
  cases hself : a.object.branch <;> cases hother : b.object.branch <;>
    simp_all [DotObject.key_eq_iff]

/-- Equal versions are hashed alike. -/
theorem hashKey_eq (h : a.key = b.key) : a.object.hashKey = b.object.hashKey := by
  obtain ⟨hrelease, hbranch, htimestr⟩ := parts_of_key_eq h
  unfold VersionObject.hashKey
  rw [htimestr, hrelease, hbranch]

end PlainVersion

/-! ### Coherence -/

/-- `<`, `==` and `>` of three versions. -/
structure Coherent (a b c : VersionObject) : Prop where
  trichotomy : (a.lt b = true ∧ a.eq b = false ∧ a.gt b = false) ∨
    (a.lt b = false ∧ a.eq b = true ∧ a.gt b = false) ∨
    (a.lt b = false ∧ a.eq b = false ∧ a.gt b = true)
  converse : a.lt b = true ↔ b.gt a = true
  trans : a.lt b = true → b.lt c = true → a.lt c = true
  hash : a.eq b = true → a.hashKey = b.hashKey

/-- `cmp`, `<=` and `>=` of three versions: the ties of `==` are broken by the build release. -/
structure TiesByBuild (a b c : VersionObject) : Prop where
  lt : a.cmp b = .lt ↔
    a.lt b = true ∨ (a.eq b = true ∧ a.buildRelease.lt b.buildRelease = true)
  eq : a.cmp b = .eq ↔ a.eq b = true ∧ a.buildRelease.eq b.buildRelease = true
  swap : a.cmp b = .gt ↔ b.cmp a = .lt
  le_total : a.le b = true ∨ b.le a = true
  le_trans : a.le b = true → b.le c = true → a.le c = true
  ge : a.ge b = true ↔ b.le a = true

namespace PlainVersion

theorem coherent (a b c : PlainVersion) : Coherent a.object b.object c.object := by
  constructor
  · simp only [← Bool.not_eq_true, lt_iff, gt_iff, eq_iff]
    rcases lt_trichotomy a.key b.key with hlt | heq | hgt
    · exact Or.inl ⟨hlt, hlt.ne, hlt.asymm⟩
    · exact Or.inr (Or.inl ⟨heq.not_lt, heq, heq.not_gt⟩)
    · exact Or.inr (Or.inr ⟨hgt.asymm, hgt.ne', hgt⟩)
  · rw [lt_iff, gt_iff]
  · simp only [lt_iff]
    exact lt_trans
  · exact fun h ↦ hashKey_eq (eq_iff.mp h)

theorem tiesByBuild (a b c : PlainVersion) : TiesByBuild a.object b.object c.object := by
  constructor
  · rw [cmpLt_iff, fullKey, fullKey, Prod.Lex.toLex_lt_toLex, lt_iff, eq_iff, DotObject.lt_iff]
  · rw [cmpEq_iff, fullKey, fullKey, toLex_inj, Prod.mk.injEq, eq_iff,
      eq_iff_key a.buildRelease b.buildRelease]
  · rw [cmpGt_iff, cmpLt_iff]
  · simp only [le_iff]
    exact le_total a.fullKey b.fullKey
  · simp only [le_iff]
    exact le_trans
  · rw [ge_iff, le_iff]

/-- The comparisons of versions are one total order up to the build release: `<`, `==` and `>` leave
the build release out, and `cmp`, `<=` and `>=` break the ties of `==` by it. -/
theorem one_order_up_to_build (a b c : PlainVersion) :
    Coherent a.object b.object c.object ∧ TiesByBuild a.object b.object c.object :=
  ⟨coherent a b c, tiesByBuild a b c⟩

/-- The version `5.11,1-branch.0`. -/
def ofBranch (branch : ℤ) : PlainVersion where
  object := ⟨.version, .ofNumbers 5 [11], .ofNumbers 1 [], some (.ofNumbers branch [0]), none⟩
  version := rfl
  release := rfl
  buildRelease := rfl
  branch := fun _ h ↦ by cases h; rfl
  timestr := fun _ h ↦ (nomatch h)

/-- The version `5.11,build`. -/
def builtOn (build : ℤ) : PlainVersion where
  object := ⟨.version, .ofNumbers 5 [11], .ofNumbers build [], none, none⟩
  version := rfl
  release := rfl
  buildRelease := rfl
  branch := fun _ h ↦ (nomatch h)
  timestr := fun _ h ↦ (nomatch h)

/-- `5.11,1` and `5.11,2` are equal, and `cmp` puts the first one below. -/
theorem cmp_zero_not_eq : ¬ ∀ a b : PlainVersion,
    (a.object.cmp b.object = .eq ↔ a.object.eq b.object = true) ∧
      (a.object.cmp b.object = .lt ↔ a.object.lt b.object = true) := by
  intro h
  have hzero := (h (builtOn 1) (builtOn 2)).1.mpr (by decide)
  revert hzero
  decide

end PlainVersion

end Userland.Pkg.Flyweight
