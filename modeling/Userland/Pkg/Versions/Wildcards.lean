import Userland.Library.Tiers
import Userland.Pkg.Versions.Order

/-!
# The order of wildcard versions

`MatchingVersion` of `pkg/version.py`. Its `__eq__` takes a `*` for anything, component by
component, and its `__lt__` and `__gt__` compare the sequences as lists, in which a number is below
`*`. The tests of a sequence for the text `*` never hold, and a component that `==` passes is not
the end of a comparison.

At most one of `<`, `==` and `>` holds of two versions, and a lone `*` is below anything else,
exactly if the versions are the same, or `==` tells them apart, the components up to the first one
told apart are ordered one way, and a lone `*` in the first one that differs stands on the lesser
side (`wellOrdered_iff`).
-/

set_option autoImplicit false
set_option relaxedAutoImplicit false

namespace Userland.Pkg.Flyweight

open Library

/-! ### Equality of sequences -/

/-- `==`, or one of the two is the wildcard, whichever side it stands on. -/
theorem beq_or_wildcard_comm {α : Type} [BEq α] [LawfulBEq α] (a b wildcard : α) :
    (a == b || a == wildcard || b == wildcard) = (b == a || b == wildcard || a == wildcard) := by
  rw [BEq.comm (a := a) (b := b), Bool.or_assoc, Bool.or_assoc, Bool.or_comm (a == wildcard)]

theorem matchingEq_comm (self other : List Part) :
    DotObject.matchingEq self other = DotObject.matchingEq other self := by
  unfold DotObject.matchingEq
  rw [max_comm]
  congr 1
  funext i
  cases self[i]? with
  | none =>
    cases other[i]? with
    | none => rfl
    | some b => exact Bool.or_comm _ _
  | some a =>
    cases other[i]? with
    | none => exact Bool.or_comm _ _
    | some b => exact beq_or_wildcard_comm a b .star

theorem matchingEq_self (parts : List Part) : DotObject.matchingEq parts parts = true := by
  unfold DotObject.matchingEq
  rw [List.all_eq_true]
  intro i _
  cases parts[i]? <;> simp

theorem DotObject.eq_comm (self other : DotObject) : self.eq other = other.eq self := by
  unfold DotObject.eq
  cases self.cls with
  | matchingDotSequence =>
    cases other.cls with
    | matchingDotSequence => exact matchingEq_comm self.parts other.parts
    | dotSequence => rfl
  | dotSequence =>
    cases other.cls with
    | matchingDotSequence => rfl
    | dotSequence => exact BEq.comm

theorem DotObject.eq_of_parts {self other : DotObject} (h : self.parts = other.parts) :
    self.eq other = true := by
  unfold DotObject.eq
  cases self.cls <;> cases other.cls <;> simp [h, matchingEq_self]

/-- A `MatchingVersion`. Absent components are wildcards. -/
structure WildcardVersion where
  object : VersionObject
  matching : object.cls = .matchingVersion
  branch : DotObject
  timestr : List Char
  hasBranch : object.branch = some branch
  hasTimestr : object.timestr = some timestr

/-- A component of a version. -/
inductive Component
  | sequence (ds : DotObject)
  | timestr (text : List Char)

namespace Component

/-- `==` of a component. -/
def eq : Component → Component → Bool
  | .sequence self, .sequence other => self.eq other
  | .timestr self, .timestr other => self == other || self == ['*'] || other == ['*']
  | _, _ => false

/-- `<` of a component, as lists or as texts. -/
def lt : Component → Component → Bool
  | .sequence self, .sequence other => self.lt other
  | .timestr self, .timestr other => self < other
  | _, _ => false

/-- The components are the same. -/
def same : Component → Component → Bool
  | .sequence self, .sequence other => self.parts == other.parts
  | .timestr self, .timestr other => self == other
  | _, _ => false

/-- The component is the wildcard alone. -/
def IsWildcard : Component → Prop
  | .sequence ds => ds.parts = [.star]
  | .timestr text => text = ['*']

/-- The components of the same attribute of two versions. -/
def SameKind : Component → Component → Prop
  | .sequence _, .sequence _ => True
  | .timestr _, .timestr _ => True
  | _, _ => False

theorem eq_comm (x y : Component) : x.eq y = y.eq x := by
  cases x with
  | sequence self =>
    cases y with
    | sequence other => exact DotObject.eq_comm self other
    | timestr other => rfl
  | timestr self =>
    cases y with
    | sequence other => rfl
    | timestr other => exact beq_or_wildcard_comm self other ['*']

theorem eq_of_same {x y : Component} (h : x.same y = true) : x.eq y = true := by
  cases x <;> cases y <;> simp_all [Component.eq, same, DotObject.eq_of_parts]

/-- Components of the same attribute are the same, or ordered one way. -/
theorem trichotomy {x y : Component} (h : SameKind x y) :
    (x.same y = true ∧ x.lt y = false ∧ y.lt x = false) ∨
      (x.same y = false ∧ x.lt y = true ∧ y.lt x = false) ∨
      (x.same y = false ∧ x.lt y = false ∧ y.lt x = true) := by
  cases x with
  | sequence self =>
    cases y with
    | timestr other => exact absurd h id
    | sequence other =>
      simp only [same, lt, ← Bool.not_eq_true, DotObject.lt_iff, beq_iff_eq,
        ← DotObject.key_eq_iff]
      rcases lt_trichotomy self.key other.key with hlt | heq | hgt
      · exact Or.inr (Or.inl ⟨hlt.ne, hlt, hlt.asymm⟩)
      · exact Or.inl ⟨heq, heq.not_lt, heq.not_gt⟩
      · exact Or.inr (Or.inr ⟨hgt.ne', hgt.asymm, hgt⟩)
  | timestr self =>
    cases y with
    | sequence other => exact absurd h id
    | timestr other =>
      simp only [same, lt, ← Bool.not_eq_true, decide_eq_true_eq, beq_iff_eq]
      rcases lt_trichotomy self other with hlt | heq | hgt
      · exact Or.inr (Or.inl ⟨hlt.ne, hlt, hlt.asymm⟩)
      · exact Or.inl ⟨heq, heq.not_lt, heq.not_gt⟩
      · exact Or.inr (Or.inr ⟨hgt.ne', hgt.asymm, hgt⟩)

end Component

namespace WildcardVersion

variable {a b : WildcardVersion}

/-- The components in the order they are compared in. -/
def components (version : WildcardVersion) : List Component :=
  [.sequence version.object.release, .sequence version.object.buildRelease,
    .sequence version.branch, .timestr version.timestr]

/-- The components of two versions, side by side. -/
def pairs (a b : WildcardVersion) : List (Component × Component) :=
  a.components.zip b.components

theorem sameKind_of_mem {pair : Component × Component} (h : pair ∈ pairs a b) :
    Component.SameKind pair.1 pair.2 := by
  simp only [pairs, components, List.zip_cons_cons, List.zip_nil_right, List.mem_cons,
    List.not_mem_nil, or_false] at h
  rcases h with rfl | rfl | rfl | rfl <;> exact trivial

theorem pairs_swap (a b : WildcardVersion) : pairs b a = (pairs a b).map Prod.swap := rfl

/-- `MatchingVersion.__eq__` asks every component. -/
theorem eq_iff : a.object.eq b.object = true ↔ ∀ pair ∈ pairs a b, pair.1.eq pair.2 = true := by
  simp [VersionObject.eq, a.matching, b.matching, a.hasBranch, b.hasBranch, a.hasTimestr,
    b.hasTimestr, pairs, components, Component.eq, optionalEq, and_assoc]

theorem eq_comm (a b : WildcardVersion) : a.object.eq b.object = b.object.eq a.object := by
  rw [Bool.eq_iff_iff, eq_iff, eq_iff, pairs_swap a b, List.forall_mem_map]
  exact forall₂_congr fun pair _ ↦ by rw [Prod.fst_swap, Prod.snd_swap, Component.eq_comm]

/-- The time string of `a` is the wildcard, and the other one is not. -/
def TimeIsWildcard (a b : WildcardVersion) : Prop :=
  a.timestr = ['*'] ∧ b.timestr ≠ ['*']

/-- `<` is the chain of the comparisons of the components, and a wildcard for the time settles it.
-/
theorem lt_iff : a.object.lt b.object = true ↔
    chainLess Component.eq Component.lt (pairs a b) = true ∨
      (a.object.eq b.object = true ∧ TimeIsWildcard a b) := by
  rw [eq_iff]
  simp only [VersionObject.lt, a.matching, b.matching, VersionObject.matchingVersionLt, a.hasBranch,
    b.hasBranch, a.hasTimestr, b.hasTimestr, optionalLt, optionalEq, timestrLt, pairs, components,
    List.zip_cons_cons, List.zip_nil_right, chainLess, Component.eq, Component.lt,
    List.forall_mem_cons, TimeIsWildcard]
  split_ifs <;> simp_all

/-- `>` is the chain from the other side, unless a wildcard for the time settles it. -/
theorem chainLess_of_gt (h : a.object.gt b.object = true) :
    chainLess Component.eq Component.lt (pairs b a) = true := by
  revert h
  simp only [VersionObject.gt, a.matching, b.matching, VersionObject.matchingVersionGt, a.hasBranch,
    b.hasBranch, a.hasTimestr, b.hasTimestr, optionalLt, optionalEq, timestrLt, pairs, components,
    List.zip_cons_cons, List.zip_nil_right, chainLess, Component.eq, Component.lt,
    DotObject.eq_comm b.object.release, DotObject.eq_comm b.object.buildRelease,
    DotObject.eq_comm b.branch]
  split_ifs <;> simp_all

theorem gt_of_chainLess (h : chainLess Component.eq Component.lt (pairs b a) = true)
    (htime : ¬ (a.object.eq b.object = true ∧ TimeIsWildcard a b)) :
    a.object.gt b.object = true := by
  revert h htime
  rw [eq_iff]
  simp only [VersionObject.gt, a.matching, b.matching, VersionObject.matchingVersionGt, a.hasBranch,
    b.hasBranch, a.hasTimestr, b.hasTimestr, optionalLt, optionalEq, timestrLt, pairs, components,
    List.zip_cons_cons, List.zip_nil_right, chainLess, Component.eq, Component.lt,
    DotObject.eq_comm b.object.release, DotObject.eq_comm b.object.buildRelease,
    DotObject.eq_comm b.branch, List.forall_mem_cons, TimeIsWildcard]
  split_ifs <;> simp_all
  tauto

/-- What is compared, from the other side. -/
theorem exists_compared_swap :
    (∃ pair ∈ compared Component.eq (pairs b a), pair.1.lt pair.2 = true) ↔
      ∃ pair ∈ compared Component.eq (pairs a b), pair.2.lt pair.1 = true := by
  rw [pairs_swap a b, compared_swap Component.eq_comm]
  simp only [List.mem_map, Prod.exists, Prod.swap_prod_mk, Prod.mk.injEq]
  constructor
  · rintro ⟨x, y, ⟨first, second, hmem, rfl, rfl⟩, hlt⟩
    exact ⟨first, second, hmem, hlt⟩
  · rintro ⟨first, second, hmem, hlt⟩
    exact ⟨second, first, ⟨first, second, hmem, rfl, rfl⟩, hlt⟩

/-! ### The documented order -/

/-- The first pair of components that differ. -/
def firstDifference (a b : WildcardVersion) : Option (Component × Component) :=
  (pairs a b).find? fun pair ↦ !pair.1.same pair.2

/-- At most one of `<`, `==` and `>` holds, `<` and `>` are the same from either side, and a version
is below another one if the first component that differs is the wildcard of one of them alone. -/
structure WellOrdered (a b : WildcardVersion) : Prop where
  not_lt_gt : ¬ (a.object.lt b.object = true ∧ a.object.gt b.object = true)
  not_lt_eq : ¬ (a.object.lt b.object = true ∧ a.object.eq b.object = true)
  not_eq_gt : ¬ (a.object.eq b.object = true ∧ a.object.gt b.object = true)
  converse : a.object.lt b.object = true ↔ b.object.gt a.object = true
  wildcard_lt : ∀ pair ∈ firstDifference a b, pair.1.IsWildcard → ¬ pair.2.IsWildcard →
    a.object.lt b.object = true
  lt_wildcard : ∀ pair ∈ firstDifference a b, pair.2.IsWildcard → ¬ pair.1.IsWildcard →
    b.object.lt a.object = true

/-- `==` tells a component apart, the components up to it are ordered one way, and if the first one
that differs is the wildcard of one side alone, this is the lesser side. -/
structure OneWay (a b : WildcardVersion) : Prop where
  apart : ∃ pair ∈ pairs a b, pair.1.eq pair.2 = false
  oneWay : (∀ pair ∈ compared Component.eq (pairs a b), pair.2.lt pair.1 = false) ∨
    ∀ pair ∈ compared Component.eq (pairs a b), pair.1.lt pair.2 = false
  wildcard_lt : ∀ pair ∈ firstDifference a b, pair.1.IsWildcard → ¬ pair.2.IsWildcard →
    pair.1.lt pair.2 = true
  lt_wildcard : ∀ pair ∈ firstDifference a b, pair.2.IsWildcard → ¬ pair.1.IsWildcard →
    pair.2.lt pair.1 = true

theorem firstDifference_mem {pair : Component × Component} (h : pair ∈ firstDifference a b) :
    pair ∈ compared Component.eq (pairs a b) ∧ pair.1.same pair.2 = false := by
  obtain ⟨hpair, before, after, hpairs, hbefore⟩ := List.find?_eq_some_iff_append.mp h
  refine ⟨?_, by simpa using hpair⟩
  rw [hpairs]
  exact mem_compared_append fun other hother ↦
    Component.eq_of_same (by simpa using hbefore other hother)

theorem lt_iff_of_apart (h : a.object.eq b.object = false) : a.object.lt b.object = true ↔
    ∃ pair ∈ compared Component.eq (pairs a b), pair.1.lt pair.2 = true := by
  rw [lt_iff, chainLess_iff]
  simp [h]

theorem gt_iff_of_apart (h : a.object.eq b.object = false) : a.object.gt b.object = true ↔
    ∃ pair ∈ compared Component.eq (pairs a b), pair.2.lt pair.1 = true := by
  rw [← exists_compared_swap, ← chainLess_iff]
  exact ⟨chainLess_of_gt, fun hchain ↦ gt_of_chainLess hchain (by simp [h])⟩

/-- Versions with the same components are equal, and neither is below the other. -/
theorem wellOrdered_of_same (h : ∀ pair ∈ pairs a b, pair.1.same pair.2 = true) :
    WellOrdered a b := by
  have hneither : ∀ pair ∈ pairs a b, pair.1.lt pair.2 = false ∧ pair.2.lt pair.1 = false := by
    intro pair hpair
    have hsame := h pair hpair
    rcases Component.trichotomy (sameKind_of_mem hpair) with htri | htri | htri
    · exact htri.2
    · exact absurd hsame (by simp [htri.1])
    · exact absurd hsame (by simp [htri.1])
  have hforward : ¬ chainLess Component.eq Component.lt (pairs a b) = true := by
    rw [chainLess_iff]
    rintro ⟨pair, hpair, hlt⟩
    exact absurd hlt (by simp [(hneither pair (mem_of_mem_compared hpair)).1])
  have hbackward : ¬ chainLess Component.eq Component.lt (pairs b a) = true := by
    rw [chainLess_iff, exists_compared_swap]
    rintro ⟨pair, hpair, hlt⟩
    exact absurd hlt (by simp [(hneither pair (mem_of_mem_compared hpair)).2])
  have htimestr : a.timestr = b.timestr := by
    simpa [pairs, components, Component.same] using
      h (.timestr a.timestr, .timestr b.timestr) (by simp [pairs, components])
  have hlt : ¬ a.object.lt b.object = true := by
    rw [lt_iff]
    rintro (hchain | ⟨-, hstar, hother⟩)
    · exact hforward hchain
    · exact hother (htimestr ▸ hstar)
  have hgt : ¬ a.object.gt b.object = true := fun hgt ↦ hbackward (chainLess_of_gt hgt)
  have hdifference : firstDifference a b = none := by
    simp only [firstDifference, List.find?_eq_none, Bool.not_eq_true', Bool.not_eq_false]
    exact h
  refine ⟨fun hboth ↦ hlt hboth.1, fun hboth ↦ hlt hboth.1, fun hboth ↦ hgt hboth.2,
    iff_of_false hlt fun hother ↦ hforward (chainLess_of_gt hother), ?_, ?_⟩
  · simp [hdifference]
  · simp [hdifference]

/-- Equal versions are ordered as documented only if they are the same. -/
theorem same_of_wellOrdered (heq : a.object.eq b.object = true) (h : WellOrdered a b) :
    ∀ pair ∈ pairs a b, pair.1.same pair.2 = true := by
  have hall := compared_eq_self (eq_iff.mp heq)
  have hlt : ¬ a.object.lt b.object = true := fun hlt ↦ h.not_lt_eq ⟨hlt, heq⟩
  have hgt : ¬ a.object.gt b.object = true := fun hgt ↦ h.not_eq_gt ⟨heq, hgt⟩
  intro pair hpair
  rcases Component.trichotomy (sameKind_of_mem hpair) with hsame | hless | hgreater
  · exact hsame.1
  · exact absurd (lt_iff.mpr (Or.inl (chainLess_iff.mpr ⟨pair, by rwa [hall], hless.2.1⟩))) hlt
  · refine absurd (gt_of_chainLess ?_ fun htime ↦ hlt (lt_iff.mpr (Or.inr htime))) hgt
    rw [chainLess_iff, exists_compared_swap]
    exact ⟨pair, by rwa [hall], hgreater.2.2⟩

/-- Versions that are told apart are ordered as documented exactly if they are one-way. -/
theorem wellOrdered_iff_oneWay (h : a.object.eq b.object = false) :
    WellOrdered a b ↔ OneWay a b := by
  have hlt := lt_iff_of_apart h
  have hgt := gt_iff_of_apart h
  have hlt' : b.object.lt a.object = true ↔ a.object.gt b.object = true := by
    rw [hgt, ← exists_compared_swap, lt_iff_of_apart (by rw [eq_comm, h])]
  have hgt' : b.object.gt a.object = true ↔ a.object.lt b.object = true := by
    rw [hlt, gt_iff_of_apart (by rw [eq_comm, h]), exists_compared_swap]
  have hkind : ∀ pair ∈ compared Component.eq (pairs a b), Component.SameKind pair.1 pair.2 :=
    fun pair hpair ↦ sameKind_of_mem (mem_of_mem_compared hpair)
  constructor
  · intro horder
    refine ⟨?_, ?_, ?_, ?_⟩
    · rw [← Bool.not_eq_true, eq_iff] at h
      push Not at h
      simpa only [Bool.not_eq_true, exists_prop] using h
    · by_contra hboth
      push Not at hboth
      obtain ⟨⟨greater, hgreater, hgreaterLt⟩, less, hless, hlessLt⟩ := hboth
      exact horder.not_lt_gt ⟨hlt.mpr ⟨less, hless, by simpa using hlessLt⟩,
        hgt.mpr ⟨greater, hgreater, by simpa using hgreaterLt⟩⟩
    · intro pair hpair hstar hother
      obtain ⟨hmem, hdiffer⟩ := firstDifference_mem hpair
      have hless := horder.wildcard_lt pair hpair hstar hother
      rcases Component.trichotomy (hkind pair hmem) with htri | htri | htri
      · exact absurd htri.1 (by simp [hdiffer])
      · exact htri.2.1
      · exact absurd ⟨hless, hgt.mpr ⟨pair, hmem, htri.2.2⟩⟩ horder.not_lt_gt
    · intro pair hpair hstar hother
      obtain ⟨hmem, hdiffer⟩ := firstDifference_mem hpair
      have hless := hlt'.mp (horder.lt_wildcard pair hpair hstar hother)
      rcases Component.trichotomy (hkind pair hmem) with htri | htri | htri
      · exact absurd htri.1 (by simp [hdiffer])
      · exact absurd ⟨hlt.mpr ⟨pair, hmem, htri.2.1⟩, hless⟩ horder.not_lt_gt
      · exact htri.2.2
  · intro hway
    refine ⟨?_, by simp [h], by simp [h], hgt'.symm, ?_, ?_⟩
    · rintro ⟨hless, hgreater⟩
      obtain ⟨less, hmem, hlessLt⟩ := hlt.mp hless
      obtain ⟨greater, hmem', hgreaterLt⟩ := hgt.mp hgreater
      rcases hway.oneWay with hnone | hnone
      · exact absurd hgreaterLt (by simp [hnone greater hmem'])
      · exact absurd hlessLt (by simp [hnone less hmem])
    · intro pair hpair hstar hother
      exact hlt.mpr ⟨pair, (firstDifference_mem hpair).1, hway.wildcard_lt pair hpair hstar hother⟩
    · intro pair hpair hstar hother
      exact hlt'.mpr (hgt.mpr
        ⟨pair, (firstDifference_mem hpair).1, hway.lt_wildcard pair hpair hstar hother⟩)

/-- The order of two versions is as documented exactly if they are the same, or one-way. -/
theorem wellOrdered_iff (a b : WildcardVersion) : WellOrdered a b ↔
    (∀ pair ∈ pairs a b, pair.1.same pair.2 = true) ∨ OneWay a b := by
  cases heq : a.object.eq b.object with
  | true =>
    refine ⟨fun h ↦ Or.inl (same_of_wellOrdered heq h), ?_⟩
    rintro (hsame | hway)
    · exact wellOrdered_of_same hsame
    · obtain ⟨pair, hpair, hapart⟩ := hway.apart
      exact absurd (eq_iff.mp heq pair hpair) (by simp [hapart])
  | false =>
    rw [wellOrdered_iff_oneWay heq]
    refine ⟨Or.inr, ?_⟩
    rintro (hsame | hway)
    · exact absurd (eq_iff.mpr fun pair hpair ↦ Component.eq_of_same (hsame pair hpair))
        (by simp [heq])
    · exact hway

/-- What `MatchingVersion` makes of a release alone. -/
def ofRelease (part : Part) : WildcardVersion where
  object := ⟨.matchingVersion, ⟨.matchingDotSequence, [part], by simp, by simp⟩, wildcard,
    some wildcard, some ['*']⟩
  matching := rfl
  branch := wildcard
  timestr := ['*']
  hasBranch := rfl
  hasTimestr := rfl

/-- `*` is above `5`, and equal to it. -/
theorem not_wellOrdered_wildcard : ¬ ∀ a b : WildcardVersion, WellOrdered a b := by
  intro h
  exact (h (ofRelease .star) (ofRelease (.num 5))).not_eq_gt (by decide)

end WildcardVersion

end Userland.Pkg.Flyweight
