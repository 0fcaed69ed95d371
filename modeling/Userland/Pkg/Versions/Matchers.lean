import Userland.Pkg.Versions.Wildcards

/-!
# The two matchers of wildcard versions

A version is matched against a pattern in two ways. `match_user_fmris` of `imageplan.py` asks
`Version.is_successor` with `CONSTRAINT_AUTO`, which takes the sequences of the pattern as
beginnings and knows a `*` only if it is the whole sequence. `extract_matching_fmris` of
`catalog.py` tries `==` as well, which takes every `*` for anything.

A version that `==` accepts is a successor exactly if neither the release nor the branch of the
pattern mixes `*` with numbers (`matchersAgree_iff`).
-/

set_option autoImplicit false
set_option relaxedAutoImplicit false

namespace Userland.Pkg.Flyweight

/-- The test of a version in `match_user_fmris`. -/
def matchUserSelects (version pattern : VersionObject) : Bool :=
  version.isSuccessor pattern VersionObject.constraintAuto == some true

/-- The test of a version in `extract_matching_fmris` with `CONSTRAINT_AUTO`. -/
def extractSelects (version pattern : VersionObject) : Bool :=
  version.isSuccessor pattern VersionObject.constraintAuto == some true || version.eq pattern

/-- A pattern that is equal to the version is succeeded by it, so that the tests select the same. -/
structure MatchersAgree (version : PlainVersion) (pattern : WildcardVersion) : Prop where
  successor : pattern.object.eq version.object = true →
    version.object.isSuccessor pattern.object VersionObject.constraintAuto = some true
  selects : extractSelects version.object pattern.object = true →
    matchUserSelects version.object pattern.object = true

/-- The sequence is the wildcard alone, or holds none. -/
def DotObject.Settled (ds : DotObject) : Prop :=
  ds.parts = [.star] ∨ .star ∉ ds.parts

/-! ### Sequences -/

/-- Without wildcards the equality of wildcard sequences is the identity. -/
theorem eq_of_matchingEq {self other : List Part} (hself : .star ∉ self) (hother : .star ∉ other)
    (h : DotObject.matchingEq self other = true) : self = other := by
  rw [DotObject.matchingEq, List.all_eq_true] at h
  refine List.ext_getElem? fun i ↦ ?_
  by_cases hi : i < max self.length other.length
  · have hat := h i (List.mem_range.mpr hi)
    have hlast : ∀ {parts : List Part}, .star ∉ parts → (parts.getLast? == some .star) = false := by
      intro parts hparts
      exact Bool.eq_false_iff.mpr fun hlast ↦ hparts (List.mem_of_getLast? (beq_iff_eq.mp hlast))
    have hmem : ∀ {parts : List Part} {part : Part}, .star ∉ parts → parts[i]? = some part →
        (part == .star) = false := by
      intro parts part hparts hget
      refine Bool.eq_false_iff.mpr fun hstar ↦ hparts ?_
      rw [← beq_iff_eq.mp hstar]
      exact List.mem_of_getElem? hget
    cases hgetSelf : self[i]? with
    | none =>
      cases hgetOther : other[i]? with
      | none => rfl
      | some b => simp [hgetSelf, hgetOther, hlast hself, hmem hother hgetOther] at hat
    | some a =>
      cases hgetOther : other[i]? with
      | none => simp [hgetSelf, hgetOther, hlast hother, hmem hself hgetSelf] at hat
      | some b =>
        simpa [hgetSelf, hgetOther, hmem hself hgetSelf, hmem hother hgetOther] using hat
  · simp only [lt_max_iff, not_or, not_lt] at hi
    rw [List.getElem?_eq_none hi.1, List.getElem?_eq_none hi.2]

/-- A sequence that is equal to one without wildcard is a beginning of it exactly if it is settled.
-/
theorem isSubsequence_iff_settled {self other : DotObject} (hother : other.cls = .dotSequence)
    (h : self.eq other = true) : self.isSubsequence other = true ↔ self.Settled := by
  have hplain := other.wildcardFree hother
  unfold DotObject.eq at h
  unfold DotObject.isSubsequence DotObject.Settled
  cases hcls : self.cls with
  | dotSequence =>
    simp only [hcls, hother, beq_iff_eq] at h
    exact iff_of_true (by simp [h]) (Or.inr (self.wildcardFree hcls))
  | matchingDotSequence =>
    simp only [hcls] at h
    simp only [Bool.or_eq_true, beq_iff_eq, List.isPrefixOf_iff_prefix]
    constructor
    · rintro ((hstar | hstar) | hbegins)
      · exact Or.inl hstar
      · exact absurd (hstar ▸ List.mem_cons_self) hplain
      · exact Or.inr fun hmem ↦ hplain (List.IsPrefix.subset hbegins hmem)
    · rintro (hstar | hfree)
      · exact Or.inl (Or.inl hstar)
      · exact Or.inr (eq_of_matchingEq hfree hplain h ▸ List.prefix_rfl)

/-! ### Versions -/

theorem ne_wildcard_of_validTime {timestr : List Char} (h : validTime timestr = true) :
    timestr ≠ ['*'] := by
  rintro rfl
  exact absurd h (by decide)

variable {version : PlainVersion} {pattern : WildcardVersion}

theorem optionalEq_comm (self other : Option DotObject) :
    optionalEq self other = optionalEq other self := by
  cases self <;> cases other <;> simp [optionalEq, DotObject.eq_comm]

/-- Either operand asks `MatchingVersion.__eq__`. -/
theorem eq_pattern_comm :
    version.object.eq pattern.object = true ↔ pattern.object.eq version.object = true := by
  simp only [VersionObject.eq, version.version, pattern.matching,
    DotObject.eq_comm version.object.release, DotObject.eq_comm version.object.buildRelease,
    optionalEq_comm version.object.branch, beq_or_wildcard_comm version.object.timestr]

/-- The time strings that are equal are the same, or the pattern has the wildcard. -/
theorem timestrMeets_of_eq (h : version.object.timestr = some pattern.timestr ∨
    pattern.timestr = ['*']) : version.object.timestrMeets pattern.object = true := by
  unfold VersionObject.timestrMeets
  rw [pattern.hasTimestr, pattern.matching]
  rcases h with hsame | hstar
  · have hne := ne_nil_of_validTime (version.timestr _ hsame)
    have hpresent : (some pattern.timestr).filter (· ≠ []) = some pattern.timestr := by
      simp [Option.filter, hne]
    rw [hsame, hpresent]
    simp
  · rw [hstar]
    cases version.object.timestr.filter (· ≠ []) with
    | none => rfl
    | some own => exact Bool.or_true _

/-- Of an equal pattern the version is a successor exactly if the sequences of the pattern are
settled. -/
theorem isSuccessor_iff_settled (h : pattern.object.eq version.object = true) :
    version.object.isSuccessor pattern.object VersionObject.constraintAuto = some true ↔
      pattern.object.release.Settled ∧ pattern.branch.Settled := by
  simp only [VersionObject.eq, pattern.matching, pattern.hasBranch, pattern.hasTimestr,
    Bool.and_eq_true, Bool.or_eq_true, beq_iff_eq, Option.some.injEq] at h
  obtain ⟨⟨⟨hrelease, -⟩, hbranch⟩, htimestr⟩ := h
  cases hown : version.object.branch with
  | none => simp [hown, optionalEq] at hbranch
  | some branch =>
    rw [hown] at hbranch
    have hmeets : version.object.timestrMeets pattern.object = true := by
      refine timestrMeets_of_eq ?_
      rcases htimestr with (hsame | hstar) | hstar
      · exact Or.inl hsame.symm
      · exact Or.inr hstar
      · exact absurd rfl (ne_wildcard_of_validTime (version.timestr _ hstar))
    rw [← isSubsequence_iff_settled version.release hrelease,
      ← isSubsequence_iff_settled (version.branch _ hown) hbranch]
    simp [VersionObject.isSuccessor, VersionObject.constraintNone, VersionObject.constraintAuto,
      pattern.hasBranch, hown, hmeets]

/-- The matchers agree on a version and a pattern exactly if the two are not equal, or the release
and the branch of the pattern do not mix `*` with numbers. -/
theorem matchersAgree_iff (version : PlainVersion) (pattern : WildcardVersion) :
    MatchersAgree version pattern ↔ (pattern.object.eq version.object = true →
      pattern.object.release.Settled ∧ pattern.branch.Settled) := by
  constructor
  · exact fun h heq ↦ (isSuccessor_iff_settled heq).mp (h.successor heq)
  · intro h
    have hsuccessor : pattern.object.eq version.object = true →
        version.object.isSuccessor pattern.object VersionObject.constraintAuto = some true :=
      fun heq ↦ (isSuccessor_iff_settled heq).mpr (h heq)
    refine ⟨hsuccessor, fun hselects ↦ ?_⟩
    simp only [extractSelects, Bool.or_eq_true, beq_iff_eq] at hselects
    simp only [matchUserSelects, beq_iff_eq]
    rcases hselects with hdirect | heq
    · exact hdirect
    · exact hsuccessor (eq_pattern_comm.mp heq)

/-- The pattern `5.*`. -/
def minorWildcard : WildcardVersion where
  object := ⟨.matchingVersion, ⟨.matchingDotSequence, [.num 5, .star], by simp, by simp⟩, wildcard,
    some wildcard, some ['*']⟩
  matching := rfl
  branch := wildcard
  timestr := ['*']
  hasBranch := rfl
  hasTimestr := rfl

/-- The pattern `5.*` is equal to `5.11,1-1.0`, which is no successor of it. -/
theorem not_matchersAgree_minor : ¬ ∀ version pattern, MatchersAgree version pattern := by
  intro h
  have hsuccessor := (h (PlainVersion.ofBranch 1) minorWildcard).successor (by decide)
  revert hsuccessor
  decide

end Userland.Pkg.Flyweight
