import Userland.Library.Simulation
import Userland.Pkg.Flyweight.Pool

/-!
# Constructions one after the other

The constructors of `pkg/version.py` in a process whose objects stay alive. `Version` takes its
components from the pool as `DotSequence` objects, and `MatchingVersion` as `MatchingDotSequence`
objects.

In a history whose constructions look up no live object of the other class, every construction
raises as in a fresh process and the objects compare as there
(`historyIndependent_of_classesAgree`). Without it a wildcard passes the stricter class, and a
sequence loses its wildcard rules (`historyIndependent_fails`).

Scope. A construction that fails leaves no object alive. The texts `str` gives are left out.
-/

set_option autoImplicit false
set_option relaxedAutoImplicit false

namespace Userland.Pkg.Flyweight

open Library Library.Program

/-! ### Versions -/

inductive VersionClass
  | version
  | matchingVersion
deriving DecidableEq

/-- An initialised `Version` or `MatchingVersion`. -/
structure VersionObject where
  cls : VersionClass
  release : DotObject
  buildRelease : DotObject
  branch : Option DotObject
  timestr : Option (List Char)
deriving DecidableEq

/-- The texts of the components of a version; an absent one is `None`. -/
structure VersionTexts where
  release : List Char
  buildRelease : Option (List Char)
  branch : Option (List Char)
  timestr : Option (List Char)
deriving DecidableEq

/-- The first part of `Version.__init__`. -/
def versionTexts (versionString : List Char) : Except VersionError VersionTexts := do
  if versionString = [] then throw .emptyVersion
  let timeidx := versionString.idxOf? ':'
  let timestr := timeidx.map fun idx ↦ Version.slice versionString (idx + 1) none
  let found := versionString.idxOf? '-'
  let branch := found.map fun idx ↦ Version.slice versionString (idx + 1) timeidx
  let branchidx := found.or timeidx
  let found := versionString.idxOf? ','
  let build := found.map fun idx ↦ Version.slice versionString (idx + 1) branchidx
  let buildidx := found.or branchidx
  if buildidx = some 0 then throw .noRelease
  return ⟨Version.slice versionString 0 buildidx, build, branch, timestr⟩

/-- `text.split(separator)` unpacked into two names; `none` is `ValueError`. -/
def splitPair (separator : Char) (text : List Char) : Option (List Char × List Char) :=
  match text.splitOn separator with
  | [first, rem] => some (first, rem)
  | _ => none

/-- The first part of `MatchingVersion.__init__`. -/
def matchingVersionTexts (versionString : List Char) : Except VersionError VersionTexts :=
  if versionString = [] then .error .emptyVersion
  else match splitPair ',' versionString with
  | none => .ok ⟨versionString, none, none, none⟩
  | some (release, rem) =>
    match splitPair '-' rem with
    | none => .ok ⟨release, some rem, none, none⟩
    | some (build, rem) =>
      match splitPair ':' rem with
      | none => .ok ⟨release, some build, some rem, none⟩
      | some (branch, timestr) => .ok ⟨release, some build, some branch, some timestr⟩

/-- The check of the time string in `Version.__init__`. -/
def validTime (timestr : List Char) : Bool :=
  timestr.length == 16 && timestr[8]? == some 'T' && timestr[15]? == some 'Z' &&
    match int (timestr.take 8), int ((timestr.drop 9).take 6) with
    | some dateint, some timeint =>
      0 ≤ dateint && 0 ≤ timeint &&
        validDatetime (dateint.toNat / 10000) (dateint.toNat / 100 % 100) (dateint.toNat % 100)
          (timeint.toNat / 10000) (timeint.toNat / 100 % 100) (timeint.toNat % 100)
    | _, _ => false

/-- `IllegalDotSequence` becomes `IllegalVersion` in the constructors of versions. -/
def asIllegalVersion : VersionError → VersionError
  | .illegalDotSequence dotstring => .badVersion dotstring
  | error => error

/-- An optional component. -/
def constructOptional (cls : DotClass) : Option (List Char) →
    Program Pool VersionError (Option DotObject)
  | none => return none
  | some dotstring => return some (← construct cls dotstring)

/-- `Version(version_string, build_string)`. -/
def constructVersion (versionString : List Char) (buildString : Option (List Char)) :
    Program Pool VersionError VersionObject := do
  let texts ← lift (versionTexts versionString)
  tryCatch (do
      let release ← construct .dotSequence texts.release
      let branch ← constructOptional .dotSequence texts.branch
      match texts.buildRelease.or buildString with
      | none => throw .noBuild
      | some build =>
        let buildRelease ← construct .dotSequence build
        if (texts.timestr.map validTime).getD true then
          return ⟨.version, release, buildRelease, branch, texts.timestr⟩
        else throw .badTime)
    fun error ↦ throw (asIllegalVersion error)

/-- `MatchingVersion(version_string, build_string)`: an absent component is a wildcard. -/
def constructMatchingVersion (versionString : List Char) (buildString : Option (List Char)) :
    Program Pool VersionError VersionObject := do
  let texts ← lift (matchingVersionTexts versionString)
  tryCatch (do
      let release ← construct .matchingDotSequence texts.release
      let buildRelease ← construct .matchingDotSequence
        ((texts.buildRelease.or buildString).getD ['*'])
      let branch ← construct .matchingDotSequence (texts.branch.getD ['*'])
      return ⟨.matchingVersion, release, buildRelease, some branch,
        some (texts.timestr.getD ['*'])⟩)
    fun error ↦ throw (asIllegalVersion error)

/-! ### Comparisons of versions -/

/-- `None` compares as below everything. -/
def optionalLt : Option DotObject → Option DotObject → Bool
  | none, some _ => true
  | some self, some other => self.lt other
  | _, none => false

def optionalEq : Option DotObject → Option DotObject → Bool
  | none, none => true
  | some self, some other => self.eq other
  | _, _ => false

def timestrLt : Option (List Char) → Option (List Char) → Bool
  | none, some _ => true
  | some self, some other => self < other
  | _, none => false

namespace VersionObject

/-- `self == other`. The operator asks the instance of the subclass first, and the methods of
`MatchingVersion` compare the build release too. -/
def eq (self other : VersionObject) : Bool :=
  match self.cls, other.cls with
  | .version, .version =>
    self.release.eq other.release && optionalEq self.branch other.branch &&
      self.timestr == other.timestr
  | _, _ =>
    self.release.eq other.release && self.buildRelease.eq other.buildRelease &&
      optionalEq self.branch other.branch &&
      (self.timestr == other.timestr || self.timestr == some ['*'] || other.timestr == some ['*'])

/-- `Version.__lt__`. -/
def versionLt (self other : VersionObject) : Bool :=
  if self.release.lt other.release then true
  else if !self.release.eq other.release then false
  else if optionalLt self.branch other.branch then true
  else if !optionalEq self.branch other.branch then false
  else timestrLt self.timestr other.timestr

/-- `MatchingVersion.__lt__`. Its tests of a dot sequence against the text `*` are never met. -/
def matchingVersionLt (self other : VersionObject) : Bool :=
  if self.release.lt other.release then true
  else if !self.release.eq other.release then false
  else if self.buildRelease.lt other.buildRelease then true
  else if !self.buildRelease.eq other.buildRelease then false
  else if optionalLt self.branch other.branch then true
  else if !optionalEq self.branch other.branch then false
  else if self.timestr = some ['*'] ∧ other.timestr ≠ some ['*'] then true
  else timestrLt self.timestr other.timestr

/-- `MatchingVersion.__gt__`. -/
def matchingVersionGt (self other : VersionObject) : Bool :=
  if other.release.lt self.release then true
  else if !self.release.eq other.release then false
  else if other.buildRelease.lt self.buildRelease then true
  else if !self.buildRelease.eq other.buildRelease then false
  else if optionalLt other.branch self.branch then true
  else if !optionalEq self.branch other.branch then false
  else if self.timestr = some ['*'] ∧ other.timestr ≠ some ['*'] then false
  else timestrLt other.timestr self.timestr

/-- `self < other`. -/
def lt (self other : VersionObject) : Bool :=
  match self.cls, other.cls with
  | .version, .version => self.versionLt other
  | .matchingVersion, _ => self.matchingVersionLt other
  | .version, .matchingVersion => other.matchingVersionGt self

/-- `self > other`; `Version.__gt__` is `Version.__lt__` with the sides exchanged. -/
def gt (self other : VersionObject) : Bool :=
  match self.cls, other.cls with
  | .version, .version => other.versionLt self
  | .matchingVersion, _ => self.matchingVersionGt other
  | .version, .matchingVersion => other.matchingVersionLt self

/-- `Version.__cmp__`. -/
def cmp (self other : VersionObject) : Ordering :=
  if self.lt other then .lt
  else if self.gt other then .gt
  else if self.buildRelease.lt other.buildRelease then .lt
  else if other.buildRelease.lt self.buildRelease then .gt
  else .eq

/-- A test of the branches. Without a branch of `other` it is an `AttributeError`, and without one
of `self` a `TypeError` unless the wildcard of `other` settles the test before. -/
def onBranch (test : DotObject → DotObject → Option Bool) (settled : DotObject → Bool)
    (self other : VersionObject) : Option Bool :=
  match other.branch, self.branch with
  | none, _ => none
  | some branch, some own => test branch own
  | some branch, none =>
    if branch.cls = .matchingDotSequence ∧ settled branch then some true else none

/-- The value a caller passes as constraint; `none` is `None`. -/
abbrev Constraint := Option ℕ

/-- `CONSTRAINT_NONE`. -/
def constraintNone : Constraint := some 0

/-- `CONSTRAINT_AUTO`. -/
def constraintAuto : Constraint := some 50

/-- `CONSTRAINT_RELEASE`. -/
def constraintRelease : Constraint := some 100

/-- `CONSTRAINT_RELEASE_MAJOR`. -/
def constraintReleaseMajor : Constraint := some 101

/-- `CONSTRAINT_RELEASE_MINOR`. -/
def constraintReleaseMinor : Constraint := some 102

/-- `CONSTRAINT_BRANCH`. -/
def constraintBranch : Constraint := some 200

/-- `CONSTRAINT_BRANCH_MAJOR`, which has the value of the constraint on releases. -/
def constraintBranchMajor : Constraint := some 101

/-- `CONSTRAINT_BRANCH_MINOR`, which has the value of the constraint on releases. -/
def constraintBranchMinor : Constraint := some 102

/-- The time strings under `CONSTRAINT_AUTO`; an empty one counts as absent. -/
def timestrMeets (self other : VersionObject) : Bool :=
  match self.timestr.filter (· ≠ []), other.timestr.filter (· ≠ []) with
  | _, none => true
  | some own, some timestr =>
    timestr == own || (other.cls == .matchingVersion && timestr == ['*'])
  | none, some timestr => other.cls == .matchingVersion && timestr == ['*']

/-- `self.is_successor(other, constraint)`; `none` is an exception. -/
def isSuccessor (self other : VersionObject) (constraint : Constraint) : Option Bool :=
  if constraint = none ∨ constraint = constraintNone then some (self.gt other)
  else if constraint = constraintAuto then
    some (other.release.isSubsequence self.release &&
      (match other.branch, self.branch with
        | none, _ => true
        | some branch, some own => branch.isSubsequence own
        | some _, none => false) && timestrMeets self other)
  else if constraint = constraintRelease then some (other.release.isSubsequence self.release)
  else if constraint = constraintReleaseMajor then some (other.release.isSameMajor self.release)
  else if constraint = constraintReleaseMinor then other.release.isSameMinor self.release
  else if constraint = constraintBranch then
    onBranch (fun branch own ↦ some (branch.isSubsequence own))
      (fun branch ↦ branch.parts == [.star]) self other
  else if constraint = constraintBranchMajor then
    onBranch (fun branch own ↦ some (branch.isSameMajor own))
      (fun branch ↦ branch.parts.head? == some .star) self other
  else if constraint = constraintBranchMinor then
    onBranch DotObject.isSameMinor (fun branch ↦ branch.parts.head? == some .star) self other
  else none

end VersionObject

/-- The comparisons of versions. -/
inductive VersionComparison
  | eq
  | ne
  | lt
  | gt
  | cmp
  | isSuccessor (constraint : VersionObject.Constraint)
deriving DecidableEq

def VersionComparison.apply (self other : VersionObject) : VersionComparison → Answer
  | .eq => .truth (self.eq other)
  | .ne => .truth (!self.eq other)
  | .lt => .truth (self.lt other)
  | .gt => .truth (self.gt other)
  | .cmp => .sign (self.cmp other)
  | .isSuccessor constraint => .ofOption (self.isSuccessor other constraint)

/-! ### Histories -/

/-- The constructors of the module. -/
inductive Construction
  | dotSequence (dotstring : List Char)
  | matchingDotSequence (dotstring : List Char)
  | version (versionString : List Char) (buildString : Option (List Char))
  | matchingVersion (versionString : List Char) (buildString : Option (List Char))

inductive Object
  | dots (ds : DotObject)
  | version (version : VersionObject)
deriving DecidableEq

namespace Construction

def build : Construction → Program Pool VersionError Object
  | .dotSequence dotstring => .dots <$> construct .dotSequence dotstring
  | .matchingDotSequence dotstring => .dots <$> construct .matchingDotSequence dotstring
  | .version versionString buildString => .version <$> constructVersion versionString buildString
  | .matchingVersion versionString buildString =>
    .version <$> constructMatchingVersion versionString buildString

/-- The construction in a fresh process. -/
def fresh (construction : Construction) : Except VersionError Object :=
  (exec construction.build []).1

/-- The class of dot sequences a construction asks for. -/
def dotClass : Construction → DotClass
  | .dotSequence _ => .dotSequence
  | .matchingDotSequence _ => .matchingDotSequence
  | .version _ _ => .dotSequence
  | .matchingVersion _ _ => .matchingDotSequence

/-- The dot sequences a construction asks for, in order. -/
def dotstrings : Construction → List (List Char)
  | .dotSequence dotstring => [dotstring]
  | .matchingDotSequence dotstring => [dotstring]
  | .version versionString buildString =>
    match versionTexts versionString with
    | .error _ => []
    | .ok texts =>
      texts.release :: texts.branch.toList ++ (texts.buildRelease.or buildString).toList
  | .matchingVersion versionString buildString =>
    match matchingVersionTexts versionString with
    | .error _ => []
    | .ok texts => [texts.release, (texts.buildRelease.or buildString).getD ['*'],
        texts.branch.getD ['*']]

end Construction

/-- The texts that are looked up: those up to the first one the class does not accept. -/
def lookups (cls : DotClass) : List (List Char) → List (List Char)
  | [] => []
  | dotstring :: rest =>
    match DotObject.init cls dotstring with
    | .ok _ => dotstring :: lookups cls rest
    | .error _ => [dotstring]

/-- The construction looks up no live object of the other class. -/
def Agreed (construction : Construction) (pool : Pool) : Prop :=
  ∀ dotstring ∈ lookups construction.dotClass construction.dotstrings,
    Held construction.dotClass pool dotstring

/-- A construction, and the live objects behind it: the objects a failing one has made are gone. -/
def step (pool : Pool) (construction : Construction) : Except VersionError Object × Pool :=
  match exec construction.build pool with
  | (.ok object, next) => (.ok object, next)
  | (.error error, _) => (.error error, pool)

/-- Constructions one after the other, with what they give. -/
def run (pool : Pool) : List Construction → List (Construction × Except VersionError Object)
  | [] => []
  | construction :: rest =>
    (construction, (step pool construction).1) :: run (step pool construction).2 rest

/-- Every construction of a history is agreed with the objects alive before it. -/
def ClassesAgree (pool : Pool) : List Construction → Prop
  | [] => True
  | construction :: rest => Agreed construction pool ∧ ClassesAgree (step pool construction).2 rest

/-- The constructions of a history raise as in a fresh process, and the objects compare as those of
fresh processes. -/
structure HistoryIndependent (history : List Construction) : Prop where
  raises : ∀ made ∈ run [] history, ∀ error,
    made.2 = .error error ↔ made.1.fresh = .error error
  dots : ∀ made ∈ run [] history, ∀ made' ∈ run [] history, ∀ self other self' other',
    made.2 = .ok (.dots self) → made'.2 = .ok (.dots other) →
    made.1.fresh = .ok (.dots self') → made'.1.fresh = .ok (.dots other') →
    ∀ comparison, DotComparison.apply self other comparison =
      DotComparison.apply self' other' comparison
  versions : ∀ made ∈ run [] history, ∀ made' ∈ run [] history, ∀ self other self' other',
    made.2 = .ok (.version self) → made'.2 = .ok (.version other) →
    made.1.fresh = .ok (.version self') → made'.1.fresh = .ok (.version other') →
    ∀ comparison, VersionComparison.apply self other comparison =
      VersionComparison.apply self' other' comparison

section Agreement

variable {cls : DotClass} {texts : List (List Char)}

/-- A consistent pool whose live objects of the texts are of the class. -/
structure Ready (cls : DotClass) (texts : List (List Char)) (pool : Pool) : Prop where
  consistent : Consistent pool
  held : ∀ dotstring ∈ texts, Held cls pool dotstring

theorem ready_nil (cls : DotClass) (texts : List (List Char)) : Ready cls texts [] :=
  ⟨consistent_nil, fun _ _ _ h ↦ by cases h⟩

/-- The lookups behind components that the class accepts. -/
theorem mem_lookups_append {accepted rest : List (List Char)} {dotstring : List Char}
    (haccepted : ∀ other ∈ accepted, ∃ ds, DotObject.init cls other = .ok ds)
    (h : dotstring ∈ lookups cls rest) : dotstring ∈ lookups cls (accepted ++ rest) := by
  induction accepted with
  | nil => exact h
  | cons other accepted ih =>
    obtain ⟨ds, hds⟩ := haccepted other List.mem_cons_self
    rw [List.cons_append, lookups, hds]
    exact List.mem_cons_of_mem _ (ih fun text htext ↦ haccepted text (List.mem_cons_of_mem _ htext))

theorem head_mem_lookups (dotstring : List Char) (rest : List (List Char)) :
    dotstring ∈ lookups cls (dotstring :: rest) := by
  unfold lookups
  cases DotObject.init cls dotstring with
  | ok ds => exact List.mem_cons_self
  | error error => exact List.mem_cons_self

/-- Two runs of a construction whose lookups find no object of the other class. -/
theorem construct_agrees {dotstring : List Char} (h : dotstring ∈ texts) :
    Agrees (fun pool pool' ↦ Ready cls texts pool ∧ Ready cls texts pool')
      (fun ds ↦ DotObject.init cls dotstring = .ok ds) (construct cls dotstring)
      (construct cls dotstring) := by
  rintro pool pool' ⟨hpool, hpool'⟩
  obtain ⟨next, hexec, hconsistent, hheld⟩ := exec_construct hpool.consistent (hpool.held _ h)
  obtain ⟨next', hexec', hconsistent', hheld'⟩ := exec_construct hpool'.consistent (hpool'.held _ h)
  have hready : Ready cls texts next ∧ Ready cls texts next' :=
    ⟨⟨hconsistent, fun _ hmem ↦ hheld _ (hpool.held _ hmem)⟩,
      ⟨hconsistent', fun _ hmem ↦ hheld' _ (hpool'.held _ hmem)⟩⟩
  rw [hexec, hexec']
  cases DotObject.init cls dotstring with
  | error error => exact ⟨rfl, hready⟩
  | ok ds => exact ⟨⟨rfl, rfl⟩, hready⟩

theorem constructOptional_agrees {dotstring : Option (List Char)}
    (h : ∀ text ∈ dotstring, text ∈ texts) :
    Agrees (fun pool pool' ↦ Ready cls texts pool ∧ Ready cls texts pool')
      (fun _ ↦ ∀ text ∈ dotstring, ∃ ds, DotObject.init cls text = .ok ds)
      (constructOptional cls dotstring) (constructOptional cls dotstring) := by
  cases dotstring with
  | none => exact Agrees.pure fun _ hmem ↦ by cases hmem
  | some text =>
    refine Agrees.bind (construct_agrees (h text rfl)) fun ds hds ↦ Agrees.pure ?_
    intro other hother
    cases hother
    exact ⟨ds, hds⟩

theorem constructVersion_agrees (versionString : List Char) (buildString : Option (List Char)) :
    Agrees (fun pool pool' ↦
        Ready .dotSequence (lookups .dotSequence
          (Construction.version versionString buildString).dotstrings) pool ∧
        Ready .dotSequence (lookups .dotSequence
          (Construction.version versionString buildString).dotstrings) pool')
      (fun _ ↦ True) (constructVersion versionString buildString)
      (constructVersion versionString buildString) := by
  unfold constructVersion
  refine Agrees.bind (Agrees.lift fun _ h ↦ h) fun texts htexts ↦ ?_
  have hstrings : (Construction.version versionString buildString).dotstrings = [texts.release] ++
      (texts.branch.toList ++ (texts.buildRelease.or buildString).toList) := by
    simp only [Construction.dotstrings, htexts]
    rfl
  rw [hstrings]
  refine Agrees.handle ?_ fun _ ↦ Agrees.throw
  refine Agrees.bind (construct_agrees (head_mem_lookups _ _)) fun release hrelease ↦ ?_
  have hfirst : ∀ other ∈ [texts.release], ∃ ds, DotObject.init .dotSequence other = .ok ds := by
    intro other hother
    rw [List.mem_singleton.mp hother]
    exact ⟨release, hrelease⟩
  refine Agrees.bind (constructOptional_agrees fun text htext ↦ ?_) fun branch hbranch ↦ ?_
  · refine mem_lookups_append hfirst ?_
    rw [htext]
    exact head_mem_lookups _ _
  cases hbuild : texts.buildRelease.or buildString with
  | none => exact Agrees.throw
  | some build =>
    dsimp only
    refine Agrees.bind (construct_agrees ?_) fun buildRelease _ ↦ ?_
    · refine mem_lookups_append hfirst (mem_lookups_append (fun other hother ↦ ?_)
        (head_mem_lookups _ _))
      exact hbranch other (Option.mem_toList.mp hother)
    · split
      · exact Agrees.pure trivial
      · exact Agrees.throw

theorem constructMatchingVersion_agrees (versionString : List Char)
    (buildString : Option (List Char)) :
    Agrees (fun pool pool' ↦
        Ready .matchingDotSequence (lookups .matchingDotSequence
          (Construction.matchingVersion versionString buildString).dotstrings) pool ∧
        Ready .matchingDotSequence (lookups .matchingDotSequence
          (Construction.matchingVersion versionString buildString).dotstrings) pool')
      (fun _ ↦ True) (constructMatchingVersion versionString buildString)
      (constructMatchingVersion versionString buildString) := by
  unfold constructMatchingVersion
  refine Agrees.bind (Agrees.lift fun _ h ↦ h) fun texts htexts ↦ ?_
  have hstrings : (Construction.matchingVersion versionString buildString).dotstrings =
      [texts.release] ++ ([(texts.buildRelease.or buildString).getD ['*']] ++
        [texts.branch.getD ['*']]) := by
    simp only [Construction.dotstrings, htexts]
    rfl
  rw [hstrings]
  refine Agrees.handle ?_ fun _ ↦ Agrees.throw
  refine Agrees.bind (construct_agrees (head_mem_lookups _ _)) fun release hrelease ↦ ?_
  have haccepted : ∀ {dotstring : List Char} {ds : DotObject},
      DotObject.init .matchingDotSequence dotstring = .ok ds →
      ∀ other ∈ [dotstring], ∃ ds, DotObject.init .matchingDotSequence other = .ok ds := by
    intro dotstring ds hinit other hother
    rw [List.mem_singleton.mp hother]
    exact ⟨ds, hinit⟩
  refine Agrees.bind (construct_agrees (mem_lookups_append (haccepted hrelease)
    (head_mem_lookups _ _))) fun buildRelease hbuild ↦ ?_
  refine Agrees.bind (construct_agrees (mem_lookups_append (haccepted hrelease)
    (mem_lookups_append (haccepted hbuild) (head_mem_lookups _ _)))) fun branch _ ↦ ?_
  exact Agrees.pure trivial

/-- A construction that looks up no object of the other class does not depend on the pool. -/
theorem build_agrees (construction : Construction) :
    Agrees (fun pool pool' ↦
        Ready construction.dotClass (lookups construction.dotClass construction.dotstrings) pool ∧
        Ready construction.dotClass (lookups construction.dotClass construction.dotstrings) pool')
      (fun _ ↦ True) construction.build construction.build := by
  cases construction with
  | dotSequence dotstring =>
    exact Agrees.bind (construct_agrees (head_mem_lookups _ _)) fun _ _ ↦ Agrees.pure trivial
  | matchingDotSequence dotstring =>
    exact Agrees.bind (construct_agrees (head_mem_lookups _ _)) fun _ _ ↦ Agrees.pure trivial
  | version versionString buildString =>
    exact Agrees.bind (constructVersion_agrees versionString buildString)
      fun _ _ ↦ Agrees.pure trivial
  | matchingVersion versionString buildString =>
    exact Agrees.bind (constructMatchingVersion_agrees versionString buildString)
      fun _ _ ↦ Agrees.pure trivial

end Agreement

/-! ### Every history -/

theorem consistent_build (construction : Construction) :
    Triple Consistent construction.build (fun _ ↦ Consistent) fun _ ↦ Consistent := by
  have hoptional : ∀ cls dotstring, Triple Consistent (constructOptional cls dotstring)
      (fun _ ↦ Consistent) fun _ ↦ Consistent := by
    intro cls dotstring
    cases dotstring with
    | none => exact Triple.pure fun _ h ↦ h
    | some text =>
      exact Triple.bind (consistent_construct cls text) fun _ ↦ Triple.pure fun _ h ↦ h
  have hlift : ∀ texts : Except VersionError VersionTexts,
      Triple Consistent (lift texts) (fun _ ↦ Consistent) fun _ ↦ Consistent :=
    fun _ ↦ Triple.lift (fun _ _ _ h ↦ h) fun _ _ _ h ↦ h
  have hthrow : ∀ (α : Type) error, Triple Consistent (throw error : Program Pool VersionError α)
      (fun _ ↦ Consistent) fun _ ↦ Consistent := fun _ _ ↦ Triple.throw fun _ h ↦ h
  cases construction with
  | dotSequence dotstring =>
    exact Triple.bind (consistent_construct _ dotstring) fun _ ↦ Triple.pure fun _ h ↦ h
  | matchingDotSequence dotstring =>
    exact Triple.bind (consistent_construct _ dotstring) fun _ ↦ Triple.pure fun _ h ↦ h
  | version versionString buildString =>
    refine Triple.bind (Triple.bind (hlift _) fun texts ↦ ?_) fun _ ↦ Triple.pure fun _ h ↦ h
    refine Triple.handle ?_ fun error ↦ hthrow _ _
    refine Triple.bind (consistent_construct _ _) fun release ↦ ?_
    refine Triple.bind (hoptional _ _) fun branch ↦ ?_
    split
    · exact hthrow _ _
    · refine Triple.bind (consistent_construct _ _) fun buildRelease ↦ ?_
      split
      · exact Triple.pure fun _ h ↦ h
      · exact hthrow _ _
  | matchingVersion versionString buildString =>
    refine Triple.bind (Triple.bind (hlift _) fun texts ↦ ?_) fun _ ↦ Triple.pure fun _ h ↦ h
    refine Triple.handle ?_ fun error ↦ hthrow _ _
    refine Triple.bind (consistent_construct _ _) fun release ↦ ?_
    refine Triple.bind (consistent_construct _ _) fun buildRelease ↦ ?_
    exact Triple.bind (consistent_construct _ _) fun branch ↦ Triple.pure fun _ h ↦ h

theorem consistent_step {pool : Pool} (construction : Construction) (h : Consistent pool) :
    Consistent (step pool construction).2 := by
  have hbuild := consistent_build construction pool h
  unfold step
  rcases hexec : exec construction.build pool with ⟨error | object, next⟩
  · exact h
  · rw [hexec] at hbuild
    exact hbuild

/-- A construction that is agreed with the live objects gives what it gives in a fresh process. -/
theorem step_eq_fresh {pool : Pool} {construction : Construction} (h : Consistent pool)
    (hagreed : Agreed construction pool) :
    (step pool construction).1 = construction.fresh := by
  have hsame := Simulates.result_eq (Simulates.weaken (build_agrees construction).simulates
    (fun _ _ hP ↦ hP) (fun _ _ _ _ hQ ↦ hQ.1.1) fun _ _ _ _ hE ↦ hE)
    (show Ready _ _ pool ∧ Ready _ _ [] from ⟨⟨h, hagreed⟩, ready_nil _ _⟩)
  rw [Construction.fresh, ← hsame]
  unfold step
  rcases exec construction.build pool with ⟨error | object, next⟩ <;> rfl

theorem run_eq_fresh {pool : Pool} {history : List Construction} (h : Consistent pool)
    (hagree : ClassesAgree pool history) : ∀ made ∈ run pool history, made.2 = made.1.fresh := by
  induction history generalizing pool with
  | nil => simp [run]
  | cons construction rest ih =>
    intro made hmade
    rcases List.mem_cons.mp hmade with rfl | hrest
    · exact step_eq_fresh h hagree.1
    · exact ih (consistent_step construction h) hagree.2 made hrest

/-- In a history whose constructions look up no live object of the other class, every construction
raises as in a fresh process, and the objects compare as there. -/
theorem historyIndependent_of_classesAgree (history : List Construction)
    (h : ClassesAgree [] history) : HistoryIndependent history := by
  have hfresh := run_eq_fresh consistent_nil h
  constructor
  · intro made hmade error
    rw [hfresh made hmade]
  · intro made hmade made' hmade' self other self' other' hself hother hself' hother' comparison
    rw [hfresh made hmade, hself'] at hself
    rw [hfresh made' hmade', hother'] at hother
    cases hself
    cases hother
    rfl
  · intro made hmade made' hmade' self other self' other' hself hother hself' hother' comparison
    rw [hfresh made hmade, hself'] at hself
    rw [hfresh made' hmade', hother'] at hother
    cases hself
    cases hother
    rfl

instance (cls : DotClass) (pool : Pool) (dotstring : List Char) :
    Decidable (Held cls pool dotstring) :=
  inferInstanceAs (Decidable (∀ ds ∈ pool.lookup dotstring, ds.cls = cls))

instance (construction : Construction) (pool : Pool) : Decidable (Agreed construction pool) :=
  inferInstanceAs (Decidable (∀ dotstring ∈
    lookups construction.dotClass construction.dotstrings, Held _ pool dotstring))

/-- A wildcard that is alive passes the class without wildcards, and a plain sequence that is alive
loses the wildcard rules of the other class. -/
theorem historyIndependent_fails :
    ¬ HistoryIndependent [.matchingDotSequence "1.*".toList, .dotSequence "1.*".toList] ∧
      ¬ HistoryIndependent [.dotSequence "1.2".toList, .matchingDotSequence "1.2".toList,
        .matchingDotSequence "*".toList] := by
  constructor
  · intro h
    have hraises := h.raises _ (List.mem_cons_of_mem _ List.mem_cons_self)
      (.illegalDotSequence "1.*".toList)
    have hraised := hraises.mpr (by decide +kernel)
    revert hraised
    decide +kernel
  · intro h
    have hsame := h.dots _ (List.mem_cons_of_mem _ List.mem_cons_self) _
      (List.mem_cons_of_mem _ (List.mem_cons_of_mem _ List.mem_cons_self))
      ⟨.dotSequence, [.num 1, .num 2], by decide, by decide⟩
      ⟨.matchingDotSequence, [.star], by decide, by decide⟩
      ⟨.matchingDotSequence, [.num 1, .num 2], by decide, by decide⟩
      ⟨.matchingDotSequence, [.star], by decide, by decide⟩
      (by decide +kernel) (by decide +kernel) (by decide +kernel) (by decide +kernel) .isSubsequence
    revert hsame
    decide +kernel

theorem historyIndependent_of_upgrade :
    HistoryIndependent [.version "0.5.11,5.11-0.151".toList none,
      .matchingVersion "0.5.*".toList none, .version "0.5.11,5.11-0.175".toList none,
      .dotSequence "0.175.*".toList, .matchingDotSequence "*".toList] :=
  historyIndependent_of_classesAgree _ (by
    refine ⟨?_, ?_, ?_, ?_, ?_, trivial⟩ <;> decide +kernel)

end Userland.Pkg.Flyweight
