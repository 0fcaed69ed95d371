import Userland.Library.Program
import Userland.Pkg.Fmri

/-!
# What the package solver reads

`pkg/client/pkg_solver.py`. A solver is built over a catalog of packages with their dependency
actions, the installed packages, the ranks of the publishers and the variants of the image. This
module has these data, the record of what a solver object changes while it works, and the functions
that read the catalog through the trim dictionary: `filterPublishers`, `getCatalogFmris`,
`combCommon`, the obsolete and renamed states, and `parseDependency`.

A set of the source is a list here, of which only membership counts. The reasons kept beside a
trimmed package, the timings, the progress reports and the texts of a failure report are left out:
nothing but a message reads them. The cache of `combCommon` is left out as well, since it starts
when trimming has ended and only returns what was computed before.

Scope. The catalog is the content of its base and dependency parts. An entry without readable
actions is one for which `get_entry_actions` raises `InvalidPackageErrors`. The satisfiability
solver is a compiled module that is not part of the source: it is the parameter `MsatSolver`.
-/

set_option autoImplicit false
set_option relaxedAutoImplicit false

namespace Userland.Pkg.Solver

open Userland.Library

/-! ### Actions -/

/-- `known_types` of a dependency action. -/
inductive DependencyType
  | optional
  | require
  | exclude
  | incorporate
deriving DecidableEq

/-- The value of an attribute: one text, or the list of its texts when it is given several times. -/
inductive AttrValue
  | one (text : String)
  | many (texts : List String)
deriving DecidableEq

/-- The actions of the dependency part of a catalog. -/
inductive ActionData
  | depend (type : DependencyType) (fmri : String)
  | set (name : String) (value : AttrValue)
deriving DecidableEq

/-- An action with its other attributes, among them the variant and facet tags that excludes read.
-/
structure Action where
  data : ActionData
  attrs : List (String × AttrValue)
deriving DecidableEq

/-- A dependency action: its type and the text of its FMRI. -/
structure Dependency where
  type : DependencyType
  fmri : String
deriving DecidableEq

/-- The tests an action has to pass, given by the variants and facets of the image. -/
abbrev Excludes := List (Action → Bool)

/-- `include_this(excludes)`. -/
def includeThis (excludes : Excludes) (action : Action) : Bool :=
  excludes.all (· action)

/-- `text.startswith(start)`. -/
def startsWith (text start : String) : Bool :=
  start.toList.isPrefixOf text.toList

/-- The test of `__gen_actions`: the actions that declare a facet or a variant are never excluded.
-/
def isGenerated (excludes : Excludes) (action : Action) : Bool :=
  match action.data with
  | .set name _ => startsWith name "facet" || startsWith name "variant" ||
      includeThis excludes action
  | .depend _ _ => includeThis excludes action

/-! ### Parameters -/

/-- A clause of the satisfiability solver: a list of literals, negative for a negated variable. -/
abbrev Clause := List ℤ

/-- `pkg.solver.msat_solver`. The first argument of `solve` and `dereference` counts the calls of
`solve` made so far, so that an answer may depend on what the solver has learned before. -/
structure MsatSolver where
  addClause : List Clause → Clause → Bool
  solve : ℕ → List Clause → Bool
  getVariables : List Clause → ℕ
  dereference : ℕ → List Clause → ℕ → Bool

/-- `installed_fmris`: a dictionary of the installed packages by name. -/
structure Installed where
  fmris : List PkgFmri
  nodup_pkgName : (fmris.map PkgFmri.pkgName).Nodup

/-- The rank of a publisher, and whether it is sticky and enabled. -/
structure PubRank where
  rank : ℕ
  sticky : Bool
  enabled : Bool
deriving DecidableEq

/-- What `PkgSolver` is given. `pick` is the order in which `set.pop` takes elements out of a set.
-/
structure Context where
  catalog : List (PkgFmri × Option (List Action))
  installed : Installed
  pubRanks : List (String × PubRank)
  variants : List (String × String)
  solver : MsatSolver
  pick : List PkgFmri → ℕ

/-- The exceptions of a run. -/
inductive SolverError
  | anarchicalCatalogFmri (fmri : PkgFmri)
  | unknownCatalogEntry (fmri : PkgFmri)
  | invalidPackageErrors (fmri : PkgFmri)
  | illegalFmri (text : String)
  | requiredDependency (fmri : PkgFmri) (obsolete : Bool)
  | noVersion (name : String)
  | noSolution
  | nonLeafPackage (fmri : PkgFmri) (dependents : List PkgFmri)
  | dependOnObsolete (fmris : List PkgFmri)
  | attributeError
  | typeError
  | keyError
  | indexError
  | assertionError
  | nontermination
deriving DecidableEq

/-- An entry of `__fmri_state`: a truth value, or the text stored for unreadable actions. -/
inductive StateFlag
  | bool (value : Bool)
  | text (value : String)
deriving DecidableEq

/-- The truth value of a flag: every nonempty text is true. -/
def StateFlag.truthy : StateFlag → Bool
  | .bool value => value
  | .text value => value ≠ ""

/-- What a `PkgSolver` object changes while it works. The number of a package is its position in
`ids`, counted from one. -/
structure State where
  publisher : List (String × Option String)
  trimDict : List PkgFmri
  pubTrim : List String
  fmriState : List (PkgFmri × StateFlag × StateFlag)
  possSet : List PkgFmri
  possibleDict : List (String × List PkgFmri)
  ids : List PkgFmri
  clauses : List Clause
  addclauseFailure : Bool
  iterations : ℕ
  solveCalls : ℕ
deriving DecidableEq

/-- A method of the solver. -/
abbrev SolverM := Program State SolverError

/-- The state of a new solver, given the chosen publishers. -/
def State.start (publisher : List (String × Option String)) : State where
  publisher := publisher
  trimDict := []
  pubTrim := []
  fmriState := []
  possSet := []
  possibleDict := []
  ids := []
  clauses := []
  addclauseFailure := false
  iterations := 0
  solveCalls := 0

/-- `PkgSolver(...)`: the publishers of the installed packages are chosen where they are sticky. -/
def Context.init (ctx : Context) : Except SolverError State := do
  let publisher ← ctx.installed.fmris.mapM fun fmri ↦
    match fmri.getPublisher.bind fun publisher ↦ ctx.pubRanks.lookup publisher with
    | some rank => .ok (if rank.sticky then [(fmri.pkgName, fmri.getPublisher)] else [])
    | none => .error .keyError
  return State.start publisher.flatten

variable {ctx : Context}

theorem init_eq_ok {state : State} (h : ctx.init = .ok state) :
    ∃ publisher, state = State.start publisher := by
  unfold Context.init at h
  rcases hpublisher : (ctx.installed.fmris.mapM fun fmri ↦
    match fmri.getPublisher.bind fun publisher ↦ ctx.pubRanks.lookup publisher with
    | some rank => Except.ok (if rank.sticky then [(fmri.pkgName, fmri.getPublisher)] else [])
    | none => .error SolverError.keyError) with error | publisher
  · rw [hpublisher] at h
    cases h
  · rw [hpublisher] at h
    cases h
    exact ⟨_, rfl⟩

/-! ### The catalog -/

/-- `fmris_by_version(name)` as a list of packages: those of the name, of all publishers. -/
def Context.fmrisByVersion (ctx : Context) (name : String) : List PkgFmri :=
  (ctx.catalog.map Prod.fst).filter (·.pkgName = name)

/-- `get_entry_actions(fmri, [DEPENDENCY], excludes)`. -/
def Context.getEntryActions (ctx : Context) (fmri : PkgFmri) (excludes : Excludes) :
    Except SolverError (List Action) :=
  if fmri.publisher = none ∨ fmri.publisher = some "" then .error (.anarchicalCatalogFmri fmri)
  else
    match ctx.catalog.lookup fmri with
    | none => .error (.unknownCatalogEntry fmri)
    | some none => .error (.invalidPackageErrors fmri)
    | some (some actions) => .ok (actions.filter (isGenerated excludes))

/-- `get_entry_all_variants(fmri)` as a dictionary: the last value given to a variant. -/
def Context.getEntryAllVariants (ctx : Context) (fmri : PkgFmri) :
    Except SolverError (List (String × AttrValue)) := do
  let actions ← ctx.getEntryActions fmri []
  return (actions.filterMap fun action ↦
    match action.data with
    | .set name value => if startsWith name "variant" then some (name, value) else none
    | .depend _ _ => none).reverse

/-- `__get_dependency_actions(fmri, excludes)`. -/
def Context.getDependencyActions (ctx : Context) (fmri : PkgFmri) (excludes : Excludes) :
    Except SolverError (List Dependency) := do
  let actions ← ctx.getEntryActions fmri excludes
  return actions.filterMap fun action ↦
    match action.data with
    | .depend type text => some ⟨type, text⟩
    | .set _ _ => none

/-- `pkg.fmri.PkgFmri(da.attrs["fmri"], "5.11")`. -/
def Dependency.pkgFmri (da : Dependency) : Except SolverError PkgFmri :=
  match PkgFmri.ofString da.fmri (some "5.11") none with
  | some fmri => .ok fmri
  | none => .error (.illegalFmri da.fmri)

/-! ### Trimming -/

/-- `__trim(fmris, reason)`. -/
def State.trim (fmris : List PkgFmri) (state : State) : State :=
  { state with trimDict := fmris ++ state.trimDict }

/-- `version == version`, where either may be `None`. -/
def versionEq (self other : Option Version) : Bool :=
  match self, other with
  | none, none => true
  | some self, some other => self.eq other
  | _, _ => false

theorem versionEq_iff {self other : Option Version} :
    versionEq self other = true ↔ PkgFmri.optionKey self = PkgFmri.optionKey other := by
  rcases self with _ | self <;> rcases other with _ | other
  · exact iff_of_true rfl rfl
  · exact iff_of_false (by simp [versionEq]) WithBot.bot_ne_coe
  · exact iff_of_false (by simp [versionEq]) WithBot.coe_ne_bot
  · exact Version.eq_iff.trans WithBot.coe_inj.symm

/-- The publishers acceptable for a name: the chosen one, or the enabled ones of the best rank. -/
def Context.acceptablePubs (ctx : Context) (state : State) (name : String) :
    List (Option String) :=
  match state.publisher.lookup name with
  | some publisher => [publisher]
  | none =>
    let ranked := (ctx.fmrisByVersion name).filterMap fun fmri ↦
      fmri.getPublisher.bind fun publisher ↦
        (ctx.pubRanks.lookup publisher).bind fun rank ↦
          if rank.enabled then some (rank.rank, publisher) else none
    (ranked.filter fun first ↦ ranked.all fun other ↦ first.1 ≤ other.1).map (some ·.2)

/-- The installed package of a name. -/
def Context.installedFmri (ctx : Context) (name : String) : Option PkgFmri :=
  ctx.installed.fmris.find? (·.pkgName = name)

/-- Whether `__filter_publishers` keeps a package: it comes from an acceptable publisher and its
version is not the installed one, or it is the installed package. -/
def Context.acceptable (ctx : Context) (state : State) (fmri : PkgFmri) : Bool :=
  match ctx.installedFmri fmri.pkgName with
  | some installed =>
    fmri = installed || fmri.getPublisher ∈ ctx.acceptablePubs state fmri.pkgName &&
      !versionEq fmri.version installed.version
  | none => fmri.getPublisher ∈ ctx.acceptablePubs state fmri.pkgName

/-- `__filter_publishers(pkg_name)`. -/
def Context.filterPublishers (ctx : Context) (name : String) (state : State) : State :=
  if name ∈ state.pubTrim then state
  else
    { state.trim ((ctx.fmrisByVersion name).filter fun fmri ↦ !ctx.acceptable state fmri) with
      pubTrim := name :: state.pubTrim }

/-- The packages of a name that are in the catalog, not trimmed, and possible once the possible
packages are known. -/
def Context.untrimmed (ctx : Context) (state : State) (name : String) : List PkgFmri :=
  (ctx.fmrisByVersion name).filter fun fmri ↦
    fmri ∉ state.trimDict && (state.possSet = [] || fmri ∈ state.possSet)

/-- `__get_catalog_fmris(pkg_name)`. -/
def Context.getCatalogFmris (ctx : Context) (name : String) : SolverM (List PkgFmri) := do
  modify (ctx.filterPublishers name)
  return ctx.untrimmed (← get) name

/-- The packages of a name that the solver considers from a state on: what is left of the catalog
once the publishers of the name have been filtered. -/
def Context.candidates (ctx : Context) (state : State) (name : String) : List PkgFmri :=
  ctx.untrimmed (ctx.filterPublishers name state) name

theorem exec_getCatalogFmris (ctx : Context) (name : String) (state : State) :
    Program.exec (ctx.getCatalogFmris name) state =
      (.ok (ctx.candidates state name), ctx.filterPublishers name state) := rfl

theorem acceptable_congr {first second : State}
    (hpublisher : first.publisher = second.publisher) (fmri : PkgFmri) :
    ctx.acceptable first fmri = ctx.acceptable second fmri := by
  unfold Context.acceptable Context.acceptablePubs
  rw [hpublisher]

theorem mem_fmrisByVersion {name : String} {fmri : PkgFmri} :
    fmri ∈ ctx.fmrisByVersion name ↔ fmri ∈ ctx.catalog.map Prod.fst ∧ fmri.pkgName = name := by
  rw [Context.fmrisByVersion, List.mem_filter, decide_eq_true_eq]

@[simp] theorem filterPublishers_publisher (ctx : Context) (name : String) (state : State) :
    (ctx.filterPublishers name state).publisher = state.publisher := by
  unfold Context.filterPublishers
  split_ifs <;> rfl

@[simp] theorem filterPublishers_possSet (ctx : Context) (name : String) (state : State) :
    (ctx.filterPublishers name state).possSet = state.possSet := by
  unfold Context.filterPublishers
  split_ifs <;> rfl

@[simp] theorem filterPublishers_ids (ctx : Context) (name : String) (state : State) :
    (ctx.filterPublishers name state).ids = state.ids := by
  unfold Context.filterPublishers
  split_ifs <;> rfl

theorem mem_pubTrim_filterPublishers {name other : String} {state : State} :
    other ∈ (ctx.filterPublishers name state).pubTrim ↔ other = name ∨ other ∈ state.pubTrim := by
  unfold Context.filterPublishers
  split_ifs with h
  · exact ⟨Or.inr, fun hor ↦ hor.elim (fun heq ↦ heq ▸ h) id⟩
  · exact List.mem_cons

/-- Filtering publishers trims the packages of the name that are not acceptable. -/
theorem mem_trimDict_filterPublishers {name : String} {state : State} {fmri : PkgFmri} :
    fmri ∈ (ctx.filterPublishers name state).trimDict ↔ fmri ∈ state.trimDict ∨
      name ∉ state.pubTrim ∧ fmri ∈ ctx.fmrisByVersion name ∧
      ctx.acceptable state fmri = false := by
  unfold Context.filterPublishers
  split_ifs with h
  · simp [h]
  · simp [State.trim, h, or_comm]

theorem mem_candidates {state : State} {name : String} {fmri : PkgFmri} :
    fmri ∈ ctx.candidates state name ↔ fmri ∈ ctx.fmrisByVersion name ∧ fmri ∉ state.trimDict ∧
      (name ∈ state.pubTrim ∨ ctx.acceptable state fmri = true) ∧
      (state.possSet = [] ∨ fmri ∈ state.possSet) := by
  simp only [Context.candidates, Context.untrimmed, List.mem_filter, Bool.and_eq_true,
    Bool.or_eq_true,
    decide_eq_true_eq, mem_trimDict_filterPublishers, filterPublishers_possSet, not_or, not_and,
    Bool.not_eq_false]
  constructor
  · rintro ⟨hmem, ⟨htrim, hpub⟩, hposs⟩
    exact ⟨hmem, htrim, or_iff_not_imp_left.mpr fun hname ↦ hpub hname hmem, hposs⟩
  · rintro ⟨hmem, htrim, hpub, hposs⟩
    exact ⟨hmem, ⟨htrim, fun hname _ ↦ hpub.resolve_left hname⟩, hposs⟩

/-- The candidates depend on what is trimmed, on the publishers and on the possible packages. -/
theorem candidates_congr (first second : State)
    (htrim : first.trimDict = second.trimDict) (hpub : first.pubTrim = second.pubTrim)
    (hpublisher : first.publisher = second.publisher) (hposs : first.possSet = second.possSet)
    (name : String) : ctx.candidates first name = ctx.candidates second name := by
  have hacceptable : ctx.acceptable first = ctx.acceptable second :=
    funext (acceptable_congr hpublisher)
  unfold Context.candidates Context.untrimmed Context.filterPublishers State.trim
  rw [hpub, hacceptable]
  split_ifs <;> simp only [htrim, hposs]

/-- Filtering the publishers of one name changes the candidates of no name. -/
theorem candidates_filterPublishers (ctx : Context) (state : State) (name other : String) :
    ctx.candidates (ctx.filterPublishers name state) other = ctx.candidates state other := by
  refine List.filter_congr fun fmri hfmri ↦ ?_
  have hboth : (fmri ∈ ctx.candidates (ctx.filterPublishers name state) other) ↔
      fmri ∈ ctx.candidates state other := by
    have hname : fmri.pkgName = other := (mem_fmrisByVersion.mp hfmri).2
    rw [mem_candidates, mem_candidates, mem_trimDict_filterPublishers,
      mem_pubTrim_filterPublishers, filterPublishers_possSet,
      acceptable_congr (filterPublishers_publisher ctx name state)]
    simp only [mem_fmrisByVersion, hname]
    grind
  simp only [Context.candidates, Context.untrimmed, List.mem_filter] at hboth
  exact Bool.eq_iff_iff.mpr
    ⟨fun h ↦ (hboth.mp ⟨hfmri, h⟩).2, fun h ↦ (hboth.mpr ⟨hfmri, h⟩).2⟩

/-! ### Obsolete and renamed packages -/

/-- `relevant.get(name, "false").lower() == "true"`; a list of values has no method `lower`. -/
def isTrue (actions : List Action) (name : String) : Except SolverError Bool :=
  let values : List AttrValue := actions.filterMap fun action ↦
    match action.data with
    | .set key value => if key = name then some value else none
    | .depend _ _ => none
  match values.getLast? with
  | none => .ok false
  | some (.one text) => .ok (text.toList.map Char.toLower = "true".toList)
  | some (.many _) => .error .attributeError

/-- The state `__fmri_loadstate` stores for a package with readable actions. -/
def stateFlags (actions : List Action) : Except SolverError (StateFlag × StateFlag) := do
  let obsolete ← isTrue actions "pkg.obsolete"
  let renamed ← isTrue actions "pkg.renamed"
  return (.bool obsolete, .bool renamed)

/-- `__fmri_loadstate(fmri, excludes)`: the state of a package whose actions cannot be read is a
pair of texts, and the package is trimmed. -/
def Context.fmriLoadstate (ctx : Context) (fmri : PkgFmri) (excludes : Excludes) :
    SolverM (StateFlag × StateFlag) :=
  match ctx.getEntryActions fmri excludes with
  | .ok actions => do
    let flags ← Program.lift (stateFlags actions)
    modify fun state ↦ { state with fmriState := (fmri, flags) :: state.fmriState }
    return flags
  | .error (.invalidPackageErrors _) => do
    let flags := (.text "false", .text "false")
    modify fun state ↦ { state.trim [fmri] with fmriState := (fmri, flags) :: state.fmriState }
    return flags
  | .error error => throw error

/-- The entry of `__fmri_state`, loaded if it is missing. -/
def Context.fmriFlags (ctx : Context) (fmri : PkgFmri) (excludes : Excludes) :
    SolverM (StateFlag × StateFlag) := do
  match (← get).fmriState.lookup fmri with
  | some flags => return flags
  | none => ctx.fmriLoadstate fmri excludes

/-- `__fmri_is_obsolete(fmri, excludes)`. -/
def Context.fmriIsObsolete (ctx : Context) (fmri : PkgFmri) (excludes : Excludes) :
    SolverM Bool := do
  return (← ctx.fmriFlags fmri excludes).1.truthy

/-- `__fmri_is_renamed(fmri, excludes)`. -/
def Context.fmriIsRenamed (ctx : Context) (fmri : PkgFmri) (excludes : Excludes) :
    SolverM Bool := do
  return (← ctx.fmriFlags fmri excludes).2.truthy

/-! ### Matching versions -/

/-- The version test of `__comb_common`: no version asked for, the same version, or a successor. The
packages of a catalog have a version. -/
def versionMeets (constraint : Version.Constraint) (fmri other : PkgFmri) : Bool :=
  match fmri.version, other.version with
  | none, _ => true
  | some version, some found => version.eq found || found.isSuccessor version constraint
  | some _, none => false

/-- With `CONSTRAINT_NONE` the versions that match are those that are not older. -/
theorem versionMeets_none_iff {fmri other : PkgFmri} :
    versionMeets .none fmri other = true ↔
      ¬ PkgFmri.optionKey other.version < PkgFmri.optionKey fmri.version := by
  unfold versionMeets
  rcases fmri.version with _ | version <;> rcases other.version with _ | found
  · exact iff_of_true rfl (lt_irrefl _)
  · exact iff_of_true rfl not_lt_bot
  · exact iff_of_false (by simp) (not_not.mpr (WithBot.bot_lt_coe _))
  · simp only [Bool.or_eq_true, Version.isSuccessor, Version.eq_iff, Version.gt_iff]
    exact le_iff_eq_or_lt.symm.trans (not_lt.symm.trans (not_congr WithBot.coe_lt_coe.symm))

/-- The condition under which `__comb_common` takes a package. -/
def Context.combTest (ctx : Context) (fmri : PkgFmri) (constraint : Version.Constraint)
    (obsoleteOk : Bool) (other : PkgFmri) : SolverM Bool :=
  if versionMeets constraint fmri other then
    if obsoleteOk then pure true else (!·) <$> ctx.fmriIsObsolete other []
  else pure false

/-- `__comb_common(fmri, True, constraint, obsolete_ok)`: the packages of the name that match, and
the remaining ones. -/
def Context.combCommon (ctx : Context) (fmri : PkgFmri) (constraint : Version.Constraint)
    (obsoleteOk : Bool) : SolverM (List PkgFmri × List PkgFmri) := do
  let allFmris ← ctx.getCatalogFmris fmri.pkgName
  let matching ← Program.filterEach (ctx.combTest fmri constraint obsoleteOk) allFmris
  return (matching, allFmris.filter (· ∉ matching))

/-- `__comb_newer_fmris(fmri)`. -/
def Context.combNewerFmris (ctx : Context) (fmri : PkgFmri) (obsoleteOk : Bool) :
    SolverM (List PkgFmri × List PkgFmri) :=
  ctx.combCommon fmri .none obsoleteOk

theorem exec_combCommon_obsoleteOk (ctx : Context) (fmri : PkgFmri)
    (constraint : Version.Constraint) (state : State) :
    Program.exec (ctx.combCommon fmri constraint true) state =
      (.ok ((ctx.candidates state fmri.pkgName).filter (versionMeets constraint fmri),
        (ctx.candidates state fmri.pkgName).filter
          (· ∉ (ctx.candidates state fmri.pkgName).filter (versionMeets constraint fmri))),
        ctx.filterPublishers fmri.pkgName state) := by
  have htest : ctx.combTest fmri constraint true = fun other ↦
      pure (versionMeets constraint fmri other) := by
    funext other
    unfold Context.combTest
    cases versionMeets constraint fmri other <;> rfl
  unfold Context.combCommon
  rw [Program.exec_bind, exec_getCatalogFmris, htest]
  simp only [Program.exec_bind, Program.exec_filterEach_pure]
  rfl

/-- `__comb_older_fmris(fmri)`: the two results of `__comb_newer_fmris` exchanged. -/
def Context.combOlderFmris (ctx : Context) (fmri : PkgFmri) (obsoleteOk : Bool) :
    SolverM (List PkgFmri × List PkgFmri) := do
  let (newer, older) ← ctx.combNewerFmris fmri obsoleteOk
  return (older, newer)

/-- `__comb_auto_fmris(fmri)`. -/
def Context.combAutoFmris (ctx : Context) (fmri : PkgFmri) (obsoleteOk : Bool) :
    SolverM (List PkgFmri × List PkgFmri) :=
  ctx.combCommon fmri .auto obsoleteOk

/-- The routine that `__parse_dependency` calls for a type of dependency. -/
def Context.combDependency (ctx : Context) (type : DependencyType) (fmri : PkgFmri) :
    SolverM (List PkgFmri × List PkgFmri) :=
  match type with
  | .require => ctx.combNewerFmris fmri false
  | .optional => ctx.combNewerFmris fmri true
  | .exclude => ctx.combOlderFmris fmri true
  | .incorporate => ctx.combAutoFmris fmri true

/-- `__parse_dependency(da, True, check_req)`: the disallowed and the allowed packages. -/
def Context.parseDependency (ctx : Context) (da : Dependency) (checkReq : Bool) :
    SolverM (List PkgFmri × List PkgFmri) := do
  let fmri ← Program.lift da.pkgFmri
  let (matching, nonmatching) ← ctx.combDependency da.type fmri
  if checkReq && matching.isEmpty && da.type = .require then
    let (matching, _) ← ctx.combNewerFmris fmri true
    throw (.requiredDependency fmri !matching.isEmpty)
  return (nonmatching, matching)

end Userland.Pkg.Solver
