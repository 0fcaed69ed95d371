import Mathlib.Data.List.Infix
import Userland.Pkg.Solver.Closure
import Userland.Pkg.Solver.Solve

/-!
# Installing and updating packages

`pkg/client/pkg_solver.py`, `solve_install` and `solve_update`. Both trim the catalog, collect the
packages that could take part in a solution, turn these and their dependencies into clauses and
search the newest solution. An installation searches three times: for the newest level of the
proposed packages, for the oldest solution with these, and for the newest one that leaves in place
the installed packages of the second. The packages of the solution that are obsolete, and the
renamed ones that nothing needs, are dropped at the end.

Scope. The report printed when no solution exists is left out; the check for installed packages that
depend on obsolete ones is not, since it raises an error of its own.
-/

set_option autoImplicit false
set_option relaxedAutoImplicit false

namespace Userland.Pkg.Solver

open Userland.Library

/-- `proposed_dict`: the packages proposed for a name, by name. -/
structure Proposed where
  entries : List (String × List PkgFmri)
  nodup_name : (entries.map Prod.fst).Nodup
  pkgName : ∀ entry ∈ entries, ∀ fmri ∈ entry.2, fmri.pkgName = entry.1

/-! ### Incorporations held in place -/

/-- The dependency actions among `actions`, each with its FMRI. -/
def dependencyFmris (actions : List Action) : Except SolverError (List (Dependency × PkgFmri)) :=
  (actions.filterMap fun action ↦
    match action.data with
    | .depend type text => some (⟨type, text⟩ : Dependency)
    | .set _ _ => none).mapM fun da ↦ do
      let fmri ← da.pkgFmri
      return (da, fmri)

/-- The last `pkg.depend.install-hold` among `actions`. -/
def installHold (actions : List Action) : Option AttrValue :=
  (actions.filterMap fun action ↦
    match action.data with
    | .set name value => if name = "pkg.depend.install-hold" then some value else none
    | .depend _ _ => none).getLast?

/-- A hold as an element of a set; a list cannot be one. -/
def hashable : AttrValue → Except SolverError String
  | .one text => .ok text
  | .many _ => .error .typeError

/-- The installed packages whose hold is not relaxed: neither their own name nor a name whose hold
is a prefix of theirs is proposed. -/
def heldNames (installHolds : List (String × AttrValue)) (proposed : List String) :
    Except SolverError (List String) := do
  let relaxed ← ((installHolds.filter (·.1 ∈ proposed)).map Prod.snd).mapM hashable
  if relaxed ≠ [] && installHolds.any (fun hold ↦ (hashable hold.2).toOption.isNone) then
    throw .attributeError
  let holds ← installHolds.mapM fun hold ↦ do
    let text ← hashable hold.2
    return (hold.1, text)
  return (holds.filter fun hold ↦
    hold.2 ∉ relaxed && !relaxed.any fun start ↦ startsWith hold.2 (start ++ ".")).map Prod.fst

/-- `__get_installed_unbound_inc_list(proposed_fmris, excludes)`: the installed incorporations that
must not change, each with what it incorporates. -/
def Context.getInstalledUnboundIncList (ctx : Context) (proposed : List String)
    (excludes : Excludes) : Except SolverError (List (PkgFmri × List PkgFmri)) := do
  let entries ← ctx.installed.fmris.mapM fun fmri ↦ do
    let actions ← ctx.getEntryActions fmri excludes
    let das ← dependencyFmris actions
    return (fmri, das, installHold actions)
  let held ← heldNames
    (entries.filterMap fun entry ↦ entry.2.2.map fun hold ↦ (entry.1.pkgName, hold)) proposed
  let versionedDependents := (entries.flatMap fun entry ↦
    (entry.2.1.filter fun da ↦ '@' ∈ da.1.fmri.toList).map (·.2.pkgName)).filter (· ∉ held)
  return (entries.map fun entry ↦
      (entry.1, (entry.2.1.filter (·.1.type = .incorporate)).map Prod.snd)).filter fun inc ↦
    inc.2 ≠ [] && inc.1.pkgName ∉ versionedDependents && inc.1.pkgName ∉ proposed

/-! ### Trimming -/

/-- `__trim_older(fmri)`. -/
def Context.trimOlder (ctx : Context) (fmri : PkgFmri) : SolverM Unit := do
  let (_, older) ← ctx.combNewerFmris fmri true
  modify (State.trim older)

/-- Trims the packages of a name that are not among those proposed. -/
def Context.trimExcluded (ctx : Context) (entry : String × List PkgFmri) : SolverM Unit := do
  let fmris ← ctx.getCatalogFmris entry.1
  modify (State.trim (fmris.filter (· ∉ entry.2)))

/-- Trims the packages that an incorporation or a freeze does not allow. -/
def Context.trimAuto (ctx : Context) (fmri : PkgFmri) : SolverM Unit := do
  let (_, excluded) ← ctx.combAutoFmris fmri true
  modify (State.trim excluded)

/-- `__get_variant_dict(fmri)`. -/
def Context.getVariantDict (ctx : Context) (fmri : PkgFmri) :
    SolverM (List (String × AttrValue)) :=
  match ctx.getEntryAllVariants fmri with
  | .ok variants => return variants
  | .error (.invalidPackageErrors _) => do
    modify (State.trim [fmri])
    return []
  | .error error => throw error

/-- `value in values`: a part of a text, or an element of a list. -/
def AttrValue.contains (value : String) : AttrValue → Bool
  | .one text => value.toList <:+: text.toList
  | .many texts => value ∈ texts

/-- `__trim_nonmatching_variants(fmri)`. -/
def Context.trimNonmatchingVariants (ctx : Context) (fmri : PkgFmri) : SolverM Unit := do
  let vd ← ctx.getVariantDict fmri
  if ctx.variants.any fun variant ↦ (vd.lookup variant.1).any (!·.contains variant.2) then
    modify (State.trim [fmri])

/-- Removes what has been trimmed from the proposed packages; some have to remain for every name. -/
def dotrimProposed :
    List (String × List PkgFmri) → SolverM (List (String × List PkgFmri))
  | [] => return []
  | (name, fmris) :: rest => do
    let state ← get
    let tv := fmris.filter (· ∉ state.trimDict)
    if tv = [] then throw (.noVersion name)
    let others ← dotrimProposed rest
    return (name, tv) :: others

/-! ### Clauses -/

/-- The numbers of some packages. -/
def getids : List PkgFmri → SolverM (List ℕ)
  | [] => return []
  | fmri :: rest => do
    let fid ← getid fmri
    let others ← getids rest
    return fid :: others

/-- The pairs of elements of a list, the earlier element first. -/
def pairs {α : Type} : List α → List (α × α)
  | [] => []
  | first :: rest => rest.map (fun second ↦ (first, second)) ++ pairs rest

/-- `__gen_highlander_clauses(fmri_list)`. -/
def genHighlanderClauses (fmriList : List PkgFmri) : SolverM (List Clause) := do
  if fmriList.length = 1 then return []
  let idList ← getids fmriList
  return (pairs idList).map fun pair ↦ negated [pair.1, pair.2]

/-- `__gen_require_clauses(fmri, matching_fmri_list)`. -/
def genRequireClauses (fmri : PkgFmri) (matchingFmriList : List PkgFmri) :
    SolverM (List Clause) := do
  let fid ← getid fmri
  let matchingIds ← getids matchingFmriList
  return [-(fid : ℤ) :: asserted matchingIds]

/-- `__gen_negation_clauses(fmri, non_matching_fmri_list)`. -/
def genNegationClauses (fmri : PkgFmri) (nonMatchingFmriList : List PkgFmri) :
    SolverM (List Clause) := do
  let fmriId ← getid fmri
  let nonMatchingIds ← getids nonMatchingFmriList
  return nonMatchingIds.map fun fid ↦ negated [fmriId, fid]

/-- `__gen_one_of_these_clauses(fmri_list)`. -/
def genOneOfTheseClauses (fmriList : List PkgFmri) : SolverM (List Clause) := do
  if fmriList = [] then throw .assertionError
  let fids ← getids fmriList
  return [asserted fids]

/-- `__gen_dependency_clauses(fmri, da)`. -/
def Context.genDependencyClauses (ctx : Context) (fmri : PkgFmri) (da : Dependency) :
    SolverM (List Clause) := do
  let (nm, m) ← ctx.parseDependency da false
  if da.type = .require then genRequireClauses fmri m else genNegationClauses fmri nm

/-- Adds the clauses that a program generates. -/
def Context.addGenerated (ctx : Context) (generate : SolverM (List Clause)) : SolverM Unit := do
  let clauses ← generate
  modify (ctx.addclauses clauses)

/-- The clauses for the possible packages of one name: at most one is installed, with its
dependencies. -/
def Context.addPossible (ctx : Context) (excludes : Excludes) (fmris : List PkgFmri) :
    SolverM Unit := do
  ctx.addGenerated (genHighlanderClauses fmris)
  Program.forEach (fun fmri ↦ do
    let das ← Program.lift (ctx.getDependencyActions fmri excludes)
    Program.forEach (fun da ↦ ctx.addGenerated (ctx.genDependencyClauses fmri da)) das) fmris

/-- The clauses for all possible packages. -/
def Context.addAllPossible (ctx : Context) (excludes : Excludes) : SolverM Unit := do
  let state ← get
  Program.forEach (fun entry ↦ ctx.addPossible excludes entry.2) state.possibleDict

/-- `__possible_dict[name]`. -/
def getPossible (name : String) : SolverM (List PkgFmri) := do
  let state ← get
  match state.possibleDict.lookup name with
  | some fmris => return fmris
  | none => throw .keyError

/-- One of the possible packages of a name is installed. -/
def Context.addInstalledName (ctx : Context) (name : String) : SolverM Unit := do
  let fmris ← getPossible name
  ctx.addGenerated (genOneOfTheseClauses fmris)

/-- One of the packages proposed for a name is installed. -/
def Context.addProposed (ctx : Context) (entry : String × List PkgFmri) : SolverM Unit := do
  let fmris ← getPossible entry.1
  ctx.addGenerated (genOneOfTheseClauses (entry.2.filter (· ∈ fmris)))

/-- A package is installed. -/
def Context.addFixed (ctx : Context) (fmri : PkgFmri) : SolverM Unit :=
  ctx.addGenerated (genOneOfTheseClauses [fmri])

/-- `__save_solver()`. -/
def State.saveSolver (state : State) : Bool × List Clause :=
  (state.addclauseFailure, state.clauses)

/-- `__restore_solver(solver)`. -/
def State.restoreSolver (solver : Bool × List Clause) (state : State) : State :=
  { state with addclauseFailure := solver.1, clauses := solver.2, iterations := 0 }

/-! ### The operations -/

/-- Removes the obsolete packages of a solution, and the renamed ones that nothing needs. -/
def Context.withoutObsolete (ctx : Context) (solution : List PkgFmri) (excludes : Excludes) :
    SolverM (List PkgFmri) := do
  let solution ← Program.filterEach (fun fmri ↦ (!·) <$> ctx.fmriIsObsolete fmri []) solution
  ctx.elidePossibleRenames solution excludes

/-- `solve_update(existing_freezes, excludes)`; the freezes are not read. -/
def Context.solveUpdate (ctx : Context) (excludes : Excludes) : SolverM (List PkgFmri) := do
  Program.forEach ctx.trimOlder ctx.installed.fmris
  let possibleSet ← Program.flatMapEach (fun fmri ↦ do
    let (matching, _) ← ctx.combNewerFmris fmri true
    return if matching = [] then [fmri] else matching) ctx.installed.fmris
  let possibleSet ← ctx.generateDependencyClosure possibleSet.dedup excludes
  modify (assignFmriIds possibleSet)
  ctx.addAllPossible excludes
  Program.forEach ctx.addInstalledName (ctx.installed.fmris.map PkgFmri.pkgName)
  let solution ← ctx.solve false 2000
  ctx.withoutObsolete solution excludes

/-- The publishers of the proposed packages replace those chosen for their names. -/
def choosePublishers (proposed : List (String × List PkgFmri)) : SolverM Unit :=
  Program.forEach (fun entry ↦
    match entry.2 with
    | [] => throw .indexError
    | fmri :: _ => modify fun state ↦
        { state with publisher := (entry.1, fmri.getPublisher) :: state.publisher }) proposed

/-- Phases 1 to 5 of `solve_install`: what is older than an installed package, not proposed for a
proposed name, excluded by a held incorporation or a freeze, or not made for the variants of the
image is trimmed. The result is what remains of the proposed packages. -/
def Context.trimInstall (ctx : Context) (existingFreezes : List PkgFmri) (proposed : Proposed)
    (incList : List (PkgFmri × List PkgFmri)) : SolverM (List (String × List PkgFmri)) := do
  Program.forEach ctx.trimOlder ctx.installed.fmris
  Program.forEach ctx.trimExcluded proposed.entries
  Program.forEach (fun inc ↦ do
    ctx.trimAuto inc.1
    Program.forEach ctx.trimAuto inc.2) incList
  Program.forEach ctx.trimAuto existingFreezes
  Program.forEach (fun entry ↦ Program.forEach ctx.trimNonmatchingVariants entry.2)
    proposed.entries
  dotrimProposed proposed.entries

/-- Phases 6 to 8: the possible packages get their numbers. The result is what remains of the
proposed packages. -/
def Context.assignInstall (ctx : Context) (proposed : List (String × List PkgFmri))
    (excludes : Excludes) : SolverM (List (String × List PkgFmri)) := do
  let newer ← Program.flatMapEach (fun fmri ↦ do
    let (matching, _) ← ctx.combNewerFmris fmri true
    return fmri :: matching) ctx.installed.fmris
  let possibleSet ← ctx.generateDependencyClosure
    (newer ++ proposed.flatMap Prod.snd).dedup excludes
  let proposed ← dotrimProposed proposed
  modify (assignFmriIds possibleSet)
  return proposed

/-- What follows when no solution was found: if the installed packages have no solution either, and
some of them depend on obsolete ones, this is reported instead. -/
def Context.checkObsolete (ctx : Context) (obsoleteCheckSolver : Bool × List Clause)
    (excludes : Excludes) : SolverM Unit := do
  modify (State.restoreSolver obsoleteCheckSolver)
  Program.forEach ctx.addFixed ctx.installed.fmris
  tryCatch (do
    let _ ← ctx.solve false 2000)
    fun
      | .noSolution => do
        let instObsDeps ← Program.flatMapEach (fun fmri ↦ do
          if ← ctx.fmriIsObsolete fmri [] then
            let dependents ← Program.lift (ctx.getDependents fmri excludes)
            Program.filterEach (fun other ↦ (!·) <$> ctx.fmriIsObsolete other []) dependents
          else return []) ctx.installed.fmris
        if instObsDeps ≠ [] then throw (.dependOnObsolete instObsDeps)
      | error => throw error

/-- The search for the newest level of the proposed packages. -/
def Context.solveProposed (ctx : Context) (obsoleteCheckSolver : Bool × List Clause)
    (excludes : Excludes) : SolverM (List PkgFmri) :=
  tryCatch (ctx.solve false 2000) fun
    | .noSolution => do
      ctx.checkObsolete obsoleteCheckSolver excludes
      throw .noSolution
    | error => throw error

/-- The second and third search: the proposed names stay at the level of the first solution, and the
other packages move as little as possible. -/
def Context.solveAgain (ctx : Context) (savedSolver : Bool × List Clause)
    (proposedNames : List String) (savedSolution : List PkgFmri) : SolverM (List PkgFmri) := do
  modify (State.restoreSolver savedSolver)
  Program.forEach ctx.addFixed (savedSolution.filter (·.pkgName ∈ proposedNames))
  let savedSolver := (← get).saveSolver
  let savedSolution ← ctx.solve true 2000
  modify (State.restoreSolver savedSolver)
  Program.forEach ctx.addFixed (savedSolution.filter (· ∈ ctx.installed.fmris))
  ctx.solve false 2000

/-- Phases 9 to 12: the clauses, the searches and the packages dropped from the solution. -/
def Context.searchInstall (ctx : Context) (proposed : List (String × List PkgFmri))
    (excludes : Excludes) : SolverM (List PkgFmri) := do
  ctx.addAllPossible excludes
  let obsoleteCheckSolver := (← get).saveSolver
  Program.forEach ctx.addProposed proposed
  Program.forEach ctx.addInstalledName
    ((ctx.installed.fmris.map PkgFmri.pkgName).filter (· ∉ proposed.map Prod.fst))
  let savedSolver := (← get).saveSolver
  let savedSolution ← ctx.solveProposed obsoleteCheckSolver excludes
  let proposedChanges := savedSolution.filter fun fmri ↦
    fmri ∉ ctx.installed.fmris && fmri.pkgName ∈ proposed.map Prod.fst
  if proposedChanges = [] then return ctx.installed.fmris
  let solution ← ctx.solveAgain savedSolver (proposed.map Prod.fst) savedSolution
  ctx.withoutObsolete solution excludes

/-- `solve_install(existing_freezes, proposed_dict, excludes)`. -/
def Context.solveInstall (ctx : Context) (existingFreezes : List PkgFmri) (proposed : Proposed)
    (excludes : Excludes) : SolverM (List PkgFmri) := do
  choosePublishers proposed.entries
  let incList ← Program.lift
    (ctx.getInstalledUnboundIncList (proposed.entries.map Prod.fst) excludes)
  let remaining ← ctx.trimInstall existingFreezes proposed incList
  let remaining ← ctx.assignInstall remaining excludes
  ctx.searchInstall remaining excludes

end Userland.Pkg.Solver
