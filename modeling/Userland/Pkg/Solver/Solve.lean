import Mathlib.Data.List.Sort
import Userland.Library.Clauses
import Userland.Library.Strengthening
import Userland.Pkg.Solver.Catalog

/-!
# Clauses and the search for the newest solution

`pkg/client/pkg_solver.py`. The possible packages are numbered (`assignFmriIds`), and clauses over
the numbers are given to the satisfiability solver. `solve` asks for a model again and again; after
each one it forbids every package that is older than the one of its name in the model, and every set
that contains the model. The last model found is the solution.
-/

set_option autoImplicit false
set_option relaxedAutoImplicit false

namespace Userland.Pkg.Solver

open Userland.Library

/-! ### The satisfiability solver -/

/-- The numbers of the variables that are true in the model of a call, in ascending order. -/
def MsatSolver.solutionVector (solver : MsatSolver) (calls : ℕ) (clauses : List Clause) : List ℕ :=
  ((List.range (solver.getVariables clauses)).filter fun idx ↦
    solver.dereference calls clauses idx).map (· + 1)

/-- The solver decides satisfiability, refuses no clause that leaves a model, and `dereference`
returns a model after a successful call. -/
structure Decides (solver : MsatSolver) : Prop where
  addClause : ∀ clauses clause, solver.addClause clauses clause = false →
    ¬ Satisfiable (clauses ++ [clause])
  unsatisfiable : ∀ calls clauses, solver.solve calls clauses = false → ¬ Satisfiable clauses
  model : ∀ calls clauses, solver.solve calls clauses = true →
    models (· ∈ solver.solutionVector calls clauses) clauses = true

/-- A solver that searches all assignments. -/
def searchSolver : MsatSolver where
  addClause _ _ := true
  solve _ clauses := (firstModel clauses).isSome
  getVariables := maxVariable
  dereference _ clauses idx := (firstModel clauses).any fun numbers ↦ idx + 1 ∈ numbers

theorem decides_searchSolver : Decides searchSolver := by
  refine ⟨by simp [searchSolver], fun _ clauses hsolve hsat ↦ ?_, fun calls clauses hsolve ↦ ?_⟩
  · have hfound : searchSolver.solve 0 clauses = true := firstModel_isSome_iff.mpr hsat
    exact Bool.false_ne_true (hsolve.symm.trans hfound)
  · obtain ⟨numbers, hnumbers⟩ := Option.isSome_iff_exists.mp hsolve
    refine models_of_agree (fun number hpos hle ↦ ?_) (models_of_firstModel hnumbers)
    have hmem : number ∈ searchSolver.solutionVector calls clauses ↔ number ∈ numbers := by
      simp only [MsatSolver.solutionVector, searchSolver, hnumbers, List.mem_map, List.mem_filter,
        List.mem_range, Option.any_some, decide_eq_true_eq]
      constructor
      · rintro ⟨idx, ⟨-, hidx⟩, rfl⟩
        exact hidx
      · intro hnumber
        exact ⟨number - 1, ⟨by omega, by rwa [Nat.sub_add_cancel hpos]⟩, Nat.sub_add_cancel hpos⟩
    simp only [hmem]

/-! ### Numbers of packages -/

/-- The number of a package. -/
def number (ids : List PkgFmri) (fmri : PkgFmri) : ℕ :=
  ids.idxOf fmri + 1

/-- `__getid(fmri)`. -/
def getid (fmri : PkgFmri) : SolverM ℕ := do
  let ids := (← get).ids
  if fmri ∈ ids then return number ids fmri else throw .keyError

/-- `__getfmri(fid)`. -/
def getfmri (fid : ℕ) : SolverM PkgFmri := do
  let ids := (← get).ids
  match fid with
  | 0 => throw .keyError
  | idx + 1 =>
    match ids[idx]? with
    | some fmri => return fmri
    | none => throw .keyError

/-- `__assign_fmri_ids(possible_set)`: the names in ascending order, and the packages of a name in
descending order. -/
def assignFmriIds (possibleSet : List PkgFmri) (state : State) : State :=
  let names := (possibleSet.map PkgFmri.pkgName).dedup
  let possibleDict := names.map fun name ↦
    (name, (possibleSet.dedup.filter (·.pkgName = name)).insertionSort fun first second ↦
      first.sortKey ≤ second.sortKey)
  { state with
    possSet := state.possSet ∪ possibleSet
    possibleDict := possibleDict
    ids := (possibleDict.insertionSort fun first second ↦ first.1 ≤ second.1).flatMap
      fun entry ↦ entry.2.reverse }

/-! ### Clauses -/

/-- `__addclauses([clause])`. -/
def Context.addClause (ctx : Context) (clause : Clause) (state : State) : State :=
  { state with
    addclauseFailure := state.addclauseFailure || !ctx.solver.addClause state.clauses clause
    clauses := state.clauses ++ [clause] }

/-- `__addclauses(clauses)`. -/
def Context.addclauses (ctx : Context) (clauses : List Clause) (state : State) : State :=
  clauses.foldl (fun state clause ↦ ctx.addClause clause state) state

/-! ### The search -/

/-- Forbids the packages of a list that were not forbidden before. -/
def Context.eliminateEach (ctx : Context) : List PkgFmri → List PkgFmri → SolverM (List PkgFmri)
  | [], eliminated => return eliminated
  | fmri :: rest, eliminated =>
    if fmri ∈ eliminated then ctx.eliminateEach rest eliminated
    else do
      let fid ← getid fmri
      modify (ctx.addClause [-(fid : ℤ)])
      ctx.eliminateEach rest (fmri :: eliminated)

/-- Prevents the selection of any package older than those of a solution, or newer if `older`. -/
def Context.eliminate (ctx : Context) (older : Bool) :
    List ℕ → List PkgFmri → SolverM (List PkgFmri)
  | [], eliminated => return eliminated
  | fid :: rest, eliminated => do
    let pfmri ← getfmri fid
    let (newer, remaining) ← ctx.combNewerFmris pfmri true
    let eliminated ← ctx.eliminateEach
      (if older then newer.filter (· ≠ pfmri) else remaining) eliminated
    ctx.eliminate older rest eliminated

/-- The loop of `__solve`. `remaining` is the number of iterations that are still allowed. -/
def Context.solveLoop (ctx : Context) (older : Bool) :
    ℕ → List ℕ → List PkgFmri → SolverM (List ℕ)
  | remaining, solutionVector, eliminated => do
    let state ← get
    if state.addclauseFailure then return solutionVector
    modify fun state ↦ { state with solveCalls := state.solveCalls + 1 }
    if !ctx.solver.solve state.solveCalls state.clauses then return solutionVector
    modify fun state ↦ { state with iterations := state.iterations + 1 }
    match remaining with
    | 0 => return solutionVector
    | remaining + 1 => do
      let solutionVector := ctx.solver.solutionVector state.solveCalls state.clauses
      let eliminated ← ctx.eliminate older solutionVector eliminated
      if solutionVector = [] then return solutionVector
      modify (ctx.addClause (negated solutionVector))
      ctx.solveLoop older remaining solutionVector eliminated

/-- The packages of a solution vector. -/
def getfmris : List ℕ → SolverM (List PkgFmri)
  | [] => return []
  | fid :: rest => do
    let fmri ← getfmri fid
    return fmri :: (← getfmris rest)

/-- `__solve(older, max_iterations)`. -/
def Context.solve (ctx : Context) (older : Bool) (maxIterations : ℕ) : SolverM (List PkgFmri) := do
  let solutionVector ← ctx.solveLoop older (maxIterations - (← get).iterations) [] []
  if (← get).iterations = 0 then throw .noSolution
  getfmris solutionVector

end Userland.Pkg.Solver
