import Userland.Pkg.Solver.Solve

/-!
# The newest solution

`solve` returns a model of the clauses it starts from, and no model with the same package names has
every package at a version that is not older and some package at a newer one (`solve_optimal`). With
`older` the same holds for oldest versions. The argument is the one of strengthening: what is
excluded after a model is recorded in the clauses (`SearchInvariant`), so a better set would still
be a model when the search has ended.

Two conditions are needed, and `solve_not_optimal` shows why. Two numbered packages of one name must
not have equal versions, and every numbered package must be in the catalog and not trimmed.
-/

set_option autoImplicit false
set_option relaxedAutoImplicit false

namespace Userland.Pkg.Solver

open Userland.Library

/-! ### Sets of packages as assignments -/

/-- The assignment that makes the numbers of the packages true. -/
def assignmentOf (ids fmris : List PkgFmri) : ℕ → Bool :=
  fun variable' ↦ variable' ∈ fmris.map (number ids)

theorem number_pos (ids : List PkgFmri) (fmri : PkgFmri) : 0 < number ids fmri :=
  Nat.succ_pos _

theorem number_injOn {ids : List PkgFmri} {first second : PkgFmri} (hfirst : first ∈ ids)
    (h : number ids first = number ids second) : first = second :=
  (List.idxOf_inj hfirst).mp (Nat.succ.inj h)

theorem assignmentOf_number {ids fmris : List PkgFmri} {fmri : PkgFmri} (hmem : fmri ∈ ids) :
    assignmentOf ids fmris (number ids fmri) = true ↔ fmri ∈ fmris := by
  simp only [assignmentOf, List.mem_map, decide_eq_true_eq]
  constructor
  · rintro ⟨other, hother, hnumber⟩
    exact number_injOn hmem hnumber.symm ▸ hother
  · exact fun hfmri ↦ ⟨fmri, hfmri, rfl⟩

section Search

variable {ctx : Context} {start : State} {older : Bool}

/-- The packages that are forbidden because `chosen` is in a solution. -/
def Excluded (ctx : Context) (start : State) (older : Bool) (fmri chosen : PkgFmri) : Prop :=
  fmri ∈ ctx.candidates start chosen.pkgName ∧
    if older then versionMeets .none chosen fmri = true ∧ fmri ≠ chosen
    else versionMeets .none chosen fmri = false

/-- What the search keeps: numbers and candidates are those of the start, and the clauses say that
the clauses of the start hold, the eliminated packages are absent, and no solution seen is
contained. -/
structure SearchInvariant (ctx : Context) (start : State) (seen : List (List PkgFmri))
    (eliminated : List PkgFmri) (state : State) : Prop where
  ids : state.ids = start.ids
  candidates : ∀ name, ctx.candidates state name = ctx.candidates start name
  clauses : ∀ assignment, models assignment state.clauses = true ↔
    models assignment start.clauses = true ∧
      (∀ fmri ∈ eliminated, assignment (number start.ids fmri) = false) ∧
      ∀ solution ∈ seen, ∃ fmri ∈ solution, assignment (number start.ids fmri) = false
  failure : state.addclauseFailure = true → ¬ Satisfiable state.clauses

variable {state : State}

/-- Adding a clause keeps a record of failures sound. -/
theorem failure_addClause (hdecides : Decides ctx.solver) {clause : Clause}
    (h : state.addclauseFailure = true → ¬ Satisfiable state.clauses)
    (hfailure : (ctx.addClause clause state).addclauseFailure = true) :
    ¬ Satisfiable (ctx.addClause clause state).clauses := by
  rintro ⟨assignment, hmodels⟩
  have hold := (models_append.mp hmodels).1
  rw [Context.addClause, Bool.or_eq_true, Bool.not_eq_true'] at hfailure
  rcases hfailure with hfailure | hfailure
  · exact h hfailure ⟨assignment, hold⟩
  · exact hdecides.addClause _ _ hfailure ⟨assignment, hmodels⟩

theorem candidates_addClause (ctx : Context) (clause : Clause) (state : State) (name : String) :
    ctx.candidates (ctx.addClause clause state) name = ctx.candidates state name :=
  candidates_congr (ctx.addClause clause state) state rfl rfl rfl rfl name

theorem models_addClause {clause : Clause} {assignment : ℕ → Bool} :
    models assignment (ctx.addClause clause state).clauses = true ↔
      models assignment state.clauses = true ∧
        ∃ literal ∈ clause, literalHolds assignment literal = true := by
  rw [Context.addClause, models_append]
  simp [models]

variable {eliminated : List PkgFmri} {seen : List (List PkgFmri)}

theorem SearchInvariant.eliminate (hdecides : Decides ctx.solver)
    (h : SearchInvariant ctx start seen eliminated state) (fmri : PkgFmri) :
    SearchInvariant ctx start seen (fmri :: eliminated)
      (ctx.addClause [-(number start.ids fmri : ℤ)] state) := by
  refine ⟨h.ids, fun name ↦ ?_, fun assignment ↦ ?_, failure_addClause hdecides h.failure⟩
  · exact (candidates_addClause ctx _ state name).trans (h.candidates name)
  · rw [models_addClause, h.clauses, List.forall_mem_cons,
      show [-(number start.ids fmri : ℤ)] = negated [number start.ids fmri] from rfl,
      holds_negated (by simp [number_pos])]
    simp only [List.mem_singleton, exists_eq_left]
    tauto

theorem SearchInvariant.block (hdecides : Decides ctx.solver)
    (h : SearchInvariant ctx start seen eliminated state) (solution : List PkgFmri) :
    SearchInvariant ctx start (solution :: seen) eliminated
      (ctx.addClause (negated (solution.map (number start.ids))) state) := by
  refine ⟨h.ids, fun name ↦ ?_, fun assignment ↦ ?_, failure_addClause hdecides h.failure⟩
  · exact (candidates_addClause ctx _ state name).trans (h.candidates name)
  · rw [models_addClause, h.clauses, List.forall_mem_cons, holds_negated (by simp [number_pos])]
    simp only [List.mem_map, exists_exists_and_eq_and]
    tauto

theorem SearchInvariant.filterPublishers (h : SearchInvariant ctx start seen eliminated state)
    (name : String) :
    SearchInvariant ctx start seen eliminated (ctx.filterPublishers name state) := by
  have hclauses : (ctx.filterPublishers name state).clauses = state.clauses := by
    unfold Context.filterPublishers
    split_ifs <;> rfl
  have hfailure : (ctx.filterPublishers name state).addclauseFailure = state.addclauseFailure := by
    unfold Context.filterPublishers
    split_ifs <;> rfl
  refine ⟨(filterPublishers_ids ctx name state).trans h.ids, fun other ↦ ?_, ?_, ?_⟩
  · rw [candidates_filterPublishers, h.candidates]
  · rw [hclauses]
    exact h.clauses
  · rw [hclauses, hfailure]
    exact h.failure

/-! ### The steps of the search -/

variable {E : SolverError → State → Prop} {P : State → Prop}

theorem getid_triple (ids : List PkgFmri) (fmri : PkgFmri)
    (hids : ∀ state, P state → state.ids = ids) :
    Program.Triple P (getid fmri)
      (fun fid state ↦ (fid = number ids fmri ∧ fmri ∈ ids) ∧ P state) fun _ _ ↦ True := by
  refine Program.Triple.bind (M := fun found state ↦ found.ids = ids ∧ P state)
    (Program.Triple.get fun state hstate ↦ ⟨hids state hstate, hstate⟩) fun found ↦ ?_
  refine Program.Triple.assume fun hfound ↦ ?_
  subst hfound
  by_cases hmem : fmri ∈ found.ids
  · simp only [hmem, if_true]
    exact Program.Triple.pure fun state hstate ↦ ⟨⟨rfl, trivial⟩, hstate⟩
  · simp only [hmem, if_false]
    exact Program.Triple.throw fun _ _ ↦ trivial

theorem getfmri_triple {ids : List PkgFmri} (hnodup : ids.Nodup) (fid : ℕ)
    (hids : ∀ state, P state → state.ids = ids) :
    Program.Triple P (getfmri fid)
      (fun fmri state ↦ (fmri ∈ ids ∧ fid = number ids fmri) ∧ P state) fun _ _ ↦ True := by
  refine Program.Triple.bind (M := fun found state ↦ found.ids = ids ∧ P state)
    (Program.Triple.get fun state hstate ↦ ⟨hids state hstate, hstate⟩) fun found ↦ ?_
  refine Program.Triple.assume fun hfound ↦ ?_
  cases fid with
  | zero => exact Program.Triple.throw fun _ _ ↦ trivial
  | succ idx =>
    cases hidx : found.ids[idx]? with
    | none =>
      simp only [hidx]
      exact Program.Triple.throw fun _ _ ↦ trivial
    | some fmri =>
      simp only [hidx]
      rw [hfound] at hidx
      obtain ⟨hlt, rfl⟩ := List.getElem?_eq_some_iff.mp hidx
      refine Program.Triple.pure fun state hstate ↦ ⟨⟨List.getElem_mem hlt, ?_⟩, hstate⟩
      rw [number, hnodup.idxOf_getElem]

/-- Forbidding packages keeps the invariant, with these packages eliminated. -/
theorem eliminateEach_triple (hdecides : Decides ctx.solver) (seen : List (List PkgFmri))
    (iterations : ℕ) (fmris eliminated : List PkgFmri) :
    Program.Triple
      (fun state ↦ SearchInvariant ctx start seen eliminated state ∧ state.iterations = iterations)
      (ctx.eliminateEach fmris eliminated)
      (fun after state ↦ (∀ fmri, fmri ∈ after ↔ fmri ∈ eliminated ∨ fmri ∈ fmris) ∧
        SearchInvariant ctx start seen after state ∧ state.iterations = iterations)
      fun _ _ ↦ True := by
  induction fmris generalizing eliminated with
  | nil => exact Program.Triple.pure fun state hstate ↦ ⟨by simp, hstate⟩
  | cons fmri rest ih =>
    unfold Context.eliminateEach
    split_ifs with hmem
    · refine Program.Triple.weaken (ih eliminated) (fun _ h ↦ h) ?_ (fun _ _ h ↦ h)
      rintro after state ⟨hafter, hstate⟩
      refine ⟨fun other ↦ ?_, hstate⟩
      rw [hafter, List.mem_cons]
      constructor
      · exact fun h ↦ h.imp_right Or.inr
      · rintro (h | rfl | h)
        · exact Or.inl h
        · exact Or.inl hmem
        · exact Or.inr h
    · refine Program.Triple.bind (getid_triple start.ids fmri fun _ h ↦ h.1.ids) fun fid ↦ ?_
      refine Program.Triple.assume fun hfid ↦ ?_
      rw [hfid.1]
      refine Program.Triple.bind (M := fun _ state ↦
        SearchInvariant ctx start seen (fmri :: eliminated) state ∧ state.iterations = iterations)
        (Program.Triple.modify fun state hstate ↦ ⟨hstate.1.eliminate hdecides fmri, hstate.2⟩)
        fun _ ↦ ?_
      refine Program.Triple.weaken (ih (fmri :: eliminated)) (fun _ h ↦ h) ?_ (fun _ _ h ↦ h)
      rintro after state ⟨hafter, hstate⟩
      refine ⟨fun other ↦ ?_, hstate⟩
      rw [hafter, List.mem_cons, List.mem_cons]
      tauto

/-- Forbidding what a solution excludes: the numbers of the solution are those of packages, and the
packages eliminated in addition are those it excludes. -/
theorem eliminate_triple (hdecides : Decides ctx.solver) (hnodup : start.ids.Nodup)
    (seen : List (List PkgFmri)) (iterations : ℕ) (solutionVector : List ℕ)
    (eliminated : List PkgFmri) :
    Program.Triple
      (fun state ↦ SearchInvariant ctx start seen eliminated state ∧ state.iterations = iterations)
      (ctx.eliminate older solutionVector eliminated)
      (fun after state ↦ (∃ solution : List PkgFmri, solution ⊆ start.ids ∧
          solutionVector = solution.map (number start.ids) ∧ ∀ fmri, fmri ∈ after ↔
            fmri ∈ eliminated ∨ ∃ chosen ∈ solution, Excluded ctx start older fmri chosen) ∧
        SearchInvariant ctx start seen after state ∧ state.iterations = iterations)
      fun _ _ ↦ True := by
  induction solutionVector generalizing eliminated with
  | nil => exact Program.Triple.pure fun state hstate ↦ ⟨⟨[], by simp, rfl, by simp⟩, hstate⟩
  | cons fid rest ih =>
    unfold Context.eliminate
    refine Program.Triple.bind (getfmri_triple hnodup fid fun _ h ↦ h.1.ids) fun pfmri ↦ ?_
    refine Program.Triple.assume fun hpfmri ↦ ?_
    refine Program.Triple.bind (M := fun both state ↦
      (∀ fmri, fmri ∈ (if older then both.1.filter (· ≠ pfmri) else both.2) ↔
        Excluded ctx start older fmri pfmri) ∧
      SearchInvariant ctx start seen eliminated state ∧ state.iterations = iterations) ?_ ?_
    · refine Program.Triple.of_exec_eq (exec_combCommon_obsoleteOk ctx pfmri .none) ?_
      rintro state ⟨hinv, hiterations⟩
      refine ⟨fun fmri ↦ ?_, hinv.filterPublishers _, ?_⟩
      · rw [hinv.candidates]
        unfold Excluded
        cases older <;>
          simp only [Bool.false_eq_true, if_true, if_false, List.mem_filter, decide_eq_true_eq,
            not_and, Bool.not_eq_true] <;> tauto
      · unfold Context.filterPublishers
        split_ifs <;> exact hiterations
    · rintro ⟨newer, remaining⟩
      refine Program.Triple.assume fun hexcluded ↦ ?_
      refine Program.Triple.bind (eliminateEach_triple hdecides seen iterations _ eliminated)
        fun after ↦ ?_
      refine Program.Triple.assume fun hafter ↦ ?_
      refine Program.Triple.weaken (ih after) (fun _ h ↦ h) ?_ (fun _ _ h ↦ h)
      rintro last state ⟨⟨solution, hsub, hvector, hlast⟩, hstate⟩
      refine ⟨⟨pfmri :: solution, List.cons_subset.mpr ⟨hpfmri.1, hsub⟩, ?_, fun fmri ↦ ?_⟩, hstate⟩
      · rw [List.map_cons, hpfmri.2, hvector]
      · rw [hlast, hafter, hexcluded, List.exists_mem_cons_iff]
        tauto

/-! ### The whole search -/

/-- The solutions seen, the last one first: they are models of the clauses of the start, they
exclude exactly the eliminated packages, and each one is allowed by those before it. -/
structure SearchHistory (ctx : Context) (start : State) (older : Bool)
    (seen : List (List PkgFmri)) (eliminated : List PkgFmri) : Prop where
  subset : ∀ solution ∈ seen, solution ⊆ start.ids
  model : ∀ solution ∈ seen, models (assignmentOf start.ids solution) start.clauses = true
  mem_eliminated : ∀ fmri, fmri ∈ eliminated ↔
    ∃ solution ∈ seen, ∃ chosen ∈ solution, Excluded ctx start older fmri chosen
  pairwise : seen.Pairwise fun later earlier ↦
    (∀ chosen ∈ earlier, ∀ fmri ∈ later, ¬ Excluded ctx start older fmri chosen) ∧
      ¬ earlier ⊆ later

variable {solution : List PkgFmri}

/-- A new model of the clauses extends the history. -/
theorem SearchHistory.extend {eliminated after : List PkgFmri}
    (h : SearchHistory ctx start older seen eliminated)
    (hinv : SearchInvariant ctx start seen eliminated state) (hsub : solution ⊆ start.ids)
    (hmodels : models (assignmentOf start.ids solution) state.clauses = true)
    (hafter : ∀ fmri, fmri ∈ after ↔
      fmri ∈ eliminated ∨ ∃ chosen ∈ solution, Excluded ctx start older fmri chosen) :
    SearchHistory ctx start older (solution :: seen) after := by
  obtain ⟨hstart, habsent, hblocked⟩ := (hinv.clauses _).mp hmodels
  refine ⟨List.forall_mem_cons.mpr ⟨hsub, h.subset⟩, List.forall_mem_cons.mpr ⟨hstart, h.model⟩,
    fun fmri ↦ ?_, List.pairwise_cons.mpr ⟨fun earlier hearlier ↦ ⟨?_, ?_⟩, h.pairwise⟩⟩
  · rw [hafter, h.mem_eliminated, List.exists_mem_cons_iff, or_comm]
  · intro chosen hchosen fmri hfmri hexcluded
    have hfalse := habsent fmri ((h.mem_eliminated fmri).mpr ⟨earlier, hearlier, chosen, hchosen,
      hexcluded⟩)
    rw [(assignmentOf_number (hsub hfmri)).mpr hfmri] at hfalse
    exact absurd hfalse (by decide)
  · intro hsuperset
    obtain ⟨fmri, hfmri, hfalse⟩ := hblocked earlier hearlier
    rw [(assignmentOf_number (hsub (hsuperset hfmri))).mpr (hsuperset hfmri)] at hfalse
    exact absurd hfalse (by decide)

/-- What is known when the loop ends: no iteration was made or allowed, or the result is a model of
the clauses of the start, and unless the iterations are exhausted it is empty or the last one of a
history that leaves no further model. -/
def SearchOutcome (ctx : Context) (start : State) (older : Bool) (maxIterations : ℕ)
    (solutionVector : List ℕ) (state : State) : Prop :=
  state.iterations = 0 ∨ maxIterations = 0 ∨ state.ids = start.ids ∧
    ∃ solution : List PkgFmri, solution ⊆ start.ids ∧
      solutionVector = solution.map (number start.ids) ∧
      models (assignmentOf start.ids solution) start.clauses = true ∧
      (maxIterations < state.iterations ∨ solution = [] ∨ ∃ earlier eliminated,
        SearchHistory ctx start older (solution :: earlier) eliminated ∧
        SearchInvariant ctx start (solution :: earlier) eliminated state ∧
        ¬ Satisfiable state.clauses)

/-- The vector of the last solution seen. -/
def lastVector (ids : List PkgFmri) : List (List PkgFmri) → List ℕ
  | [] => []
  | solution :: _ => solution.map (number ids)

/-- What holds whenever the loop is entered. -/
structure LoopInvariant (ctx : Context) (start : State) (older : Bool) (maxIterations remaining : ℕ)
    (seen : List (List PkgFmri)) (eliminated : List PkgFmri) (state : State) : Prop where
  history : SearchHistory ctx start older seen eliminated
  invariant : SearchInvariant ctx start seen eliminated state
  iterations : state.iterations = seen.length
  remaining : seen.length + remaining = maxIterations

variable {maxIterations remaining : ℕ}

theorem LoopInvariant.outcome
    (h : LoopInvariant ctx start older maxIterations remaining seen eliminated state)
    (hunsat : ¬ Satisfiable state.clauses) :
    SearchOutcome ctx start older maxIterations (lastVector start.ids seen) state := by
  cases seen with
  | nil => exact Or.inl h.iterations
  | cons solution earlier =>
    exact Or.inr (Or.inr ⟨h.invariant.ids, solution, h.history.subset _ List.mem_cons_self, rfl,
      h.history.model _ List.mem_cons_self,
      Or.inr (Or.inr ⟨earlier, eliminated, h.history, h.invariant, hunsat⟩)⟩)

theorem LoopInvariant.exhausted {maxIterations : ℕ} {state next : State}
    (h : LoopInvariant ctx start older maxIterations 0 seen eliminated state)
    (hids : next.ids = state.ids) (hnext : next.iterations = state.iterations + 1) :
    SearchOutcome ctx start older maxIterations (lastVector start.ids seen) next := by
  have hlength := h.remaining
  have hiterations := h.iterations
  cases seen with
  | nil => exact Or.inr (Or.inl (by simpa using hlength.symm))
  | cons solution earlier =>
    exact Or.inr (Or.inr ⟨hids.trans h.invariant.ids, solution,
      h.history.subset _ List.mem_cons_self, rfl, h.history.model _ List.mem_cons_self,
      Or.inl (by omega)⟩)

/-- Counting a call and an iteration changes nothing that the search invariant reads. -/
theorem SearchInvariant.count
    (h : SearchInvariant ctx start seen eliminated state) (solveCalls iterations : ℕ) :
    SearchInvariant ctx start seen eliminated
      { state with solveCalls := solveCalls, iterations := iterations } :=
  ⟨h.ids, fun name ↦ (candidates_congr
    { state with solveCalls := solveCalls, iterations := iterations } state rfl rfl rfl rfl
      name).trans (h.candidates name), h.clauses, h.failure⟩

/-- The state after a call of the satisfiability solver. -/
def State.called (state : State) : State :=
  { state with solveCalls := state.solveCalls + 1 }

theorem LoopInvariant.unsatisfiable (hdecides : Decides ctx.solver)
    (h : LoopInvariant ctx start older maxIterations remaining seen eliminated state)
    (hsolve : ¬ ctx.solver.solve state.solveCalls state.clauses = true) :
    SearchOutcome ctx start older maxIterations (lastVector start.ids seen) state.called :=
  have hcalled : LoopInvariant ctx start older maxIterations remaining seen eliminated
      state.called :=
    ⟨h.history, h.invariant.count _ _, h.iterations, h.remaining⟩
  hcalled.outcome (hdecides.unsatisfiable _ _ (Bool.eq_false_iff.mpr hsolve))

/-- The state after a successful call of the satisfiability solver has been counted. -/
def State.counted (state : State) : State :=
  { state with solveCalls := state.solveCalls + 1, iterations := state.iterations + 1 }

/-- The body of the loop, from the state counted. -/
def Context.solveBody (ctx : Context) (older : Bool) (remaining : ℕ) (solutionVector : List ℕ)
    (eliminated : List PkgFmri) : SolverM (List ℕ) := do
  let eliminated ← ctx.eliminate older solutionVector eliminated
  if solutionVector = [] then return solutionVector
  modify (ctx.addClause (negated solutionVector))
  ctx.solveLoop older remaining solutionVector eliminated

theorem exec_solveLoop (ctx : Context) (older : Bool) (remaining : ℕ) (solutionVector : List ℕ)
    (eliminated : List PkgFmri) (state : State) :
    Program.exec (ctx.solveLoop older remaining solutionVector eliminated) state =
      if state.addclauseFailure then (.ok solutionVector, state)
      else if ctx.solver.solve state.solveCalls state.clauses then
        match remaining with
        | 0 => (.ok solutionVector, state.counted)
        | remaining + 1 => Program.exec (ctx.solveBody older remaining
            (ctx.solver.solutionVector state.solveCalls state.clauses) eliminated) state.counted
      else (.ok solutionVector, state.called) := by
  unfold Context.solveLoop
  simp only [Program.exec_bind, Program.exec_get]
  cases hfailure : state.addclauseFailure with
  | true => rfl
  | false =>
    simp only [Bool.false_eq_true, if_false, Program.exec_bind, Program.exec_modify]
    cases hsolve : ctx.solver.solve state.solveCalls state.clauses with
    | false => rfl
    | true => cases remaining <;> rfl

/-- One iteration of the loop keeps its invariant, with the model of the call added to the history.
-/
theorem solveBody_triple (hdecides : Decides ctx.solver) (hnodup : start.ids.Nodup)
    (h : LoopInvariant ctx start older maxIterations (remaining + 1) seen eliminated
      state) {solutionVector : List ℕ} (hmodel : models (· ∈ solutionVector) state.clauses = true)
    (hloop : ∀ seen eliminated, Program.Triple
      (LoopInvariant ctx start older maxIterations remaining seen eliminated)
      (ctx.solveLoop older remaining (lastVector start.ids seen) eliminated)
      (SearchOutcome ctx start older maxIterations) fun _ _ ↦ True) :
    Program.Triple (fun next ↦ SearchInvariant ctx start seen eliminated next ∧
        next.iterations = seen.length + 1)
      (ctx.solveBody older remaining solutionVector eliminated)
      (SearchOutcome ctx start older maxIterations) fun _ _ ↦ True := by
  refine Program.Triple.bind (eliminate_triple hdecides hnodup seen (seen.length + 1) solutionVector
    eliminated) fun after ↦ ?_
  refine Program.Triple.assume fun hsolution ↦ ?_
  obtain ⟨solution, hsub, rfl, hafter⟩ := hsolution
  have hhistory := h.history.extend h.invariant hsub hmodel hafter
  split_ifs with hempty
  · exact Program.Triple.pure fun next hnext ↦ Or.inr (Or.inr ⟨hnext.1.ids, solution, hsub, rfl,
      hhistory.model _ List.mem_cons_self, Or.inr (Or.inl (List.map_eq_nil_iff.mp hempty))⟩)
  · refine Program.Triple.bind (M := fun _ ↦
      LoopInvariant ctx start older maxIterations remaining (solution :: seen) after)
      (Program.Triple.modify fun next hnext ↦ ?_) fun _ ↦ hloop (solution :: seen) after
    have hremaining := h.remaining
    exact ⟨hhistory, hnext.1.block hdecides solution, hnext.2,
      by rw [List.length_cons]; omega⟩

/-- The loop ends in an outcome of the search. The induction is on the iterations still allowed. -/
theorem solveLoop_triple (hdecides : Decides ctx.solver) (hnodup : start.ids.Nodup)
    (maxIterations remaining : ℕ) (seen : List (List PkgFmri)) (eliminated : List PkgFmri) :
    Program.Triple (LoopInvariant ctx start older maxIterations remaining seen eliminated)
      (ctx.solveLoop older remaining (lastVector start.ids seen) eliminated)
      (SearchOutcome ctx start older maxIterations) fun _ _ ↦ True := by
  induction remaining generalizing seen eliminated with
  | zero =>
    intro state h
    rw [exec_solveLoop]
    split_ifs with hfailure hsolve
    · exact h.outcome (h.invariant.failure hfailure)
    · exact h.exhausted rfl rfl
    · exact h.unsatisfiable hdecides hsolve
  | succ remaining ih =>
    intro state h
    rw [exec_solveLoop]
    split_ifs with hfailure hsolve
    · exact h.outcome (h.invariant.failure hfailure)
    · exact solveBody_triple hdecides hnodup h (hdecides.model _ _ hsolve) ih state.counted
        ⟨h.invariant.count _ _, by rw [State.counted, h.iterations]⟩
    · exact h.unsatisfiable hdecides hsolve

theorem getfmris_triple {ids : List PkgFmri} (hnodup : ids.Nodup)
    (solution : List PkgFmri) (hsub : solution ⊆ ids) (hids : ∀ state, P state → state.ids = ids) :
    Program.Triple P (getfmris (solution.map (number ids)))
      (fun result state ↦ result = solution ∧ P state) fun _ _ ↦ True := by
  induction solution with
  | nil => exact Program.Triple.pure fun state hstate ↦ ⟨rfl, hstate⟩
  | cons fmri rest ih =>
    obtain ⟨hfmri, hrest⟩ := List.cons_subset.mp hsub
    refine Program.Triple.bind (getfmri_triple hnodup _ hids) fun found ↦ ?_
    refine Program.Triple.assume fun hfound ↦ ?_
    refine Program.Triple.bind (ih hrest) fun others ↦ ?_
    refine Program.Triple.pure ?_
    rintro state ⟨rfl, hstate⟩
    exact ⟨by rw [number_injOn hfmri hfound.2], hstate⟩

/-- What `solve` returns, and the state it ends in: a model of the clauses it starts from that,
unless the iterations are exhausted, is empty or the last one of a history that leaves no further
model. -/
theorem solve_triple (hdecides : Decides ctx.solver) (hnodup : start.ids.Nodup)
    (hiterations : start.iterations = 0)
    (hfailure : start.addclauseFailure = true → ¬ Satisfiable start.clauses) {maxIterations : ℕ}
    (hmax : 0 < maxIterations) :
    Program.Triple (fun state ↦ state = start) (ctx.solve older maxIterations)
      (fun solution state ↦ solution ⊆ start.ids ∧
        models (assignmentOf start.ids solution) start.clauses = true ∧
        (maxIterations < state.iterations ∨ solution = [] ∨ ∃ earlier eliminated,
          SearchHistory ctx start older (solution :: earlier) eliminated ∧
          SearchInvariant ctx start (solution :: earlier) eliminated state ∧
          ¬ Satisfiable state.clauses)) fun _ _ ↦ True := by
  have hbegin : LoopInvariant ctx start older maxIterations maxIterations [] [] start :=
    ⟨⟨by simp, by simp, by simp, List.Pairwise.nil⟩, ⟨rfl, fun _ ↦ rfl, by simp, hfailure⟩,
      hiterations, Nat.zero_add _⟩
  refine Program.Triple.bind (M := fun found state ↦ found = start ∧ state = start)
    (Program.Triple.get fun state hstate ↦ ⟨hstate, hstate⟩) fun found ↦ ?_
  refine Program.Triple.assume fun hfound ↦ ?_
  subst hfound
  rw [hiterations, Nat.sub_zero]
  refine Program.Triple.bind (Program.Triple.weaken
    (solveLoop_triple hdecides hnodup maxIterations maxIterations [] [])
    (fun state hstate ↦ hstate ▸ hbegin) (fun _ _ h ↦ h) (fun _ _ h ↦ h)) fun solutionVector ↦ ?_
  refine Program.Triple.bind (M := fun last state ↦ last = state ∧
    SearchOutcome ctx found older maxIterations solutionVector state)
    (Program.Triple.get fun state hstate ↦ ⟨rfl, hstate⟩) fun last ↦ ?_
  split_ifs with hzero
  · exact Program.Triple.throw fun _ _ ↦ trivial
  · rintro state ⟨rfl, houtcome⟩
    rcases houtcome with hiterations | hmax' | ⟨hids, solution, hsub, rfl, hmodel, hend⟩
    · exact absurd hiterations hzero
    · omega
    · have hresult := getfmris_triple (P := fun state ↦ state = last) hnodup solution hsub
        (fun state hstate ↦ hstate ▸ hids) last rfl
      rcases hexec : Program.exec (getfmris (solution.map (number found.ids))) last with
        ⟨error | result, next⟩ <;> rw [hexec] at hresult
      · trivial
      · obtain ⟨rfl, rfl⟩ := hresult
        exact ⟨hsub, hmodel, hend⟩

theorem getfmris_state (fids : List ℕ) :
    Program.Triple P (getfmris fids) (fun _ state ↦ P state) fun _ _ ↦ True := by
  induction fids with
  | nil => exact Program.Triple.pure fun _ hstate ↦ hstate
  | cons fid rest ih =>
    refine Program.Triple.bind (M := fun _ ↦ P) ?_ fun _ ↦
      Program.Triple.bind (M := fun _ ↦ P) ih fun _ ↦ Program.Triple.pure fun _ hstate ↦ hstate
    refine Program.Triple.bind (M := fun _ ↦ P) (Program.Triple.get fun _ hstate ↦ hstate)
      fun found ↦ ?_
    cases fid with
    | zero => exact Program.Triple.throw fun _ _ ↦ trivial
    | succ idx =>
      cases hidx : found.ids[idx]? with
      | none =>
        simp only [hidx]
        exact Program.Triple.throw fun _ _ ↦ trivial
      | some fmri =>
        simp only [hidx]
        exact Program.Triple.pure fun _ hstate ↦ hstate

/-- A search that returns has made an iteration, so no failure was recorded at its start. -/
theorem solve_started {maxIterations : ℕ} (hiterations : start.iterations = 0)
    (hexec : Program.exec (ctx.solve older maxIterations) start = (.ok solution, state)) :
    state.iterations ≠ 0 ∧ start.addclauseFailure = false := by
  constructor
  · refine Program.Triple.of_exec (P := fun _ ↦ True) (E := fun _ _ ↦ True)
      (Q := fun _ state ↦ state.iterations ≠ 0) ?_ trivial hexec
    refine Program.Triple.bind (M := fun _ _ ↦ True) (fun _ _ ↦ trivial) fun _ ↦ ?_
    refine Program.Triple.bind (M := fun _ _ ↦ True) (fun s _ ↦ by split <;> trivial) fun _ ↦ ?_
    refine Program.Triple.bind (M := fun last state ↦ last = state) (fun _ _ ↦ rfl) fun last ↦ ?_
    split_ifs with hzero
    · exact Program.Triple.throw fun _ _ ↦ trivial
    · exact Program.Triple.weaken (getfmris_state _) (fun _ heq ↦ heq ▸ hzero) (fun _ _ h ↦ h)
        (fun _ _ h ↦ h)
  · by_contra hfailure
    rw [Bool.not_eq_false] at hfailure
    rw [Context.solve, Program.exec_bind, Program.exec_get] at hexec
    simp only [Program.exec_bind, exec_solveLoop, hfailure, if_true, Program.exec_get, hiterations,
      Program.exec_throw] at hexec
    cases hexec

/-! ### The solution cannot be improved -/

/-- A version is worse than another one: older, or newer when the oldest solution is searched. -/
def WorseVersion (older : Bool) (first second : PkgFmri) : Prop :=
  if older then PkgFmri.optionKey second.version < PkgFmri.optionKey first.version
  else PkgFmri.optionKey first.version < PkgFmri.optionKey second.version

instance (first second : PkgFmri) : Decidable (WorseVersion older first second) := by
  unfold WorseVersion
  infer_instance

/-- A solution is a model of the clauses of the start, and no other model with one package for a
name improves it. -/
structure OptimalSolution (start : State) (older : Bool) (solution : List PkgFmri) : Prop where
  subset : solution ⊆ start.ids
  model : models (assignmentOf start.ids solution) start.clauses = true
  optimal : ∀ other : List PkgFmri, other ⊆ start.ids →
    models (assignmentOf start.ids other) start.clauses = true →
    Set.InjOn PkgFmri.pkgName {fmri | fmri ∈ other} →
    ¬ Improves PkgFmri.pkgName (WorseVersion older) {fmri | fmri ∈ other} {fmri | fmri ∈ solution}

theorem worseVersion_of_not {first second third : PkgFmri} (h : ¬ WorseVersion older second first)
    (h' : WorseVersion older second third) : WorseVersion older first third := by
  unfold WorseVersion at *
  cases older <;> simp only [Bool.false_eq_true, if_true, if_false, not_lt] at *
  · exact lt_of_le_of_lt h h'
  · exact lt_of_lt_of_le h' h

theorem optionKey_eq_of_not_worse {first second : PkgFmri} (h : ¬ WorseVersion older first second)
    (h' : ¬ WorseVersion older second first) :
    PkgFmri.optionKey first.version = PkgFmri.optionKey second.version := by
  unfold WorseVersion at *
  cases older <;> simp only [Bool.false_eq_true, if_true, if_false, not_lt] at *
  · exact le_antisymm h' h
  · exact le_antisymm h h'

/-- A candidate that is worse than a package of a solution is excluded by it. -/
theorem excluded_of_worse {fmri chosen : PkgFmri}
    (hmem : fmri ∈ ctx.candidates start chosen.pkgName) (hworse : WorseVersion older fmri chosen) :
    Excluded ctx start older fmri chosen := by
  refine ⟨hmem, ?_⟩
  unfold WorseVersion at hworse
  cases older <;> simp only [Bool.false_eq_true, if_true, if_false] at hworse ⊢
  · rw [← Bool.not_eq_true, versionMeets_none_iff, not_not]
    exact hworse
  · exact ⟨versionMeets_none_iff.mpr hworse.not_gt, fun heq ↦ lt_irrefl _ (heq ▸ hworse)⟩

/-- Where the versions of a name differ, what a package of a solution excludes is worse. -/
theorem Excluded.worse {fmri chosen : PkgFmri} (h : Excluded ctx start older fmri chosen)
    (hversions : versionEq fmri.version chosen.version = true → fmri = chosen) :
    WorseVersion older fmri chosen := by
  obtain ⟨-, h⟩ := h
  unfold WorseVersion
  cases older <;> simp only [Bool.false_eq_true, if_true, if_false] at h ⊢
  · rw [← Bool.not_eq_true, versionMeets_none_iff, not_not] at h
    exact h
  · refine lt_of_le_of_ne (not_lt.mp (versionMeets_none_iff.mp h.1)) fun heq ↦ ?_
    exact h.2 (hversions (versionEq_iff.mpr heq.symm))

theorem mem_of_assignmentOf {ids fmris : List PkgFmri} {fmri : PkgFmri} (hsub : fmris ⊆ ids)
    (h : assignmentOf ids fmris (number ids fmri) = true) : fmri ∈ fmris := by
  rw [assignmentOf, decide_eq_true_eq] at h
  obtain ⟨other, hother, hnumber⟩ := List.mem_map.mp h
  exact number_injOn (hsub hother) hnumber ▸ hother

variable {earlier : List (List PkgFmri)}

theorem mem_setsOf {solution found : List PkgFmri} (h : found ∈ solution :: earlier) :
    {fmri | fmri ∈ found} ∈ {fmri | fmri ∈ solution} ::
      earlier.map fun found ↦ {fmri | fmri ∈ found} := by
  rcases List.mem_cons.mp h with rfl | h
  · exact List.mem_cons_self
  · exact List.mem_cons_of_mem _ (List.mem_map_of_mem h)

/-- The last solution is allowed by those before it. -/
theorem SearchHistory.allowed (h : SearchHistory ctx start older (solution :: earlier) eliminated)
    (hcandidates : ∀ fmri ∈ start.ids, fmri ∈ ctx.candidates start fmri.pkgName) :
    ∀ found ∈ earlier.map fun found ↦ {fmri | fmri ∈ found},
      Allowed PkgFmri.pkgName (WorseVersion older) {fmri | fmri ∈ solution} found := by
  intro found hfound
  obtain ⟨list, hlist, rfl⟩ := List.mem_map.mp hfound
  obtain ⟨hexcluded, hnot⟩ := (List.pairwise_cons.mp h.pairwise).1 list hlist
  refine ⟨fun fmri hfmri chosen hchosen hname hworse ↦ hexcluded chosen hchosen fmri hfmri ?_, hnot⟩
  exact excluded_of_worse (hname ▸ hcandidates fmri (h.subset _ List.mem_cons_self hfmri)) hworse

/-- A set allowed by all solutions seen holds no eliminated package. -/
theorem absent_of_allowed {solution other : List PkgFmri}
    (h : SearchHistory ctx start older (solution :: earlier) eliminated)
    (hversions : ∀ first ∈ start.ids, ∀ second ∈ start.ids, first.pkgName = second.pkgName →
      versionEq first.version second.version = true → first = second)
    (hother : other ⊆ start.ids)
    (hallowed : ∀ found ∈ {fmri | fmri ∈ solution} ::
        earlier.map (fun found ↦ {fmri | fmri ∈ found}),
      Allowed PkgFmri.pkgName (WorseVersion older) {fmri | fmri ∈ other} found)
    {fmri : PkgFmri} (hfmri : fmri ∈ eliminated) :
    assignmentOf start.ids other (number start.ids fmri) = false := by
  obtain ⟨found, hfound, chosen, hchosen, hexcluded⟩ := (h.mem_eliminated fmri).mp hfmri
  refine Bool.eq_false_iff.mpr fun htrue ↦ ?_
  have hmem := mem_of_assignmentOf hother htrue
  have hname : fmri.pkgName = chosen.pkgName :=
    (mem_fmrisByVersion.mp (mem_candidates.mp hexcluded.1).1).2
  refine (hallowed _ (mem_setsOf hfound)).not_worse fmri hmem chosen hchosen hname ?_
  exact hexcluded.worse (hversions fmri (hother hmem) chosen (h.subset found hfound hchosen) hname)

/-- Assumes: different numbered packages of a name have different versions, and the numbered
packages are candidates. A solution that `solve` returns before the iterations are exhausted is a
model of the clauses present on entry, and no other model with one package for a name and the same
names has every package at a version that is not worse and some package at a better one. -/
theorem solve_optimal (hdecides : Decides ctx.solver) (hnodup : start.ids.Nodup)
    (hiterations : start.iterations = 0)
    (hversions : ∀ first ∈ start.ids, ∀ second ∈ start.ids, first.pkgName = second.pkgName →
      versionEq first.version second.version = true → first = second)
    (hcandidates : ∀ fmri ∈ start.ids, fmri ∈ ctx.candidates start fmri.pkgName)
    {maxIterations : ℕ} {solution : List PkgFmri} {state : State}
    (hexec : Program.exec (ctx.solve older maxIterations) start = (.ok solution, state))
    (hmax : state.iterations ≤ maxIterations) : OptimalSolution start older solution := by
  obtain ⟨hstarted, hfailure⟩ := solve_started hiterations hexec
  obtain ⟨hsub, hmodel, hend⟩ := Program.Triple.of_exec (solve_triple hdecides hnodup hiterations
    (fun h ↦ absurd h (by simp [hfailure])) (by omega)) rfl hexec
  refine ⟨hsub, hmodel, fun other hother hmodels honce himproves ↦ ?_⟩
  rcases hend with hexhausted | rfl | ⟨earlier, eliminated, hhistory, hinv, hunsat⟩
  · omega
  · obtain ⟨_, _, old, hold, -⟩ := himproves.strict
    simp at hold
  · have hallowed := allowed_of_improves PkgFmri.pkgName (WorseVersion older)
      {fmri | fmri ∈ start.ids} {fmri | fmri ∈ solution} {fmri | fmri ∈ other}
      (fun _ _ _ ↦ worseVersion_of_not) (fun first hfirst second hsecond hname h h' ↦
        hversions first hfirst second hsecond hname
          (versionEq_iff.mpr (optionKey_eq_of_not_worse h h')))
      hsub hother (hhistory.allowed hcandidates) himproves honce
    refine hunsat ⟨assignmentOf start.ids other, (hinv.clauses _).mpr ⟨hmodels, ?_, ?_⟩⟩
    · exact fun fmri hfmri ↦ absent_of_allowed hhistory hversions hother hallowed hfmri
    · intro found hfound
      have hnot := (hallowed _ (mem_setsOf hfound)).not_superset
      obtain ⟨fmri, hfmri, hmissing⟩ := Set.not_subset.mp hnot
      exact ⟨fmri, hfmri, Bool.eq_false_iff.mpr fun htrue ↦
        hmissing (mem_of_assignmentOf hother htrue)⟩

end Search

theorem injOn_pkgName_of_nodup {fmris : List PkgFmri} (h : (fmris.map PkgFmri.pkgName).Nodup) :
    Set.InjOn PkgFmri.pkgName {fmri | fmri ∈ fmris} :=
  fun _ hfirst _ hsecond heq ↦ List.inj_on_of_nodup_map h hfirst hsecond heq

theorem image_pkgName_eq {first second : List PkgFmri}
    (h : first.map PkgFmri.pkgName ⊆ second.map PkgFmri.pkgName)
    (h' : second.map PkgFmri.pkgName ⊆ first.map PkgFmri.pkgName) :
    PkgFmri.pkgName '' {fmri | fmri ∈ first} = PkgFmri.pkgName '' {fmri | fmri ∈ second} := by
  ext name
  have hmem : ∀ fmris : List PkgFmri, name ∈ PkgFmri.pkgName '' {fmri | fmri ∈ fmris} ↔
      name ∈ fmris.map PkgFmri.pkgName := fun fmris ↦ by simp
  rw [hmem, hmem]
  exact ⟨fun hname ↦ h hname, fun hname ↦ h' hname⟩

/-! ### Where the newest solution is missed -/

/-- A catalog with the packages `foo` of two publishers and two versions of `bar`. -/
def twoPublishers : Context where
  catalog := [(.plain "p" "foo" 1, some []), (.plain "q" "foo" 1, some []),
    (.plain "p" "bar" 1, some []), (.plain "p" "bar" 2, some [])]
  installed := ⟨[], by decide⟩
  pubRanks := [("p", ⟨1, true, true⟩), ("q", ⟨1, true, true⟩)]
  variants := []
  solver := searchSolver
  pick := fun _ ↦ 0

/-- The two versions of `bar`, of which one is asked for. -/
def barState : State :=
  { State.start [] with
    ids := [.plain "p" "bar" 1, .plain "p" "bar" 2]
    clauses := [[1, 2], [-1, -2]] }

/-- The search for the newest `bar` passes the older one and ends with the newer one. -/
theorem solve_optimal_bar : OptimalSolution barState false [.plain "p" "bar" 2] := by
  have hresult : (Program.exec (twoPublishers.solve false 2000) barState).1 =
      .ok [.plain "p" "bar" 2] := by decide +kernel
  exact solve_optimal decides_searchSolver (by decide) rfl (by decide) (by decide)
    (Program.exec_eq_of_result hresult) (by decide +kernel)

/-- Both packages `foo` and both versions of `bar`, where one `foo` is asked for and the second one
needs the first `bar`. -/
def twoPublishersState : State :=
  { State.start [] with
    ids := [.plain "p" "foo" 1, .plain "q" "foo" 1, .plain "p" "bar" 1, .plain "p" "bar" 2]
    clauses := [[1, 2], [-1, -2], [-2, 3], [-3, -4]] }

/-- A catalog without the older version of `foo`. -/
def withoutOldFoo : Context :=
  { twoPublishers with catalog := [(.plain "p" "foo" 2, some []), (.plain "p" "bar" 1, some [])] }

/-- Two versions of `foo`, where one is asked for and the older one needs `bar`. -/
def withoutOldFooState : State :=
  { State.start [] with
    ids := [.plain "p" "foo" 2, .plain "p" "foo" 1, .plain "p" "bar" 1]
    clauses := [[1, 2], [-1, -2], [-2, 3]] }

/-- The first model found, a single `foo`, is blocked with everything that contains it. When the
other `foo` is not eliminated, because its version is equal or because it is not in the catalog, the
search ends with a set that a blocked model improves. -/
theorem solve_not_optimal :
    ((Program.exec (twoPublishers.solve false 2000) twoPublishersState).1 =
        .ok [.plain "q" "foo" 1, .plain "p" "bar" 1] ∧
      (Program.exec (twoPublishers.solve false 2000) twoPublishersState).2.iterations = 2 ∧
      ¬ OptimalSolution twoPublishersState false [.plain "q" "foo" 1, .plain "p" "bar" 1]) ∧
    (Program.exec (withoutOldFoo.solve false 2000) withoutOldFooState).1 =
        .ok [.plain "p" "foo" 1, .plain "p" "bar" 1] ∧
      (Program.exec (withoutOldFoo.solve false 2000) withoutOldFooState).2.iterations = 2 ∧
      ¬ OptimalSolution withoutOldFooState false [.plain "p" "foo" 1, .plain "p" "bar" 1] := by
  refine ⟨⟨by decide +kernel, by decide +kernel, fun h ↦ ?_⟩, by decide +kernel, by decide +kernel,
    fun h ↦ ?_⟩
  · refine h.optimal [.plain "p" "foo" 1, .plain "p" "bar" 2] (by decide) (by decide) ?_
      ⟨?_, ?_, ?_⟩
    · exact injOn_pkgName_of_nodup (by decide)
    · exact image_pkgName_eq (by decide) (by decide)
    · exact show ∀ element ∈ [_, _], ∀ old ∈ [_, _], _ from by decide
    · exact ⟨.plain "p" "bar" 2, by decide, .plain "p" "bar" 1, by decide, by decide, by decide⟩
  · refine h.optimal [.plain "p" "foo" 2, .plain "p" "bar" 1] (by decide) (by decide) ?_
      ⟨?_, ?_, ?_⟩
    · exact injOn_pkgName_of_nodup (by decide)
    · exact image_pkgName_eq (by decide) (by decide)
    · exact show ∀ element ∈ [_, _], ∀ old ∈ [_, _], _ from by decide
    · exact ⟨.plain "p" "foo" 2, by decide, .plain "p" "foo" 1, by decide, by decide, by decide⟩

end Userland.Pkg.Solver
