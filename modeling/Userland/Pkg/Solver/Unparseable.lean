import Userland.Pkg.Solver.Twin

/-!
# Packages that cannot be parsed

`pkg/client/pkg_solver.py`. If no package that cannot be parsed is collected for an installed one,
the solver does what it does on the catalog without these packages (`run_agrees`). A newer version
of an installed package is collected without a look at its actions. If it cannot be parsed, the
clauses of the possible packages ask for its actions, and planning is aborted (`run_inert`,
`run_not_inert`).
-/

set_option autoImplicit false
set_option relaxedAutoImplicit false

namespace Userland.Pkg.Solver

open Userland.Library

section Search

variable {ctx : Context} {unparsed possible : List PkgFmri}
  {publisher : List (String × Option String)}

/-! ### Numbers and clauses -/

theorem getid_twin (fmri : PkgFmri) :
    TwinAgrees ctx unparsed publisher possible (fun _ ↦ True) (getid fmri) (getid fmri) := by
  refine Program.Agrees.get_bind fun s t h ↦ ?_
  have hids : s.ids = t.ids := (congrArg State.ids h.rest :)
  rw [hids]
  dsimp only
  split_ifs
  · exact Program.Agrees.pure trivial
  · exact Program.Agrees.throw

theorem getids_twin (fmris : List PkgFmri) :
    TwinAgrees ctx unparsed publisher possible (fun _ ↦ True) (getids fmris) (getids fmris) := by
  induction fmris with
  | nil => exact Program.Agrees.pure trivial
  | cons fmri rest ih =>
    exact Program.Agrees.bind (getid_twin fmri) fun _ _ ↦ Program.Agrees.bind ih fun _ _ ↦
      Program.Agrees.pure trivial

theorem getfmri_twin (fid : ℕ) :
    TwinAgrees ctx unparsed publisher possible (· ∈ possible) (getfmri fid) (getfmri fid) := by
  refine Program.Agrees.get_bind fun s t h ↦ ?_
  have hids : s.ids = t.ids := (congrArg State.ids h.rest :)
  rw [hids]
  cases fid with
  | zero => exact Program.Agrees.throw
  | succ idx =>
    dsimp only
    cases hfmri : t.ids[idx]? with
    | none => exact Program.Agrees.throw
    | some fmri => exact Program.Agrees.pure (h.ids (hids ▸ List.mem_of_getElem? hfmri))

theorem getfmris_twin (fids : List ℕ) :
    TwinAgrees ctx unparsed publisher possible (· ⊆ possible) (getfmris fids) (getfmris fids) := by
  induction fids with
  | nil => exact Program.Agrees.pure (List.nil_subset _)
  | cons fid rest ih =>
    exact Program.Agrees.bind (getfmri_twin fid) fun _ hfmri ↦ Program.Agrees.bind ih
      fun _ hrest ↦ Program.Agrees.pure (List.cons_subset.mpr ⟨hfmri, hrest⟩)

/-- A change to neither the trimmed packages nor the possible ones. -/
theorem Twin.update {s t : State} (h : Twin ctx unparsed publisher possible s t) (u : State → State)
    (hrest : ∀ state, (u state).rest = u state.rest)
    (hsame : ∀ state, u state = { state with
      clauses := (u state).clauses, addclauseFailure := (u state).addclauseFailure,
      iterations := (u state).iterations, solveCalls := (u state).solveCalls }) :
    Twin ctx unparsed publisher possible (u s) (u t) := by
  have hupdate : (u s).rest = (u t).rest := by rw [hrest, hrest, h.rest]
  rw [hsame s, hsame t] at hupdate ⊢
  exact ⟨h.publisher, hupdate, h.trimDict, h.fmriState, h.stored, h.possSet, h.ids, h.possibleDict⟩

theorem addClause_twin (clause : Clause) {s t : State}
    (h : Twin ctx unparsed publisher possible s t) :
    Twin ctx unparsed publisher possible (ctx.addClause clause s)
      ((ctx.without unparsed).addClause clause t) :=
  h.update (ctx.addClause clause) (fun _ ↦ rfl) fun _ ↦ rfl

theorem addclauses_twin (clauses : List Clause) {s t : State}
    (h : Twin ctx unparsed publisher possible s t) :
    Twin ctx unparsed publisher possible (ctx.addclauses clauses s)
      ((ctx.without unparsed).addclauses clauses t) := by
  induction clauses generalizing s t with
  | nil => exact h
  | cons clause rest ih => exact ih (addClause_twin clause h)

theorem addGenerated_twin {generate generate' : SolverM (List Clause)}
    (h : TwinAgrees ctx unparsed publisher possible (fun _ ↦ True) generate generate') :
    TwinAgrees ctx unparsed publisher possible (fun _ ↦ True) (ctx.addGenerated generate)
      ((ctx.without unparsed).addGenerated generate') :=
  Program.Agrees.bind h fun clauses _ ↦ Program.Agrees.modify trivial fun _ _ ↦
    addclauses_twin clauses

theorem genOneOf_twin (fmris : List PkgFmri) :
    TwinAgrees ctx unparsed publisher possible (fun _ ↦ True)
      (ctx.addGenerated (genOneOfTheseClauses fmris))
      ((ctx.without unparsed).addGenerated (genOneOfTheseClauses fmris)) := by
  refine addGenerated_twin ?_
  unfold genOneOfTheseClauses
  split_ifs
  · exact Program.Agrees.throw
  · exact Program.Agrees.bind (getids_twin fmris) fun _ _ ↦ Program.Agrees.pure trivial

theorem getPossible_twin (name : String) :
    TwinAgrees ctx unparsed publisher possible (fun _ ↦ True) (getPossible name)
      (getPossible name) := by
  refine Program.Agrees.get_bind fun s t h ↦ ?_
  have hdict : s.possibleDict = t.possibleDict := (congrArg State.possibleDict h.rest :)
  rw [hdict]
  cases t.possibleDict.lookup name with
  | none => exact Program.Agrees.throw
  | some fmris => exact Program.Agrees.pure trivial

theorem addInstalledName_twin (name : String) :
    TwinAgrees ctx unparsed publisher possible (fun _ ↦ True) (ctx.addInstalledName name)
      ((ctx.without unparsed).addInstalledName name) :=
  Program.Agrees.bind (getPossible_twin name) fun _ _ ↦ genOneOf_twin _

theorem addProposed_twin (entry : String × List PkgFmri) :
    TwinAgrees ctx unparsed publisher possible (fun _ ↦ True) (ctx.addProposed entry)
      ((ctx.without unparsed).addProposed entry) :=
  Program.Agrees.bind (getPossible_twin entry.1) fun _ _ ↦ genOneOf_twin _

theorem addFixeds_twin (fmris : List PkgFmri) :
    TwinAgrees ctx unparsed publisher possible (fun _ ↦ True) (Program.forEach ctx.addFixed fmris)
      (Program.forEach (ctx.without unparsed).addFixed fmris) :=
  Program.Agrees.forEach fun fmri _ ↦ genOneOf_twin [fmri]

variable {entries : List (String × List PkgFmri)} {holds : List PkgFmri} {excludes : Excludes}
  (hdel : Deletable ctx unparsed)
  (hsame : SamePublishers ctx unparsed publisher (Looked ctx publisher entries holds excludes))
  (hkept : ∀ fmri ∈ possible, fmri ∉ unparsed ∧ Reached ctx publisher entries holds excludes fmri)

include hdel hsame hkept

theorem genDependencyClauses_twin (hpossible : possible ≠ []) (fmri : PkgFmri) {da : Dependency}
    (hname : ∀ named, da.pkgFmri = .ok named →
      Looked ctx publisher entries holds excludes named.pkgName) :
    TwinAgrees ctx unparsed publisher possible (fun _ ↦ True) (ctx.genDependencyClauses fmri da)
      ((ctx.without unparsed).genDependencyClauses fmri da) := by
  refine Program.Agrees.bind (parseDependency_twin hdel hsame (fun other h ↦ (hkept other h).1)
    hpossible hname) ?_
  rintro ⟨nm, m⟩ -
  dsimp only
  split_ifs <;>
    exact Program.Agrees.bind (getid_twin fmri) fun _ _ ↦ Program.Agrees.bind (getids_twin _)
      fun _ _ ↦ Program.Agrees.pure trivial

theorem addPossible_twin {fmris : List PkgFmri} (hfmris : fmris ⊆ possible) :
    TwinAgrees ctx unparsed publisher possible (fun _ ↦ True) (ctx.addPossible excludes fmris)
      ((ctx.without unparsed).addPossible excludes fmris) := by
  refine Program.Agrees.bind (M := fun _ ↦ True) (addGenerated_twin ?_) fun _ _ ↦
    Program.Agrees.forEach fun fmri hfmri ↦ ?_
  · unfold genHighlanderClauses
    split_ifs
    · exact Program.Agrees.pure trivial
    · exact Program.Agrees.bind (getids_twin fmris) fun _ _ ↦ Program.Agrees.pure trivial
  · have hmem := hfmris hfmri
    rw [getDependencyActions_without (hkept fmri hmem).1]
    refine Program.Agrees.bind (Program.Agrees.lift
      (M := fun das ↦ ctx.getDependencyActions fmri excludes = .ok das) fun _ h ↦ h)
      fun das hdas ↦ Program.Agrees.forEach fun da hda ↦ addGenerated_twin ?_
    exact genDependencyClauses_twin hdel hsame hkept (List.ne_nil_of_mem hmem) fmri
      fun named hnamed ↦ Or.inr ⟨fmri, (hkept fmri hmem).2, das, hdas, da, hda, named, hnamed, rfl⟩

theorem addAllPossible_twin :
    TwinAgrees ctx unparsed publisher possible (fun _ ↦ True) (ctx.addAllPossible excludes)
      ((ctx.without unparsed).addAllPossible excludes) := by
  refine Program.Agrees.get_bind fun s t h ↦ ?_
  have hdict : s.possibleDict = t.possibleDict := (congrArg State.possibleDict h.rest :)
  rw [← hdict]
  exact Program.Agrees.forEach fun entry hentry ↦
    addPossible_twin hdel hsame hkept (h.possibleDict entry hentry)

/-! ### The search -/

omit hdel hsame hkept in
theorem eliminateEach_twin (fmris eliminated : List PkgFmri) :
    TwinAgrees ctx unparsed publisher possible (fun _ ↦ True) (ctx.eliminateEach fmris eliminated)
      ((ctx.without unparsed).eliminateEach fmris eliminated) := by
  induction fmris generalizing eliminated with
  | nil => exact Program.Agrees.pure trivial
  | cons fmri rest ih =>
    unfold Context.eliminateEach
    split_ifs
    · exact ih eliminated
    · refine Program.Agrees.bind (getid_twin fmri) fun fid _ ↦ ?_
      exact Program.Agrees.bind (M := fun _ ↦ True) (Program.Agrees.modify trivial fun _ _ ↦
        addClause_twin _) fun _ _ ↦ ih _

theorem eliminate_twin (older : Bool) (fids : List ℕ) (eliminated : List PkgFmri) :
    TwinAgrees ctx unparsed publisher possible (fun _ ↦ True) (ctx.eliminate older fids eliminated)
      ((ctx.without unparsed).eliminate older fids eliminated) := by
  induction fids generalizing eliminated with
  | nil => exact Program.Agrees.pure trivial
  | cons fid rest ih =>
    refine Program.Agrees.bind (getfmri_twin fid) fun pfmri hpfmri ↦ ?_
    have hpossible : possible ≠ [] := List.ne_nil_of_mem hpfmri
    refine Program.Agrees.bind (M := fun _ ↦ True) (Program.Simulates.weaken
      (combCommon_twin hdel hsame (fun other h ↦ (hkept other h).1) (hkept pfmri hpfmri).2.looked
        .none true) (fun _ _ h ↦ h) ?_ (fun _ _ _ _ h ↦ h)) ?_
    · rintro ⟨_, _⟩ ⟨_, _⟩ s t ⟨hdivided, h⟩
      exact ⟨⟨Prod.ext (hdivided.fst_eq (Or.inr hpossible)) (hdivided.snd_eq hpossible), trivial⟩,
        h⟩
    · rintro ⟨newer, remaining⟩ -
      exact Program.Agrees.bind (eliminateEach_twin _ eliminated) fun _ _ ↦ ih _

theorem solveLoop_twin (older : Bool) (remaining : ℕ) (solutionVector : List ℕ)
    (eliminated : List PkgFmri) :
    TwinAgrees ctx unparsed publisher possible (fun _ ↦ True)
      (ctx.solveLoop older remaining solutionVector eliminated)
      ((ctx.without unparsed).solveLoop older remaining solutionVector eliminated) := by
  have hsolveCalls : TwinAgrees ctx unparsed publisher possible (fun _ ↦ True)
      (modify fun state ↦ { state with solveCalls := state.solveCalls + 1 })
      (modify fun state ↦ { state with solveCalls := state.solveCalls + 1 }) :=
    Program.Agrees.modify trivial fun _ _ h ↦ h.update
      (fun state ↦ { state with solveCalls := state.solveCalls + 1 }) (fun _ ↦ rfl) fun _ ↦ rfl
  have hiterations : TwinAgrees ctx unparsed publisher possible (fun _ ↦ True)
      (modify fun state ↦ { state with iterations := state.iterations + 1 })
      (modify fun state ↦ { state with iterations := state.iterations + 1 }) :=
    Program.Agrees.modify trivial fun _ _ h ↦ h.update
      (fun state ↦ { state with iterations := state.iterations + 1 }) (fun _ ↦ rfl) fun _ ↦ rfl
  induction remaining generalizing solutionVector eliminated with
  | zero =>
    unfold Context.solveLoop
    refine Program.Agrees.get_bind fun s t h ↦ ?_
    rw [show s.addclauseFailure =
      t.addclauseFailure from (congrArg State.addclauseFailure h.rest :),
      show s.solveCalls = t.solveCalls from (congrArg State.solveCalls h.rest :),
      show s.clauses = t.clauses from (congrArg State.clauses h.rest :), without_solver]
    split_ifs
    · exact Program.Agrees.pure trivial
    · exact Program.Agrees.bind hsolveCalls fun _ _ ↦ Program.Agrees.pure trivial
    · exact Program.Agrees.bind hsolveCalls fun _ _ ↦ Program.Agrees.bind hiterations fun _ _ ↦
        Program.Agrees.pure trivial
  | succ remaining ih =>
    unfold Context.solveLoop
    refine Program.Agrees.get_bind fun s t h ↦ ?_
    rw [show s.addclauseFailure =
      t.addclauseFailure from (congrArg State.addclauseFailure h.rest :),
      show s.solveCalls = t.solveCalls from (congrArg State.solveCalls h.rest :),
      show s.clauses = t.clauses from (congrArg State.clauses h.rest :), without_solver]
    by_cases hfailure : t.addclauseFailure = true
    · rw [if_pos hfailure, if_pos hfailure]
      exact Program.Agrees.pure trivial
    rw [if_neg hfailure, if_neg hfailure]
    refine Program.Agrees.bind hsolveCalls fun _ _ ↦ ?_
    by_cases hsolve : (!ctx.solver.solve t.solveCalls t.clauses) = true
    · rw [if_pos hsolve, if_pos hsolve]
      exact Program.Agrees.pure trivial
    rw [if_neg hsolve, if_neg hsolve]
    refine Program.Agrees.bind hiterations fun _ _ ↦ ?_
    refine Program.Agrees.bind (eliminate_twin hdel hsame hkept older _ eliminated)
      fun eliminated _ ↦ ?_
    split_ifs
    · exact Program.Agrees.pure trivial
    · exact Program.Agrees.bind (M := fun _ ↦ True) (Program.Agrees.modify trivial fun _ _ ↦
        addClause_twin _) fun _ _ ↦ ih _ _

theorem solve_twin (older : Bool) (maxIterations : ℕ) :
    TwinAgrees ctx unparsed publisher possible (· ⊆ possible) (ctx.solve older maxIterations)
      ((ctx.without unparsed).solve older maxIterations) := by
  refine Program.Agrees.get_bind fun s t h ↦ ?_
  rw [show s.iterations = t.iterations from (congrArg State.iterations h.rest :)]
  refine Program.Agrees.bind (solveLoop_twin hdel hsame hkept older _ [] []) fun solutionVector _ ↦
    ?_
  refine Program.Agrees.get_bind fun s t h ↦ ?_
  rw [show s.iterations = t.iterations from (congrArg State.iterations h.rest :)]
  split_ifs
  · exact Program.Agrees.throw
  · exact getfmris_twin solutionVector

/-! ### The packages of a solution -/

omit hdel hsame hkept in
theorem mem_of_requiredFmris {fmris required : List PkgFmri} {excludes : Excludes} {fmri : PkgFmri}
    (h : ctx.requiredFmris fmris excludes fmri = .ok required) : required ⊆ fmris := by
  unfold Context.requiredFmris at h
  cases hdas : ctx.getDependencyActions fmri excludes with
  | error error =>
    rw [hdas] at h
    cases h
  | ok das =>
    rw [hdas] at h
    intro other hother
    obtain ⟨da, -, hda⟩ := Program.mem_of_mapM_ok h hother
    cases hnamed : da.pkgFmri with
    | error error =>
      rw [hnamed] at hda
      cases hda
    | ok named =>
      rw [hnamed] at hda
      unfold fmriByName at hda
      simp only [bind, Except.bind] at hda
      split at hda
      · rename_i found hfound
        obtain rfl : found = other := Except.ok.inj hda
        exact List.mem_of_find?_eq_some hfound
      · cases hda

omit hdel hsame hkept in
theorem withoutObsolete_twin {solution : List PkgFmri}
    (hsolution : ∀ fmri ∈ solution, fmri ∉ unparsed) (excludes : Excludes) :
    TwinAgrees ctx unparsed publisher possible (fun _ ↦ True)
    (ctx.withoutObsolete solution excludes)
      ((ctx.without unparsed).withoutObsolete solution excludes) := by
  refine Program.Agrees.bind (Program.Agrees.filterEach fun fmri hfmri ↦ ?_) fun fmris hfmris ↦ ?_
  · rw [map_eq_pure_bind, map_eq_pure_bind]
    exact Program.Agrees.bind (fmriIsObsolete_twin (hsolution fmri hfmri) []) fun _ _ ↦
      Program.Agrees.pure trivial
  have hmem : ∀ fmri ∈ fmris, fmri ∉ unparsed := fun fmri hfmri ↦ hsolution fmri (hfmris hfmri)
  refine Program.Agrees.bind (Program.Agrees.filterEach fun fmri hfmri ↦
    (fmriIsRenamed_twin (hmem fmri hfmri) excludes)) fun renamedFmris _ ↦ ?_
  split_ifs
  · exact Program.Agrees.pure trivial
  · refine Program.Agrees.bind (Program.Simulates.drain (N := (· ∈ fmris)) ctx.pick
      (fun renamed pfmri hpfmri ↦ ?_) fmris.length renamedFmris _ []
      (fun fmri h ↦ List.mem_of_mem_filter h) (by simp)) fun result _ ↦ ?_
    · rw [requiredFmris_without (hmem pfmri hpfmri)]
      exact Program.Agrees.bind (Program.Agrees.lift fun found hfound ↦ mem_of_requiredFmris hfound)
        fun found hfound ↦ Program.Agrees.pure hfound
    · rcases result with _ | ⟨_, _⟩
      · exact Program.Agrees.throw
      · exact Program.Agrees.pure trivial

/-! ### Searching for an installation -/

omit hdel hsame hkept in
theorem getDependents_without (hinstalled : ∀ fmri ∈ ctx.installed.fmris, fmri ∉ unparsed)
    (pfmri : PkgFmri) (excludes : Excludes) :
    (ctx.without unparsed).getDependents pfmri excludes = ctx.getDependents pfmri excludes := by
  unfold Context.getDependents
  have hedges : ((ctx.without unparsed).installed.fmris.mapM fun fmri ↦ do
        let required ← (ctx.without unparsed).requiredFmris (ctx.without unparsed).installed.fmris
          excludes fmri
        return (fmri, required)) = ctx.installed.fmris.mapM fun fmri ↦ do
        let required ← ctx.requiredFmris ctx.installed.fmris excludes fmri
        return (fmri, required) :=
    Program.mapM_congr fun fmri hfmri ↦ by
      rw [requiredFmris_without (hinstalled fmri hfmri)]
      rfl
  rw [hedges]

omit hdel hsame hkept in
theorem mem_of_getDependents {pfmri : PkgFmri} {excludes : Excludes} {dependents : List PkgFmri}
    (h : ctx.getDependents pfmri excludes = .ok dependents) : dependents ⊆ ctx.installed.fmris := by
  unfold Context.getDependents at h
  cases hedges : (ctx.installed.fmris.mapM fun fmri ↦ do
      let required ← ctx.requiredFmris ctx.installed.fmris excludes fmri
      return (fmri, required)) with
  | error error =>
    rw [hedges] at h
    cases h
  | ok edges =>
    rw [hedges] at h
    obtain rfl : (edges.filter fun edge ↦ pfmri ∈ edge.2).map Prod.fst = dependents :=
      Except.ok.inj h
    intro fmri hfmri
    obtain ⟨edge, hedge, rfl⟩ := List.mem_map.mp hfmri
    obtain ⟨other, hother, hedge'⟩ := Program.mem_of_mapM_ok hedges (List.mem_of_mem_filter hedge)
    cases hrequired : ctx.requiredFmris ctx.installed.fmris excludes other with
    | error error =>
      rw [hrequired] at hedge'
      cases hedge'
    | ok required =>
      rw [hrequired] at hedge'
      obtain rfl : (other, required) = edge := Except.ok.inj hedge'
      exact hother

omit hdel hsame hkept in
theorem restoreSolver_twin (solver : Bool × List Clause) :
    TwinAgrees ctx unparsed publisher possible (fun _ ↦ True) (modify (State.restoreSolver solver))
      (modify (State.restoreSolver solver)) :=
  Program.Agrees.modify trivial fun _ _ h ↦ h.update _ (fun _ ↦ rfl) fun _ ↦ rfl

theorem checkObsolete_twin (obsoleteCheckSolver : Bool × List Clause) :
    TwinAgrees ctx unparsed publisher possible (fun _ ↦ True)
      (ctx.checkObsolete obsoleteCheckSolver excludes)
      ((ctx.without unparsed).checkObsolete obsoleteCheckSolver excludes) := by
  have hobsolete : ∀ fmri ∈ ctx.installed.fmris, TwinAgrees ctx unparsed publisher possible
      (fun _ ↦ True) (ctx.fmriIsObsolete fmri []) ((ctx.without unparsed).fmriIsObsolete fmri []) :=
    fun fmri hfmri ↦ fmriIsObsolete_twin (hdel.installed fmri hfmri) []
  refine Program.Agrees.bind (restoreSolver_twin _) fun _ _ ↦ ?_
  refine Program.Agrees.bind (addFixeds_twin _) fun _ _ ↦ ?_
  refine Program.Agrees.handle (Program.Agrees.bind (solve_twin hdel hsame hkept false 2000)
    fun _ _ ↦ Program.Agrees.pure trivial) fun error ↦ ?_
  split
  · refine Program.Agrees.bind (M := fun _ ↦ True) (Program.Simulates.weaken
      (Program.Simulates.flatMapEach (N := fun _ ↦ True) fun fmri hfmri ↦ ?_) (fun _ _ h ↦ h)
      (fun _ _ _ _ h ↦ ⟨⟨h.1.1, trivial⟩, h.2⟩) (fun _ _ _ _ h ↦ h)) fun instObsDeps _ ↦ ?_
    · refine Program.Agrees.bind (hobsolete fmri hfmri) fun obsolete _ ↦ ?_
      split_ifs
      · rw [getDependents_without hdel.installed]
        refine Program.Agrees.bind (Program.Agrees.lift fun _ h ↦ mem_of_getDependents h)
          fun dependents hdependents ↦ ?_
        refine Program.Agrees.weaken (Program.Agrees.filterEach fun other hother ↦ ?_)
          fun _ _ _ _ ↦ trivial
        rw [map_eq_pure_bind, map_eq_pure_bind]
        exact Program.Agrees.bind (hobsolete other (hdependents hother)) fun _ _ ↦
          Program.Agrees.pure trivial
      · exact Program.Agrees.pure (by simp)
    · split_ifs
      · exact Program.Agrees.throw
      · exact Program.Agrees.pure trivial
  · exact Program.Agrees.throw

theorem solveProposed_twin (obsoleteCheckSolver : Bool × List Clause) :
    TwinAgrees ctx unparsed publisher possible (· ⊆ possible)
      (ctx.solveProposed obsoleteCheckSolver excludes)
      ((ctx.without unparsed).solveProposed obsoleteCheckSolver excludes) := by
  refine Program.Agrees.handle (solve_twin hdel hsame hkept false 2000) fun error ↦ ?_
  split
  · exact Program.Agrees.bind (checkObsolete_twin hdel hsame hkept _) fun _ _ ↦
      Program.Agrees.throw
  · exact Program.Agrees.throw

theorem solveAgain_twin (savedSolver : Bool × List Clause) (names : List String)
    (savedSolution : List PkgFmri) :
    TwinAgrees ctx unparsed publisher possible (· ⊆ possible)
      (ctx.solveAgain savedSolver names savedSolution)
      ((ctx.without unparsed).solveAgain savedSolver names savedSolution) := by
  refine Program.Agrees.bind (restoreSolver_twin _) fun _ _ ↦ ?_
  refine Program.Agrees.bind (addFixeds_twin _) fun _ _ ↦ ?_
  refine Program.Agrees.get_bind fun s t h ↦ ?_
  have hsolver : s.saveSolver = t.saveSolver :=
    Prod.ext (congrArg State.addclauseFailure h.rest :) (congrArg State.clauses h.rest :)
  rw [hsolver]
  refine Program.Agrees.bind (solve_twin hdel hsame hkept true 2000) fun _ _ ↦ ?_
  refine Program.Agrees.bind (restoreSolver_twin _) fun _ _ ↦ ?_
  exact Program.Agrees.bind (addFixeds_twin _) fun _ _ ↦ solve_twin hdel hsame hkept false 2000

theorem searchInstall_twin (proposed : List (String × List PkgFmri)) :
    TwinAgrees ctx unparsed publisher possible (fun _ ↦ True) (ctx.searchInstall proposed excludes)
      ((ctx.without unparsed).searchInstall proposed excludes) := by
  refine Program.Agrees.bind (addAllPossible_twin hdel hsame hkept) fun _ _ ↦ ?_
  refine Program.Agrees.get_bind fun s t h ↦ ?_
  have hsolver : s.saveSolver = t.saveSolver :=
    Prod.ext (congrArg State.addclauseFailure h.rest :) (congrArg State.clauses h.rest :)
  rw [hsolver]
  refine Program.Agrees.bind (Program.Agrees.forEach fun entry _ ↦ addProposed_twin entry)
    fun _ _ ↦ ?_
  refine Program.Agrees.bind (Program.Agrees.forEach fun name _ ↦ addInstalledName_twin name)
    fun _ _ ↦ ?_
  refine Program.Agrees.get_bind fun s' t' h' ↦ ?_
  have hsolver' : s'.saveSolver = t'.saveSolver :=
    Prod.ext (congrArg State.addclauseFailure h'.rest :) (congrArg State.clauses h'.rest :)
  rw [hsolver']
  refine Program.Agrees.bind (solveProposed_twin hdel hsame hkept _) fun solution _ ↦ ?_
  rw [without_installed]
  dsimp only
  split_ifs
  · exact Program.Agrees.pure trivial
  · refine Program.Agrees.bind (solveAgain_twin hdel hsame hkept _ _ _) fun again hagain ↦ ?_
    exact withoutObsolete_twin (fun fmri hfmri ↦ (hkept fmri (hagain hfmri)).1) excludes

end Search

/-! ### The operations -/

section Operations

variable {ctx : Context} {unparsed : List PkgFmri} {publisher : List (String × Option String)}

theorem getInstalledUnboundIncList_without (hdel : Deletable ctx unparsed) (names : List String)
    (excludes : Excludes) :
    (ctx.without unparsed).getInstalledUnboundIncList names excludes =
      ctx.getInstalledUnboundIncList names excludes := by
  unfold Context.getInstalledUnboundIncList
  rw [without_installed]
  rw [Program.mapM_congr (f := fun fmri ↦ do
      let actions ← (ctx.without unparsed).getEntryActions fmri excludes
      let das ← dependencyFmris actions
      return (fmri, das, installHold actions)) (g := fun fmri ↦ do
      let actions ← ctx.getEntryActions fmri excludes
      let das ← dependencyFmris actions
      return (fmri, das, installHold actions)) fun fmri hfmri ↦ by
        rw [getEntryActions_without (hdel.installed fmri hfmri)]]

/-- What `solve_update` and `solve_install` are asked for. -/
inductive Request
  | update
  | install (existingFreezes : List PkgFmri) (proposed : Proposed)

/-- `solve_update` or `solve_install`. -/
def Context.run (ctx : Context) (excludes : Excludes) : Request → SolverM (List PkgFmri)
  | .update => ctx.solveUpdate excludes
  | .install existingFreezes proposed => ctx.solveInstall existingFreezes proposed excludes

/-- The packages that a request proposes, by name. -/
def Request.entries : Request → List (String × List PkgFmri)
  | .update => []
  | .install _ proposed => proposed.entries

/-- The incorporations held in place, what they incorporate, and the freezes. -/
def Request.holds (ctx : Context) (excludes : Excludes) : Request → List PkgFmri
  | .update => []
  | .install existingFreezes proposed =>
    match ctx.getInstalledUnboundIncList (proposed.entries.map Prod.fst) excludes with
    | .ok incList => allHolds incList existingFreezes
    | .error _ => []

/-- A package of the catalog is collected for an installed one: its version is not older, its
publisher is acceptable, and neither its name is proposed nor a hold excludes it. -/
structure Collected (ctx : Context) (publisher : List (String × Option String))
    (names : List String) (holds : List PkgFmri) (fmri : PkgFmri) : Prop where
  catalog : fmri ∈ ctx.catalog.map Prod.fst
  acceptable : ctx.acceptable (State.start publisher) fmri = true
  newer : ∃ installed ∈ ctx.installed.fmris, fmri.pkgName = installed.pkgName ∧
    versionMeets .none installed fmri = true
  unproposed : fmri.pkgName ∉ names
  unheld : ¬ Withheld holds fmri

/-- The first phases leave eligible packages only. -/
theorem eligible_of_candidate {trimmed : State} {entries : List (String × List PkgFmri)}
    {holds : List PkgFmri} {R : PkgFmri → Prop}
    (hreads : Reads ctx R (State.start publisher) trimmed) (holder : OlderGone ctx trimmed)
    (hexcluded : ∀ entry ∈ entries, ∀ fmri ∈ ctx.candidates trimmed entry.1, fmri ∈ entry.2)
    (hnarrowed : ∀ hold ∈ holds, Narrowed ctx .auto hold trimmed) {fmri : PkgFmri}
    (hfmri : fmri ∈ ctx.candidates trimmed fmri.pkgName) :
    Eligible ctx publisher entries holds fmri := by
  have hstart := mem_candidates.mp (hreads.candidates hfmri)
  refine ⟨(mem_fmrisByVersion.mp hstart.1).1, hstart.2.2.1.resolve_left List.not_mem_nil, ?_,
    fun entry hentry hname ↦ hexcluded entry hentry fmri (hname ▸ hfmri), ?_⟩
  · rintro ⟨installed, hinstalled, hname, hnot⟩
    rw [hname] at hfmri
    exact absurd (hnot.symm.trans (holder installed hinstalled fmri hfmri)) (by decide)
  · rintro ⟨hold, hhold, hname, hnot⟩
    rw [hname] at hfmri
    exact absurd (hnot.symm.trans (hnarrowed hold hhold fmri hfmri)) (by decide)

/-- Candidates that are not older than an installed package are collected for it. -/
theorem collected_of_candidate {trimmed : State} {names : List String} {holds : List PkgFmri}
    {R : PkgFmri → Prop} (hreads : Reads ctx R (State.start publisher) trimmed)
    (hnarrowed : ∀ hold ∈ holds, Narrowed ctx .auto hold trimmed)
    {fmri other : PkgFmri} (hfmri : fmri ∈ ctx.installed.fmris)
    (hother : other ∈ ctx.newerCandidates trimmed fmri) (hname : other.pkgName ∉ names) :
    Collected ctx publisher names holds other := by
  obtain ⟨hcandidate, hmeets⟩ := List.mem_filter.mp hother
  have hstart := mem_candidates.mp (hreads.candidates hcandidate)
  obtain ⟨hcatalog, hotherName⟩ := mem_fmrisByVersion.mp hstart.1
  refine ⟨hcatalog, hstart.2.2.1.resolve_left List.not_mem_nil, ⟨fmri, hfmri, hotherName, hmeets⟩,
    hname, ?_⟩
  rintro ⟨hold, hhold, heq, hexcluded⟩
  rw [hotherName.symm.trans heq] at hcandidate
  exact absurd (hexcluded.symm.trans (hnarrowed hold hhold other hcandidate)) (by decide)

/-- What is collected for an installed package is a candidate. -/
theorem Collected.mem_newerCandidates {trimmed : State} {names : List String} {holds : List PkgFmri}
    {fmri : PkgFmri} (h : Collected ctx publisher names holds fmri)
    (hreads : Reads ctx (TrimReason ctx names holds) (State.start publisher) trimmed) :
    ∃ installed ∈ ctx.installed.fmris, fmri ∈ ctx.newerCandidates trimmed installed := by
  obtain ⟨installed, hinstalled, hname, hmeets⟩ := h.newer
  refine ⟨installed, hinstalled, List.mem_filter.mpr ⟨mem_candidates.mpr
    ⟨mem_fmrisByVersion.mpr ⟨h.catalog, hname⟩, fun htrim ↦ ?_, Or.inr ?_, Or.inl hreads.possSet⟩,
    hmeets⟩⟩
  · rcases hreads.reason_of_start htrim with (hold | hproposed | hheld) | hpub
    · obtain ⟨other, hother, hname', hnot⟩ := hold
      obtain rfl : other = installed :=
        List.inj_on_of_nodup_map ctx.installed.nodup_pkgName hother hinstalled
          (hname'.symm.trans hname)
      exact absurd (hnot.symm.trans hmeets) (by decide)
    · exact h.unproposed hproposed
    · exact h.unheld hheld
    · exact absurd (hpub.symm.trans h.acceptable) (by decide)
  · rw [acceptable_congr hreads.publisher]
    exact h.acceptable

variable {entries : List (String × List PkgFmri)} {holds : List PkgFmri} {excludes : Excludes}

/-- The names of the installed packages are looked up. -/
theorem looked_installed {fmri : PkgFmri} (h : fmri ∈ ctx.installed.fmris) :
    Looked ctx publisher entries holds excludes fmri.pkgName :=
  (Reached.installed h).looked

theorem trimOlders_twin (hdel : Deletable ctx unparsed)
    (hsame : SamePublishers ctx unparsed publisher (Looked ctx publisher entries holds excludes)) :
    TwinAgrees ctx unparsed publisher [] (fun _ ↦ True)
      (Program.forEach ctx.trimOlder ctx.installed.fmris)
      (Program.forEach (ctx.without unparsed).trimOlder ctx.installed.fmris) :=
  Program.Agrees.forEach fun _ hfmri ↦
    combTrim_twin hdel hsame (by simp) (looked_installed hfmri) .none

/-- What is collected for the installed packages is the same in both runs and reached. -/
theorem newer_reached (hdel : Deletable ctx unparsed)
    (hsame : SamePublishers ctx unparsed publisher (Looked ctx publisher entries holds excludes))
    (collect : PkgFmri → List PkgFmri → List PkgFmri)
    (hcollect : ∀ fmri matching, ∀ other ∈ collect fmri matching, other = fmri ∨ other ∈ matching)
    {trimmed : State} (heligible : ∀ fmri, fmri ∈ ctx.candidates trimmed fmri.pkgName →
      Eligible ctx publisher entries holds fmri) :
    Program.Simulates (fun s t ↦ (Twin ctx unparsed publisher [] s t ∧ NoneNewer ctx unparsed s) ∧
        s = trimmed)
      (Program.flatMapEach (fun fmri ↦ do
        let (matching, _) ← ctx.combNewerFmris fmri true
        return collect fmri matching) ctx.installed.fmris)
      (Program.flatMapEach (fun fmri ↦ do
        let (matching, _) ← (ctx.without unparsed).combNewerFmris fmri true
        return collect fmri matching) ctx.installed.fmris)
      (fun a b s t ↦ (a = b ∧ ∀ fmri ∈ a, fmri ∉ unparsed ∧
          Reached ctx publisher entries holds excludes fmri) ∧
        Twin ctx unparsed publisher [] s t ∧ Reads ctx (fun _ ↦ True) trimmed s)
      fun e d _ _ ↦ e = d := by
  refine Program.Simulates.weaken (Program.Simulates.and_left (newer_twin hsame collect hcollect
    fun fmri hfmri ↦ ⟨hdel.installed fmri hfmri, looked_installed hfmri⟩).simulates
    (newer_triple (R := fun _ ↦ True) collect _)) (fun _ _ h ↦ h) ?_ fun _ _ _ _ h ↦ h
  rintro found _ s t ⟨⟨⟨rfl, hfound⟩, htwin, -⟩, ⟨hall, -⟩, hreads⟩
  refine ⟨⟨rfl, fun other hother ↦ ⟨hfound other hother, ?_⟩⟩, htwin, hreads⟩
  rw [hall] at hother
  obtain ⟨fmri, hfmri, hmem⟩ := List.mem_flatMap.mp hother
  rcases hcollect fmri _ other hmem with rfl | hcandidate
  · exact Reached.installed hfmri
  · have hmem' := List.mem_of_mem_filter hcandidate
    have hname := (mem_fmrisByVersion.mp (mem_candidates.mp hmem').1).2
    rw [← hname] at hmem'
    exact Reached.named (heligible other hmem') (List.mem_append_left _
      (hname ▸ List.mem_map_of_mem hfmri))

theorem solveUpdate_twin (hdel : Deletable ctx unparsed)
    (hsame : SamePublishers ctx unparsed publisher (Looked ctx publisher [] [] excludes))
    (hnone : ∀ fmri ∈ unparsed, ¬ Collected ctx publisher [] [] fmri) :
    Program.Simulates (fun s t ↦ s = State.start publisher ∧ t = State.start publisher)
      (ctx.solveUpdate excludes) ((ctx.without unparsed).solveUpdate excludes)
      (fun a b _ _ ↦ a = b) fun e d _ _ ↦ e = d := by
  refine Program.Simulates.bind (M := fun _ _ s t ↦ (Twin ctx unparsed publisher [] s t ∧
    NoneNewer ctx unparsed s) ∧ Reads ctx (TrimReason ctx [] []) (State.start publisher) s ∧
      OlderGone ctx s) ?_ fun _ _ ↦ Program.Simulates.of_start fun trimmed _ htrimmed ↦ ?_
  · refine Program.Simulates.weaken (Program.Simulates.and_left (trimOlders_twin hdel hsame)
      (trimOlder_steps (R := TrimReason ctx [] []) (fun _ h ↦ Or.inl h) (State.start publisher)
        (fresh_start ctx publisher).flags)) ?_ ?_ (fun _ _ _ _ h ↦ h.1)
    · rintro s t ⟨rfl, rfl⟩
      exact ⟨Twin.start, rfl⟩
    · rintro _ _ s t ⟨⟨-, htwin⟩, hreads, holder⟩
      refine ⟨⟨htwin, fun fmri hfmri other hother hmem ↦ hnone other hmem ?_⟩, hreads, holder⟩
      exact collected_of_candidate hreads (by simp) hfmri hother List.not_mem_nil
  · obtain ⟨htwin, hreads, holder⟩ := htrimmed
    have heligible : ∀ fmri, fmri ∈ ctx.candidates trimmed fmri.pkgName →
        Eligible ctx publisher [] [] fmri :=
      fun _ ↦ eligible_of_candidate hreads holder (by simp) (by simp)
    refine Program.Simulates.bind (Program.Simulates.weaken (newer_reached hdel hsame
      (fun fmri matching ↦ if matching = [] then [fmri] else matching)
      (fun fmri matching other hother ↦ ?_) heligible) ?_ (fun _ _ _ _ h ↦ h) fun _ _ _ _ h ↦ h)
      fun possibleSet _ ↦ ?_
    · split_ifs at hother
      · exact Or.inl (List.mem_singleton.mp hother)
      · exact Or.inr hother
    · rintro _ _ ⟨rfl, rfl⟩
      exact ⟨htwin, rfl⟩
    refine Program.Simulates.assume ?_
    rintro ⟨rfl, hset⟩
    refine Program.Simulates.bind (closure_twin hdel hsame
      (hreads.flags (fresh_start ctx publisher).flags) heligible
      (fun fmri h ↦ hset fmri (List.mem_dedup.mp h)) (List.nodup_dedup _)) fun closure _ ↦ ?_
    refine Program.Simulates.assume ?_
    rintro ⟨rfl, hclosure⟩
    refine Program.Simulates.bind (M := fun _ _ ↦ Twin ctx unparsed publisher closure)
      (fun s t h ↦ h.assignFmriIds closure) fun _ _ ↦ ?_
    refine Program.Simulates.weaken (Program.Agrees.simulates (M := fun _ ↦ True) ?_)
      (fun _ _ h ↦ h) (fun _ _ _ _ h ↦ h.1.1) (fun _ _ _ _ h ↦ h)
    refine Program.Agrees.bind (addAllPossible_twin hdel hsame hclosure) fun _ _ ↦ ?_
    refine Program.Agrees.bind (Program.Agrees.forEach fun name _ ↦ addInstalledName_twin name)
      fun _ _ ↦ ?_
    refine Program.Agrees.bind (solve_twin hdel hsame hclosure false 2000) fun solution hsolution ↦
      ?_
    exact withoutObsolete_twin (fun fmri hfmri ↦ (hclosure fmri (hsolution hfmri)).1) excludes

theorem trimInstall_twin (hdel : Deletable ctx unparsed) {existingFreezes : List PkgFmri}
    {proposed : Proposed} (hproposed : ∀ entry ∈ proposed.entries, ∀ fmri ∈ entry.2,
      fmri ∉ unparsed)
    {incList : List (PkgFmri × List PkgFmri)}
    (hsame : SamePublishers ctx unparsed publisher (Looked ctx publisher proposed.entries
      (allHolds incList existingFreezes) excludes)) :
    TwinAgrees ctx unparsed publisher []
      (fun remaining ↦ ∀ entry ∈ remaining, ∀ fmri ∈ entry.2, fmri ∉ unparsed)
      (ctx.trimInstall existingFreezes proposed incList)
      ((ctx.without unparsed).trimInstall existingFreezes proposed incList) := by
  have hauto : ∀ fmri ∈ allHolds incList existingFreezes, TwinAgrees ctx unparsed publisher []
      (fun _ ↦ True) (ctx.trimAuto fmri) ((ctx.without unparsed).trimAuto fmri) :=
    fun fmri hfmri ↦ combTrim_twin hdel hsame (by simp)
      (Or.inl (List.mem_append_right _ (List.mem_map_of_mem hfmri))) .auto
  have hheld : ∀ inc ∈ incList, inc.1 :: inc.2 ⊆ allHolds incList existingFreezes :=
    fun inc hinc _ hfmri ↦ List.mem_append_left _ (List.mem_flatMap.mpr ⟨inc, hinc, hfmri⟩)
  refine Program.Agrees.bind (trimOlders_twin hdel hsame) fun _ _ ↦ ?_
  refine Program.Agrees.bind (Program.Agrees.forEach fun entry hentry ↦ trimExcluded_twin hsame
    (Or.inl (List.mem_append_left _ (List.mem_append_right _ (List.mem_map_of_mem hentry)))))
    fun _ _ ↦ ?_
  refine Program.Agrees.bind (Program.Agrees.forEach fun inc hinc ↦ Program.Agrees.bind
    (hauto inc.1 (hheld inc hinc List.mem_cons_self)) fun _ _ ↦ Program.Agrees.forEach
      fun fmri hfmri ↦ hauto fmri (hheld inc hinc (List.mem_cons_of_mem _ hfmri))) fun _ _ ↦ ?_
  refine Program.Agrees.bind (Program.Agrees.forEach fun fmri hfmri ↦
    hauto fmri (List.mem_append_right _ hfmri)) fun _ _ ↦ ?_
  refine Program.Agrees.bind (Program.Agrees.forEach fun entry hentry ↦
    Program.Agrees.forEach fun fmri hfmri ↦
      trimNonmatchingVariants_twin (hproposed entry hentry fmri hfmri)) fun _ _ ↦ ?_
  exact dotrimProposed_twin hproposed

/-- The possible packages of an installation get the same numbers. -/
theorem assignInstall_twin (hdel : Deletable ctx unparsed) {proposed : Proposed}
    (hsame : SamePublishers ctx unparsed publisher
      (Looked ctx publisher proposed.entries holds excludes))
    (hproposed : ∀ entry ∈ proposed.entries, ∀ fmri ∈ entry.2, fmri ∉ unparsed)
    (hnone : ∀ fmri ∈ unparsed,
      ¬ Collected ctx publisher (proposed.entries.map Prod.fst) holds fmri)
    {remaining remaining' : List (String × List PkgFmri)} :
    Program.Simulates (fun s t ↦ ((remaining = remaining' ∧
        ∀ entry ∈ remaining, ∀ fmri ∈ entry.2, fmri ∉ unparsed) ∧
        Twin ctx unparsed publisher [] s t) ∧
        TrimmedInstall ctx publisher proposed.entries holds remaining s)
      (ctx.assignInstall remaining excludes)
      ((ctx.without unparsed).assignInstall remaining' excludes)
      (fun a b s t ↦ a = b ∧ ∃ possible, (∀ fmri ∈ possible, fmri ∉ unparsed ∧
          Reached ctx publisher proposed.entries holds excludes fmri) ∧
        Twin ctx unparsed publisher possible s t) fun e d _ _ ↦ e = d := by
  refine Program.Simulates.of_start fun s t h ↦ ?_
  obtain ⟨⟨⟨rfl, hremaining⟩, htwin⟩, htrimmed⟩ := h
  have heligible : ∀ fmri, fmri ∈ ctx.candidates s fmri.pkgName →
      Eligible ctx publisher proposed.entries holds fmri := fun _ ↦ eligible_of_candidate
    htrimmed.reads htrimmed.olderGone htrimmed.excludedGone htrimmed.narrowed
  refine Program.Simulates.bind (Program.Simulates.weaken (newer_reached hdel hsame
    (fun fmri matching ↦ fmri :: matching)
    (fun fmri matching other hother ↦ List.mem_cons.mp hother) heligible) ?_
    (fun _ _ _ _ h ↦ h) fun _ _ _ _ h ↦ h) fun newer _ ↦ ?_
  · rintro _ _ ⟨rfl, rfl⟩
    refine ⟨⟨htwin, fun fmri hfmri other hother hmem ↦ ?_⟩, rfl⟩
    by_cases hname : other.pkgName ∈ proposed.entries.map Prod.fst
    · obtain ⟨entry, hentry, heq⟩ := List.mem_map.mp hname
      have hcandidate := List.mem_of_mem_filter hother
      rw [← (mem_fmrisByVersion.mp (mem_candidates.mp hcandidate).1).2, ← heq] at hcandidate
      exact hproposed entry hentry other (htrimmed.excludedGone entry hentry other hcandidate) hmem
    · exact hnone other hmem
        (collected_of_candidate htrimmed.reads htrimmed.narrowed hfmri hother hname)
  refine Program.Simulates.assume ?_
  rintro ⟨rfl, hnewer⟩
  have hset : ∀ fmri ∈ (newer ++ remaining.flatMap Prod.snd).dedup, fmri ∉ unparsed ∧
      Reached ctx publisher proposed.entries holds excludes fmri := by
    intro fmri hfmri
    rcases List.mem_append.mp (List.mem_dedup.mp hfmri) with hmem | hmem
    · exact hnewer fmri hmem
    · obtain ⟨entry, hentry, hfmri'⟩ := List.mem_flatMap.mp hmem
      obtain ⟨hname, hcandidate⟩ := htrimmed.remaining entry hentry fmri hfmri'
      refine ⟨hremaining entry hentry fmri hfmri', Reached.named (heligible fmri hcandidate) ?_⟩
      rw [hname, ← htrimmed.names_eq]
      exact List.mem_append_right _ (List.mem_map_of_mem hentry)
  refine Program.Simulates.bind (closure_twin hdel hsame
    (htrimmed.reads.flags (fresh_start ctx publisher).flags) heligible hset (List.nodup_dedup _))
    fun closure _ ↦ ?_
  refine Program.Simulates.assume ?_
  rintro ⟨rfl, hclosure⟩
  refine Program.Simulates.bind (dotrimProposed_twin hremaining).simulates fun left _ ↦ ?_
  refine Program.Simulates.assume ?_
  rintro ⟨rfl, -⟩
  exact fun s t h ↦ ⟨rfl, closure, hclosure, h.assignFmriIds closure⟩

theorem solveInstall_twin (hdel : Deletable ctx unparsed) {existingFreezes : List PkgFmri}
    {proposed : Proposed} (hproposed : ∀ entry ∈ proposed.entries, ∀ fmri ∈ entry.2,
      fmri ∉ unparsed)
    (hsame : SamePublishers ctx unparsed (proposedPublishers proposed.entries publisher)
      (Looked ctx (proposedPublishers proposed.entries publisher) proposed.entries
        ((Request.install existingFreezes proposed).holds ctx excludes) excludes))
    (hnone : ∀ fmri ∈ unparsed, ¬ Collected ctx (proposedPublishers proposed.entries publisher)
      (proposed.entries.map Prod.fst)
      ((Request.install existingFreezes proposed).holds ctx excludes) fmri) :
    Program.Simulates (fun s t ↦ s = State.start publisher ∧ t = State.start publisher)
      (ctx.solveInstall existingFreezes proposed excludes)
      ((ctx.without unparsed).solveInstall existingFreezes proposed excludes)
      (fun a b _ _ ↦ a = b) fun e d _ _ ↦ e = d := by
  refine Program.Simulates.bind (M := fun _ _ s t ↦
    s = State.start (proposedPublishers proposed.entries publisher) ∧
    t = State.start (proposedPublishers proposed.entries publisher))
    (Program.Simulates.weaken (Program.Simulates.same
      (choosePublishers_triple proposed.entries publisher)) ?_ ?_ fun _ _ _ _ h ↦ h.1) fun _ _ ↦ ?_
  · rintro s t ⟨rfl, rfl⟩
    exact ⟨rfl, rfl⟩
  · rintro _ _ s t ⟨-, rfl, hs⟩
    exact ⟨hs, hs⟩
  generalize proposedPublishers proposed.entries publisher = publisher at hsame hnone ⊢
  rw [getInstalledUnboundIncList_without hdel]
  cases hincList : ctx.getInstalledUnboundIncList (proposed.entries.map Prod.fst) excludes with
  | error error => exact Program.Simulates.throw fun _ _ _ ↦ rfl
  | ok incList =>
    simp only [Request.holds, hincList] at hsame hnone
    change Program.Simulates _ (ctx.trimInstall existingFreezes proposed incList >>= _)
      ((ctx.without unparsed).trimInstall existingFreezes proposed incList >>= _) _ _
    refine Program.Simulates.bind (Program.Simulates.weaken (Program.Simulates.and_left
      (trimInstall_twin hdel hproposed hsame)
      (trimInstall_triple publisher existingFreezes proposed incList)) ?_ (fun _ _ _ _ h ↦ h)
      fun _ _ _ _ h ↦ h.1) fun remaining _ ↦ ?_
    · rintro s t ⟨rfl, rfl⟩
      exact ⟨Twin.start, rfl⟩
    · refine Program.Simulates.bind (assignInstall_twin hdel hsame hproposed hnone)
        fun remaining' _ ↦ ?_
      refine Program.Simulates.of_start fun s t h ↦ ?_
      obtain ⟨rfl, possible, hkept, htwin⟩ := h
      refine Program.Simulates.weaken (searchInstall_twin hdel hsame hkept remaining').simulates ?_
        (fun _ _ _ _ h ↦ h.1.1) fun _ _ _ _ h ↦ h
      rintro _ _ ⟨rfl, rfl⟩
      exact htwin

/-- The names that a request looks up. -/
def Request.Looked (ctx : Context) (publisher : List (String × Option String)) (excludes : Excludes)
    (request : Request) : String → Prop :=
  Solver.Looked ctx (proposedPublishers request.entries publisher) request.entries
    (request.holds ctx excludes) excludes

/-- Without a collected package that cannot be parsed, the results on both catalogs are the same. -/
theorem run_agrees (hdel : Deletable ctx unparsed) {request : Request} {excludes : Excludes}
    (hproposed : ∀ entry ∈ request.entries, ∀ fmri ∈ entry.2, fmri ∉ unparsed)
    (hsame : SamePublishers ctx unparsed (proposedPublishers request.entries publisher)
      (request.Looked ctx publisher excludes))
    (hnone : ∀ fmri ∈ unparsed, ¬ Collected ctx (proposedPublishers request.entries publisher)
      (request.entries.map Prod.fst) (request.holds ctx excludes) fmri) :
    (Program.exec (ctx.run excludes request) (State.start publisher)).1 =
      (Program.exec ((ctx.without unparsed).run excludes request) (State.start publisher)).1 := by
  cases request with
  | update =>
    exact Program.Simulates.result_eq (solveUpdate_twin hdel hsame hnone) ⟨rfl, rfl⟩
  | install existingFreezes proposed =>
    exact Program.Simulates.result_eq (solveInstall_twin hdel hproposed hsame hnone) ⟨rfl, rfl⟩

/-! ### A collected package has to be readable -/

theorem subset_generateDependencyClosure (fmriSet : List PkgFmri) (excludes : Excludes) :
    Program.Triple (fun _ ↦ True) (ctx.generateDependencyClosure fmriSet excludes)
      (fun closure _ ↦ fmriSet ⊆ closure) fun _ _ ↦ True := by
  refine Program.Triple.bind (Program.Triple.weaken (drain_triple (E := fun _ _ ↦ True)
    (I := fun _ needed taken _ ↦ ∀ fmri ∈ fmriSet, fmri ∈ needed ∨ fmri ∈ taken) ?_ _ _ _ _)
    (fun _ _ fmri h ↦ Or.inl h) (fun _ _ h ↦ h) (fun _ _ h ↦ h)) ?_
  · intro acc fmri rest needed taken hperm
    refine Program.Triple.assume_only fun hinv ↦ ?_
    refine Program.Triple.bind (M := fun _ _ ↦ True) (Program.Triple.of_fact trivial) fun found ↦
      Program.Triple.pure fun _ _ other hother ↦ ?_
    rcases hinv other hother with hneeded | htaken
    · rcases List.mem_cons.mp (hperm.subset hneeded) with rfl | hrest
      · exact Or.inr List.mem_cons_self
      · exact Or.inl (mem_stillNeeded.mpr (Or.inr hrest))
    · exact Or.inr (List.mem_cons_of_mem _ htaken)
  · rintro (_ | ⟨acc, taken⟩)
    · exact Program.Triple.throw fun _ _ ↦ trivial
    · exact Program.Triple.pure fun state h fmri hfmri ↦
        (h acc taken rfl fmri hfmri).resolve_left List.not_mem_nil

/-- Clauses for the possible packages are only generated if all of them can be read. -/
theorem readable_of_addAllPossible {start : State} {closure : List PkgFmri} (excludes : Excludes)
    (hpure : FlagsPure ctx (assignFmriIds closure start)) :
    Program.Triple (fun state ↦ state = assignFmriIds closure start) (ctx.addAllPossible excludes)
      (fun _ _ ↦ ∀ fmri ∈ closure, Readable ctx fmri) fun _ _ ↦ True := by
  refine Program.Triple.weaken (addAllPossible_triple excludes _ hpure) (fun _ h ↦ h) ?_
    (fun _ _ h ↦ h)
  rintro _ state ⟨-, hforced⟩ fmri hfmri
  obtain ⟨entry, hentry, hname⟩ := exists_possibleDict start hfmri
  obtain ⟨das, hdas, -⟩ := (hforced entry hentry).2 fmri
    ((mem_possibleDict hentry fmri).mpr ⟨hfmri, hname.symm⟩)
  exact readable_of_getDependencyActions hdas

/-- A closure in which all packages are possible is computed in states that are pure. -/
theorem closure_pure {start : State} (hpure : FlagsPure ctx start) (fmriSet : List PkgFmri)
    (excludes : Excludes) :
    Program.Triple (fun state ↦ state = start) (ctx.generateDependencyClosure fmriSet excludes)
      (fun closure state ↦ fmriSet ⊆ closure ∧ FlagsPure ctx (assignFmriIds closure state))
      fun _ _ ↦ True :=
  Program.Triple.weaken (Program.Triple.and (subset_generateDependencyClosure fmriSet excludes)
    (generateDependencyClosure_triple hpure fmriSet)) (fun _ h ↦ ⟨trivial, h⟩)
    (fun _ _ h ↦ ⟨h.1, h.2.2.flags hpure⟩) (fun _ _ h ↦ h)

theorem readable_of_update (excludes : Excludes) :
    Program.Triple (fun state ↦ state = State.start publisher) (ctx.solveUpdate excludes)
      (fun _ _ ↦ ∀ fmri, Collected ctx publisher [] [] fmri → Readable ctx fmri)
      fun _ _ ↦ True := by
  have hfresh := fresh_start ctx publisher
  refine Program.Triple.bind (trimOlder_steps (R := TrimReason ctx [] []) (fun _ h ↦ Or.inl h)
    (State.start publisher) hfresh.flags) fun _ ↦ ?_
  refine Program.Triple.of_start fun trimmed htrimmed ↦ ?_
  refine Program.Triple.bind (newer_triple (R := Unreadable ctx)
    (fun fmri matching ↦ if matching = [] then [fmri] else matching) _) fun possibleSet ↦ ?_
  refine Program.Triple.of_start fun middle hmiddle ↦ ?_
  obtain ⟨⟨rfl, -⟩, hcollected⟩ := hmiddle
  refine Program.Triple.bind (closure_pure (hcollected.flags (htrimmed.1.flags hfresh.flags)) _
    excludes) fun closure ↦ ?_
  refine Program.Triple.of_start fun closed hclosed ↦ ?_
  refine Program.Triple.bind (M := fun _ state ↦ state = assignFmriIds closure closed)
    (Program.Triple.modify fun _ h ↦ h ▸ rfl) fun _ ↦ ?_
  refine Program.Triple.bind (readable_of_addAllPossible excludes hclosed.2) fun _ ↦ ?_
  refine Program.Triple.assume_only fun hreadable ↦ Program.Triple.of_fact fun fmri hfmri ↦ ?_
  obtain ⟨installed, hinstalled, hmem⟩ := hfmri.mem_newerCandidates htrimmed.1
  refine hreadable fmri (hclosed.1 (List.mem_dedup.mpr (List.mem_flatMap.mpr
    ⟨installed, hinstalled, ?_⟩)))
  rw [if_neg (List.ne_nil_of_mem hmem)]
  exact hmem

theorem readable_of_install (existingFreezes : List PkgFmri) (proposed : Proposed)
    (excludes : Excludes) :
    Program.Triple (fun state ↦ state = State.start publisher)
      (ctx.solveInstall existingFreezes proposed excludes)
      (fun _ _ ↦ ∀ fmri, Collected ctx (proposedPublishers proposed.entries publisher)
        (proposed.entries.map Prod.fst)
        ((Request.install existingFreezes proposed).holds ctx excludes) fmri → Readable ctx fmri)
      fun _ _ ↦ True := by
  refine Program.Triple.bind (choosePublishers_triple proposed.entries publisher) fun _ ↦ ?_
  generalize proposedPublishers proposed.entries publisher = publisher
  cases hincList : ctx.getInstalledUnboundIncList (proposed.entries.map Prod.fst) excludes with
  | error error => exact Program.Triple.throw fun _ _ ↦ trivial
  | ok incList =>
    simp only [Request.holds, hincList]
    have hfresh := fresh_start ctx publisher
    refine Program.Triple.bind (M := fun found state ↦ found = incList ∧
      state = State.start publisher) (Program.Triple.pure fun _ h ↦ ⟨rfl, h⟩) fun found ↦ ?_
    refine Program.Triple.assume ?_
    rintro rfl
    refine Program.Triple.bind (trimInstall_triple publisher existingFreezes proposed found)
      fun remaining ↦ ?_
    refine Program.Triple.of_start fun trimmed htrimmed ↦ ?_
    refine Program.Triple.bind (M := fun _ state ↦ ∃ closure closed,
      ctx.installed.fmris.flatMap (fun fmri ↦ fmri :: ctx.newerCandidates trimmed fmri) ⊆ closure ∧
      FlagsPure ctx (assignFmriIds closure closed) ∧ state = assignFmriIds closure closed)
      ?_ fun remaining' ↦ ?_
    · refine Program.Triple.bind (newer_triple (R := Unreadable ctx)
        (fun fmri matching ↦ fmri :: matching) _) fun newer ↦ ?_
      refine Program.Triple.of_start fun middle hmiddle ↦ ?_
      obtain ⟨⟨rfl, -⟩, hcollected⟩ := hmiddle
      refine Program.Triple.bind
        (closure_pure (hcollected.flags (htrimmed.reads.flags hfresh.flags))
        _ excludes) fun closure ↦ ?_
      refine Program.Triple.of_start fun closed hclosed ↦ ?_
      refine Program.Triple.bind (dotrimProposed_triple remaining) fun left ↦ ?_
      refine Program.Triple.bind (M := fun _ state ↦ state = assignFmriIds closure closed)
        (Program.Triple.modify fun _ h ↦ h.2 ▸ rfl) fun _ ↦ Program.Triple.pure fun _ h ↦ ?_
      exact ⟨closure, closed, fun fmri hfmri ↦ hclosed.1
        (List.mem_dedup.mpr (List.mem_append_left _ hfmri)), hclosed.2, h⟩
    · refine Program.Triple.of_start fun start hstart ↦ ?_
      obtain ⟨closure, closed, hsub, hpure, rfl⟩ := hstart
      refine Program.Triple.bind (readable_of_addAllPossible excludes hpure) fun _ ↦ ?_
      refine Program.Triple.assume_only fun hreadable ↦ Program.Triple.of_fact fun fmri hfmri ↦ ?_
      obtain ⟨installed, hinstalled, hmem⟩ := hfmri.mem_newerCandidates htrimmed.reads
      exact hreadable fmri (hsub (List.mem_flatMap.mpr
        ⟨installed, hinstalled, List.mem_cons_of_mem _ hmem⟩))

theorem readable_of_run {request : Request} {excludes : Excludes} {result : List PkgFmri}
    (hresult : (Program.exec (ctx.run excludes request) (State.start publisher)).1 = .ok result)
    {fmri : PkgFmri} (hfmri : Collected ctx (proposedPublishers request.entries publisher)
      (request.entries.map Prod.fst) (request.holds ctx excludes) fmri) : Readable ctx fmri := by
  cases request with
  | update =>
    exact Program.Triple.of_exec (readable_of_update excludes) rfl
      (Program.exec_eq_of_result hresult) fmri hfmri
  | install existingFreezes proposed =>
    exact Program.Triple.of_exec (readable_of_install existingFreezes proposed excludes) rfl
      (Program.exec_eq_of_result hresult) fmri hfmri

end Operations

/-- An image with `app` installed. A package `lib` of the best publisher cannot be parsed, so that
no other `lib` is acceptable. -/
def libImage : Context :=
  { updateImage with
    catalog := [(.plain "p" "app" 1, some []), (.plain "p" "app" 2, some []),
      (.plain "p" "lib" 1, some []), (.plain "q" "lib" 1, none)]
    pubRanks := [("p", ⟨1, true, true⟩), ("q", ⟨0, true, true⟩)] }

/-- The name `lib` is not looked up: no package has dependencies. -/
theorem not_looked_libImage : ¬ Request.update.Looked libImage [("app", some "p")] [] "lib" := by
  rintro (hname | ⟨fmri, -, das, hdas, da, hda, -⟩)
  · exact absurd hname (by decide)
  · have hnone : ∀ fmri ∈ libImage.catalog.map Prod.fst,
        (libImage.getDependencyActions fmri []).toOption.all (· = []) = true := by decide
    have hmem := hnone fmri (readable_of_getDependencyActions hdas).mem_catalog
    rw [hdas] at hmem
    obtain rfl : das = [] := of_decide_eq_true hmem
    exact absurd hda List.not_mem_nil

/-- An image where the newer version of the installed `app` cannot be parsed. -/
def unparsedImage : Context :=
  { updateImage with catalog := [(.plain "p" "app" 1, some []), (.plain "p" "app" 2, none)] }

end Userland.Pkg.Solver
