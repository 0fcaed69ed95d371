import Userland.Pkg.Solver.Outcome

/-!
# The image over many operations

Each installation and each update is planned by a new solver, and what it returns replaces the
installed packages. In every run from an image in which all dependencies are met, they are met in
each image, and no operation replaces a package by an older version (`run_healthy`). A result has
one package for a name, so that it is an image again (`exists_step`).

Scope: the catalog, the variants and the publishers stay as they are between the operations, and a
plan is executed as it was made. No package is removed.
-/

set_option autoImplicit false
set_option relaxedAutoImplicit false

namespace Userland.Pkg.Solver

open Library

/-- What an image is asked for. -/
inductive ImageOperation
  | update
  | install (existingFreezes : List PkgFmri) (proposed : Proposed)

namespace ImageOperation

variable (excludes : Excludes)

/-- What a new solver returns. -/
def solve (ctx : Context) : ImageOperation → Except SolverError (List PkgFmri)
  | .update => ctx.init.bind fun state ↦ (Program.exec (ctx.solveUpdate excludes) state).1
  | .install existingFreezes proposed =>
    ctx.init.bind fun state ↦
      (Program.exec (ctx.solveInstall existingFreezes proposed excludes) state).1

/-- No freeze and no incorporation that is held excludes an installed package whose name is not
proposed. -/
def Unfrozen (ctx : Context) : ImageOperation → Prop
  | .update => True
  | .install existingFreezes proposed => ∀ incList,
      ctx.getInstalledUnboundIncList (proposed.entries.map Prod.fst) excludes = .ok incList →
        ∀ fmri ∈ ctx.installed.fmris, fmri.pkgName ∉ proposed.entries.map Prod.fst →
          ¬ Withheld (allHolds incList existingFreezes) fmri

/-- An operation fails and leaves the image as it is, or it replaces the installed packages. -/
inductive Step (op : ImageOperation) (ctx : Context) : Context → Prop
  | fails (error : SolverError) (h : op.solve excludes ctx = .error error) : Step op ctx ctx
  | succeeds (installed : Installed) (h : op.solve excludes ctx = .ok installed.fmris) :
    Step op ctx { ctx with installed := installed }

/-- Operations one after the other. -/
inductive Run (ctx : Context) : List ImageOperation → Context → Prop
  | nil : Run ctx [] ctx
  | snoc {ops : List ImageOperation} {op : ImageOperation} {middle last : Context}
      (hrun : Run ctx ops middle)
      (hfree : op.Unfrozen excludes middle) (hstep : op.Step excludes middle last) :
        Run ctx (ops ++ [op]) last

end ImageOperation

/-- Every dependency of an installed package is met. -/
structure Healthy (excludes : Excludes) (ctx : Context) : Prop where
  requirements : RequirementsMet ctx excludes ctx.installed.fmris
  restrictions : RestrictionsMet ctx excludes ctx.installed.fmris

open ImageOperation

variable {excludes : Excludes} {ctx : Context}

/-- What is returned, if anything is, has one package for a name and none that is older than an
installed one. It meets all dependencies if the image does. -/
theorem solve_outcome (hdecides : Decides ctx.solver) {op : ImageOperation}
    (hfree : op.Unfrozen excludes ctx)
    {result : List PkgFmri} (hsolve : op.solve excludes ctx = .ok result) :
    (result.map PkgFmri.pkgName).Nodup ∧ NotDowngraded ctx result ∧
      (Healthy excludes ctx → RequirementsMet ctx excludes result ∧
        RestrictionsMet ctx excludes result) := by
  cases hinit : ctx.init with
  | error error => cases op <;> (rw [solve, hinit] at hsolve; cases hsolve)
  | ok state =>
    obtain ⟨publisher, rfl⟩ := init_eq_ok hinit
    cases op with
    | update =>
      rw [solve, hinit] at hsolve
      obtain ⟨hsound, hrestrictions⟩ :=
        Program.Triple.of_exec (solveUpdate_triple hdecides publisher) rfl
        (Program.exec_eq_of_result hsolve)
      exact ⟨hsound.nodup_pkgName, hsound.notDowngraded,
        fun _ ↦ ⟨hsound.requirementsMet, hrestrictions⟩⟩
    | install existingFreezes proposed =>
      rw [solve, hinit] at hsolve
      obtain ⟨incList, hincList, houtcome⟩ := Program.Triple.of_exec
        (solveInstall_triple hdecides publisher existingFreezes proposed) rfl
          (Program.exec_eq_of_result hsolve)
      refine ⟨houtcome.nodup_pkgName, houtcome.notDowngraded, fun h ↦ ?_⟩
      rcases houtcome.dependencies with rfl | ⟨hrequirements, hrestrictions⟩
      · exact ⟨h.requirements, h.restrictions⟩
      · exact ⟨hrequirements, hrestrictions (hfree incList hincList)⟩

/-- Every operation leads to an image. -/
theorem exists_step (hdecides : Decides ctx.solver) {op : ImageOperation}
    (hfree : op.Unfrozen excludes ctx) :
    ∃ next, op.Step excludes ctx next := by
  cases hsolve : op.solve excludes ctx with
  | error error => exact ⟨ctx, .fails error hsolve⟩
  | ok result => exact ⟨_, .succeeds ⟨result, (solve_outcome hdecides hfree hsolve).1⟩ hsolve⟩

theorem step_healthy (hdecides : Decides ctx.solver) (h : Healthy excludes ctx)
    {op : ImageOperation}
    (hfree : op.Unfrozen excludes ctx) {next : Context} (hstep : op.Step excludes ctx next) :
    next.solver = ctx.solver ∧ Healthy excludes next ∧ NotDowngraded ctx next.installed.fmris := by
  cases hstep with
  | fails error hsolve =>
    refine ⟨rfl, h, fun fmri hfmri installed hinstalled hname ↦ ?_⟩
    rw [List.inj_on_of_nodup_map ctx.installed.nodup_pkgName hfmri hinstalled hname]
    exact lt_irrefl _
  | succeeds installed hsolve =>
    obtain ⟨-, hnot, hmet⟩ := solve_outcome hdecides hfree hsolve
    exact ⟨rfl, ⟨(hmet h).1, (hmet h).2⟩, hnot⟩

/-- Assumes: a solver that decides satisfiability, and an image whose dependencies are met. In every
run of installations and updates they are met in each image, the next operation leads to an image,
and it replaces no package by an older version. -/
theorem run_healthy (hdecides : Decides ctx.solver) (h : Healthy excludes ctx)
    {ops : List ImageOperation} {last : Context} (hrun : Run excludes ctx ops last) :
    Healthy excludes last ∧ ∀ op : ImageOperation, op.Unfrozen excludes last →
      (∃ next, op.Step excludes last next) ∧
      ∀ next, op.Step excludes last next → NotDowngraded last next.installed.fmris := by
  have hlast : last.solver = ctx.solver ∧ Healthy excludes last := by
    induction hrun with
    | nil => exact ⟨rfl, h⟩
    | snoc _ hfree hstep ih =>
      obtain ⟨hsolver, hhealthy, -⟩ := step_healthy (ih.1 ▸ hdecides) ih.2 hfree hstep
      exact ⟨hsolver.trans ih.1, hhealthy⟩
  have hdecides' : Decides last.solver := hlast.1 ▸ hdecides
  exact ⟨hlast.2, fun op hfree ↦ ⟨exists_step hdecides' hfree, fun next hstep ↦
    (step_healthy hdecides' hlast.2 hfree hstep).2.2⟩⟩

theorem healthy_updateImage : Healthy [] updateImage := by
  have hnone : updateImage.getDependencyActions (.plain "p" "app" 1) [] = .ok [] := by decide
  constructor
  · intro fmri hfmri
    obtain rfl := List.mem_singleton.mp hfmri
    exact ⟨[], hnone, fun da hda ↦ absurd hda List.not_mem_nil⟩
  · intro fmri hfmri das hdas da hda
    obtain rfl := List.mem_singleton.mp hfmri
    rw [hnone, Except.ok.injEq] at hdas
    exact absurd (hdas ▸ hda) List.not_mem_nil

/-- `app` is updated, and needs `lib` then. -/
theorem run_healthy_updateImage : Healthy []
    { updateImage with installed := ⟨[.plain "p" "app" 2, .plain "p" "lib" 1], by decide⟩ } := by
  have hsolve : update.solve [] updateImage = .ok [.plain "p" "app" 2, .plain "p" "lib" 1] := by
    decide +kernel
  have hrun : Run [] updateImage ([] ++ [update]) _ :=
    .snoc .nil trivial (.succeeds ⟨_, by decide⟩ hsolve)
  exact (run_healthy decides_searchSolver healthy_updateImage hrun).1

end Userland.Pkg.Solver
