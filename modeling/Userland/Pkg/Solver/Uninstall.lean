import Userland.Pkg.Solver.Closure

/-!
# Uninstalling packages

`pkg/client/pkg_solver.py`, `solve_uninstall`. The packages to remove are the listed ones, the
renamed packages that nothing needs and, in recursive mode, everything that depends on these. The
removal is refused with `NonLeafPackageException` when a package that stays depends on one that
goes, and otherwise the renamed packages that have become unneeded are dropped from the rest.

On an installed set closed under its require dependencies whose actions can be read the outcome is
one of the two (`solveUninstall_outcome`): recursive mode never refuses, since what it removes is
closed under dependents (`mem_removals_of_requires`), and what stays is closed again.
-/

set_option autoImplicit false
set_option relaxedAutoImplicit false

namespace Userland.Pkg.Solver

open Userland.Library

/-! ### The operation -/

/-- The packages `solve_uninstall` proposes to remove: with their dependents in recursive mode. -/
def Context.proposedRemovals (ctx : Context) (uninstallList renamedSet : List PkgFmri)
    (recursive : Bool) (excludes : Excludes) : SolverM (List PkgFmri) := do
  if recursive then
    let result ← drain ctx.pick (fun () pfmri ↦ do
      let dependents ← Program.lift (ctx.getDependents pfmri excludes)
      return ((), dependents)) (uninstallList.length + ctx.installed.fmris.length) ()
      (uninstallList ∪ renamedSet) []
    match result with
    | some (_, proposedRemovals) => return proposedRemovals
    | none => throw .nontermination
  else return uninstallList ∪ renamedSet

/-- `solve_uninstall(existing_freezes, uninstall_list, recursive, excludes)`; the freezes are not
read. -/
def Context.solveUninstall (ctx : Context) (uninstallList : List PkgFmri) (recursive : Bool)
    (excludes : Excludes) : SolverM (List PkgFmri) := do
  let origInstalledSet := ctx.installed.fmris
  let elided ← ctx.elidePossibleRenames origInstalledSet excludes
  let renamedSet := origInstalledSet.filter (· ∉ elided)
  let proposedRemovals ← ctx.proposedRemovals uninstallList renamedSet recursive excludes
  Program.forEach (fun pfmri ↦ do
    let dependents ← Program.lift (ctx.getDependents pfmri excludes)
    let dependents := dependents.filter (· ∉ proposedRemovals)
    if dependents ≠ [] then throw (.nonLeafPackage pfmri dependents)) proposedRemovals
  ctx.elidePossibleRenames (origInstalledSet.filter (· ∉ proposedRemovals)) excludes

/-! ### Which packages are renamed -/

section Renamed

variable {ctx : Context} {excludes : Excludes}

/-- The state of every package among `fmris` can be computed from its actions. -/
def StatesReadable (ctx : Context) (excludes : Excludes) (fmris : List PkgFmri) : Prop :=
  ∀ fmri ∈ fmris, ∃ actions, ctx.getEntryActions fmri excludes = .ok actions ∧
    ∃ flags, stateFlags actions = .ok flags

/-- Whether the actions of a package say that it is renamed. -/
def Context.isRenamed (ctx : Context) (excludes : Excludes) (fmri : PkgFmri) : Bool :=
  match ctx.getEntryActions fmri excludes >>= stateFlags with
  | .ok flags => flags.2.truthy
  | .error _ => false

/-- The states stored for the installed packages are those their actions have. -/
def StatesLoaded (ctx : Context) (excludes : Excludes) (fmris : List PkgFmri) (state : State) :
    Prop :=
  ∀ fmri ∈ fmris, ∀ flags, state.fmriState.lookup fmri = some flags →
    (ctx.getEntryActions fmri excludes >>= stateFlags) = .ok flags

theorem fmriIsRenamed_triple {fmris : List PkgFmri} {E : SolverError → State → Prop}
    (hread : StatesReadable ctx excludes fmris) {fmri : PkgFmri} (hmem : fmri ∈ fmris) :
    Program.Triple (StatesLoaded ctx excludes fmris) (ctx.fmriIsRenamed fmri excludes)
      (fun result state ↦ result = ctx.isRenamed excludes fmri ∧
        StatesLoaded ctx excludes fmris state) E := by
  obtain ⟨actions, hactions, flags, hflags⟩ := hread fmri hmem
  have hload : (ctx.getEntryActions fmri excludes >>= stateFlags) = .ok flags := by
    rw [hactions]
    exact hflags
  have hrenamed : ctx.isRenamed excludes fmri = flags.2.truthy := by
    rw [Context.isRenamed, hload]
  refine Program.Triple.bind (M := fun found state ↦ found = flags ∧
    StatesLoaded ctx excludes fmris state) ?_ fun found ↦ ?_
  · refine Program.Triple.bind (M := fun found state ↦ found = state ∧
      StatesLoaded ctx excludes fmris state) (Program.Triple.get fun state hstate ↦ ⟨rfl, hstate⟩)
      fun found ↦ ?_
    cases hlookup : found.fmriState.lookup fmri with
    | some stored =>
      refine Program.Triple.pure ?_
      rintro state ⟨rfl, hstate⟩
      exact ⟨Except.ok.inj ((hstate fmri hmem stored hlookup).symm.trans hload), hstate⟩
    | none =>
      unfold Context.fmriLoadstate
      rw [hactions]
      rintro state ⟨-, hstate⟩
      simp only [hflags, Program.lift, pure_bind, Program.exec_bind, Program.exec_modify,
        Program.exec_pure, true_and]
      intro other hother stored hstored
      simp only [List.lookup_cons] at hstored
      split at hstored
      · rename_i heq
        rw [beq_iff_eq] at heq
        rw [heq, hload, Option.some_inj.mp hstored]
      · exact hstate other hother stored hstored
  · refine Program.Triple.pure ?_
    rintro state ⟨rfl, hstate⟩
    exact ⟨hrenamed.symm, hstate⟩

end Renamed

/-! ### Dependents -/

section Dependents

variable {ctx : Context} {excludes : Excludes}

/-- `second` depends on `first`, and both are installed. -/
def DependentOf (ctx : Context) (excludes : Excludes) (first second : PkgFmri) : Prop :=
  first ∈ ctx.installed.fmris ∧ second ∈ ctx.installed.fmris ∧ Requires ctx excludes second first

/-- On a closed installed set the dependents of a package can be computed. -/
theorem getDependents_eq_ok (hclosed : RequireClosed ctx excludes ctx.installed.fmris)
    (pfmri : PkgFmri) :
    ∃ dependents, ctx.getDependents pfmri excludes = .ok dependents ∧
      ∀ other, other ∈ dependents ↔ DependentOf ctx excludes pfmri other := by
  obtain ⟨edges, hedges, hmem⟩ := Program.exists_mapM_ok
    (f := fun fmri ↦ ctx.requiredFmris ctx.installed.fmris excludes fmri >>=
      fun required ↦ (.ok (fmri, required) : Except SolverError _))
    (l := ctx.installed.fmris) fun fmri hfmri ↦ by
      obtain ⟨required, hrequired, -⟩ := requiredFmris_eq_ok hclosed hfmri
      exact ⟨(fmri, required), by rw [hrequired]; rfl⟩
  refine ⟨(edges.filter fun edge ↦ pfmri ∈ edge.2).map Prod.fst, ?_, fun other ↦ ?_⟩
  · unfold Context.getDependents
    erw [hedges]
    rfl
  · simp only [List.mem_map, List.mem_filter, decide_eq_true_eq, hmem]
    constructor
    · rintro ⟨⟨_, required⟩, ⟨⟨fmri, hfmri, hedge⟩, hpfmri⟩, rfl⟩
      obtain ⟨required', hrequired, hrequires⟩ := requiredFmris_eq_ok hclosed hfmri
      rw [hrequired] at hedge
      cases hedge
      exact ⟨((hrequires pfmri).mp hpfmri).1, hfmri, ((hrequires pfmri).mp hpfmri).2⟩
    · rintro ⟨hpfmri, hother, hrequires⟩
      obtain ⟨required, hrequired, hmem'⟩ := requiredFmris_eq_ok hclosed hother
      exact ⟨(other, required), ⟨⟨other, hother, by rw [hrequired]; rfl⟩,
        (hmem' pfmri).mpr ⟨hpfmri, hrequires⟩⟩, rfl⟩

/-- A package that is installed and not needed is renamed, and no package that is not renamed
depends on it. -/
theorem renamed_of_not_needed {renamed : PkgFmri → Bool} {fmri : PkgFmri}
    (hmem : fmri ∈ ctx.installed.fmris)
    (hnot : ¬ Needed ctx excludes renamed ctx.installed.fmris fmri) :
    renamed fmri = true ∧ ∀ other, renamed other = false →
      ¬ Relation.TransGen (DependentOf ctx excludes) fmri other := by
  constructor
  · by_contra hrenamed
    exact hnot (needed_of_not_renamed hmem (by simpa using hrenamed))
  · intro other hother hpath
    refine hnot ⟨other, ?_, hother, ?_⟩
    · obtain ⟨_, -, hlast⟩ := Relation.TransGen.tail'_iff.mp hpath
      exact hlast.2.1
    · refine Relation.ReflTransGen.mono (fun first second hstep ↦ ?_) _ _
        (Relation.reflTransGen_swap.mpr hpath.to_reflTransGen)
      exact ⟨hstep.1, hstep.2.2⟩

/-- What a needed package requires is needed. -/
theorem needed_of_dependent {renamed : PkgFmri → Bool} {first last : PkgFmri}
    (hpath : Relation.ReflTransGen (DependentOf ctx excludes) first last)
    (hneeded : Needed ctx excludes renamed ctx.installed.fmris last) :
    Needed ctx excludes renamed ctx.installed.fmris first := by
  induction hpath with
  | refl => exact hneeded
  | tail _ hstep ih => exact ih (hneeded.step hstep.1 hstep.2.2)

/-- A removal takes all dependents with it. -/
def ClosedUnderDependents (ctx : Context) (excludes : Excludes) (removals : List PkgFmri) : Prop :=
  ∀ pfmri ∈ removals, ∀ other, DependentOf ctx excludes pfmri other → other ∈ removals

/-- What stays after a removal that takes all dependents with it is closed. -/
theorem requireClosed_remaining (hclosed : RequireClosed ctx excludes ctx.installed.fmris)
    {removals : List PkgFmri} (hremovals : ClosedUnderDependents ctx excludes removals) :
    RequireClosed ctx excludes (ctx.installed.fmris.filter (· ∉ removals)) := by
  refine ⟨hclosed.nodup_pkgName.sublist (List.filter_sublist.map _), fun fmri hfmri ↦ ?_⟩
  rw [List.mem_filter, decide_eq_true_eq] at hfmri
  obtain ⟨das, hdas, hnames⟩ := hclosed.closed fmri hfmri.1
  refine ⟨das, hdas, fun da hda htype ↦ ?_⟩
  obtain ⟨required, hrequired, other, hother, hname⟩ := hnames da hda htype
  refine ⟨required, hrequired, other, ?_, hname⟩
  rw [List.mem_filter, decide_eq_true_eq]
  refine ⟨hother, fun hremoved ↦ hfmri.2 (hremovals other hremoved fmri ?_)⟩
  exact ⟨hother, hfmri.1, das, hdas, da, hda, htype, required, hrequired, hname⟩

/-- A path of require dependencies from a package that stays runs over packages that stay. -/
theorem path_remaining {removals : List PkgFmri}
    (hremovals : ClosedUnderDependents ctx excludes removals) {first last : PkgFmri}
    (hfirst : first ∈ ctx.installed.fmris.filter (· ∉ removals))
    (hpath : Relation.ReflTransGen (DependentOf ctx excludes) last first) :
    Relation.ReflTransGen (fun first second ↦
      second ∈ ctx.installed.fmris.filter (· ∉ removals) ∧ Requires ctx excludes first second)
      first last := by
  have hswap := Relation.reflTransGen_swap.mpr hpath
  suffices hboth : last ∈ ctx.installed.fmris.filter (· ∉ removals) ∧
      Relation.ReflTransGen (fun first second ↦
        second ∈ ctx.installed.fmris.filter (· ∉ removals) ∧ Requires ctx excludes first second)
        first last from hboth.2
  induction hswap with
  | refl => exact ⟨hfirst, .refl⟩
  | @tail middle second hsofar hstep ih =>
    obtain ⟨hmiddle, hpath'⟩ := ih (Relation.reflTransGen_swap.mp hsofar)
    obtain ⟨hsecond, -, hrequires⟩ := hstep
    rw [List.mem_filter, decide_eq_true_eq] at hmiddle
    have hstays : second ∈ ctx.installed.fmris.filter (· ∉ removals) := by
      rw [List.mem_filter, decide_eq_true_eq]
      exact ⟨hsecond, fun hremoved ↦
        hmiddle.2 (hremovals second hremoved middle ⟨hsecond, hmiddle.1, hrequires⟩)⟩
    exact ⟨hstays, hpath'.tail ⟨hstays, hrequires⟩⟩

end Dependents

/-! ### The outcome -/

section Outcome

variable {ctx : Context} {excludes : Excludes}

/-- What a removal returns: installed packages without the listed ones, closed under their require
dependencies. In recursive mode a package that has gone was listed, or depends transitively on a
listed one, or is renamed and no remaining package that is not renamed depends on it. -/
structure UninstallOutcome (ctx : Context) (excludes : Excludes) (uninstallList : List PkgFmri)
    (recursive : Bool) (result : List PkgFmri) : Prop where
  subset : result ⊆ ctx.installed.fmris
  listed : ∀ fmri ∈ uninstallList, fmri ∉ result
  closed : RequireClosed ctx excludes result
  reason : recursive = true → ∀ fmri ∈ ctx.installed.fmris, fmri ∉ result →
    fmri ∈ uninstallList ∨
    (∃ first ∈ uninstallList, Relation.TransGen (DependentOf ctx excludes) first fmri) ∨
    (ctx.isRenamed excludes fmri = true ∧ ∀ other ∈ result, ctx.isRenamed excludes other = false →
      ¬ Relation.TransGen (DependentOf ctx excludes) fmri other)

/-- The proposed removals contain the listed packages and the renamed ones; in recursive mode they
are what is reachable from these over dependents. -/
theorem proposedRemovals_triple {P : State → Prop} {E : SolverError → State → Prop}
    (hclosed : RequireClosed ctx excludes ctx.installed.fmris)
    (uninstallList renamedSet : List PkgFmri) (recursive : Bool)
    (hrenamed : renamedSet ⊆ ctx.installed.fmris) (hnodup : renamedSet.Nodup) :
    Program.Triple P (ctx.proposedRemovals uninstallList renamedSet recursive excludes)
      (fun removals state ↦ (∀ fmri, fmri ∈ removals ↔
        if recursive then ∃ first ∈ uninstallList ∪ renamedSet,
          Relation.ReflTransGen (DependentOf ctx excludes) first fmri
        else fmri ∈ uninstallList ∪ renamedSet) ∧ P state) E := by
  unfold Context.proposedRemovals
  cases recursive with
  | false => exact Program.Triple.pure fun state hstate ↦ ⟨fun fmri ↦ Iff.rfl, hstate⟩
  | true =>
    simp only [if_true]
    refine Program.Triple.bind (drain_reachable (U := uninstallList ++ ctx.installed.fmris)
      (N := DependentOf ctx excludes) (P := P) ?_ ?_ _ _ _ ?_ (List.Nodup.union _ hnodup)
      (by simp)) ?_
    · intro _ pfmri _
      obtain ⟨dependents, hdependents, hmem⟩ := getDependents_eq_ok hclosed pfmri
      rw [hdependents]
      exact Program.Triple.pure fun state hstate ↦ ⟨hmem, hstate⟩
    · exact fun _ _ other hnext ↦ List.mem_append_right _ hnext.2.1
    · intro fmri hfmri
      rcases List.mem_union_iff.mp hfmri with hlisted | hmem
      · exact List.mem_append_left _ hlisted
      · exact List.mem_append_right _ (hrenamed hmem)
    · intro result
      cases result with
      | none => exact fun state hstate ↦ by obtain ⟨⟨_, _, hsome, -⟩, -⟩ := hstate; cases hsome
      | some result =>
        refine Program.Triple.pure ?_
        rintro state ⟨⟨acc, taken, hresult, hmem⟩, hstate⟩
        cases hresult
        exact ⟨hmem, hstate⟩

/-- In recursive mode the removals are closed under dependents. -/
theorem mem_removals_of_requires (start : List PkgFmri) {removals : List PkgFmri}
    (hmem : ∀ fmri, fmri ∈ removals ↔ ∃ first ∈ start,
      Relation.ReflTransGen (DependentOf ctx excludes) first fmri) :
    ClosedUnderDependents ctx excludes removals := by
  intro pfmri hpfmri other hdepends
  obtain ⟨first, hfirst, hpath⟩ := (hmem pfmri).mp hpfmri
  exact (hmem other).mpr ⟨first, hfirst, hpath.tail hdepends⟩

/-- The check for dependents passes only removals that are closed under dependents, and refuses with
`nonLeafPackage` only removals that are not. -/
theorem checkDependents_triple {P : State → Prop}
    (hclosed : RequireClosed ctx excludes ctx.installed.fmris) (removals : List PkgFmri) :
    Program.Triple P
      (Program.forEach (fun pfmri ↦ do
        let dependents ← Program.lift (ctx.getDependents pfmri excludes)
        let dependents := dependents.filter (· ∉ removals)
        if dependents ≠ [] then throw (.nonLeafPackage pfmri dependents)) removals)
      (fun _ state ↦ ClosedUnderDependents ctx excludes removals ∧ P state)
      (fun error _ ↦ (∃ pfmri dependents, error = .nonLeafPackage pfmri dependents) ∧
        ¬ ClosedUnderDependents ctx excludes removals) := by
  refine Program.Triple.weaken (Program.Triple.forEach (I := fun before state ↦
    (∀ pfmri ∈ before, ∀ other, DependentOf ctx excludes pfmri other → other ∈ removals) ∧
      P state) ?_) (fun state hstate ↦ ⟨by simp, hstate⟩) (fun _ _ hpost ↦ hpost)
    (fun _ _ herr ↦ herr)
  intro before pfmri after hlist
  obtain ⟨dependents, hdependents, hmem⟩ := getDependents_eq_ok hclosed pfmri
  rw [hdependents]
  simp only [Program.lift, pure_bind]
  have hpfmri : pfmri ∈ removals := by
    rw [hlist]
    exact List.mem_append_right _ List.mem_cons_self
  split_ifs with hnone
  · refine Program.Triple.throw fun state _ ↦ ⟨⟨_, _, rfl⟩, fun hremovals ↦ hnone ?_⟩
    rw [List.filter_eq_nil_iff]
    intro other hother
    simpa using hremovals pfmri hpfmri other ((hmem other).mp hother)
  · refine Program.Triple.pure ?_
    rintro state ⟨hbefore, hstate⟩
    refine ⟨fun first hfirst other hdepends ↦ ?_, hstate⟩
    rcases List.mem_append.mp hfirst with hfirst | hfirst
    · exact hbefore first hfirst other hdepends
    · rw [List.mem_singleton] at hfirst
      subst hfirst
      rw [ne_eq, not_not, List.filter_eq_nil_iff] at hnone
      simpa using hnone other ((hmem other).mpr hdepends)

/-- The removals and the packages kept make an outcome. -/
theorem uninstallOutcome_of_removals (hclosed : RequireClosed ctx excludes ctx.installed.fmris)
    {uninstallList removals result : List PkgFmri} {recursive : Bool}
    (hmem : ∀ fmri, fmri ∈ removals ↔
      if recursive then ∃ first, (first ∈ uninstallList ∨ first ∈ ctx.installed.fmris ∧
          ¬ Needed ctx excludes (ctx.isRenamed excludes) ctx.installed.fmris first) ∧
        Relation.ReflTransGen (DependentOf ctx excludes) first fmri
      else fmri ∈ uninstallList ∨ fmri ∈ ctx.installed.fmris ∧
        ¬ Needed ctx excludes (ctx.isRenamed excludes) ctx.installed.fmris fmri)
    (hremovals : ClosedUnderDependents ctx excludes removals)
    (hresult : ∀ fmri, fmri ∈ result ↔ Needed ctx excludes (ctx.isRenamed excludes)
      (ctx.installed.fmris.filter (· ∉ removals)) fmri)
    (hnodup : (result.map PkgFmri.pkgName).Nodup) :
    UninstallOutcome ctx excludes uninstallList recursive result := by
  have hstays : ∀ fmri ∈ result, fmri ∈ ctx.installed.fmris ∧ fmri ∉ removals := by
    intro fmri hfmri
    have := ((hresult fmri).mp hfmri).mem
    rwa [List.mem_filter, decide_eq_true_eq] at this
  have hremaining := requireClosed_remaining hclosed hremovals
  refine ⟨fun fmri hfmri ↦ (hstays fmri hfmri).1, fun fmri hlisted hfmri ↦ ?_, ⟨hnodup, ?_⟩, ?_⟩
  · refine (hstays fmri hfmri).2 ((hmem fmri).mpr ?_)
    cases recursive with
    | false => exact Or.inl hlisted
    | true => exact ⟨fmri, Or.inl hlisted, .refl⟩
  · intro fmri hfmri
    have hneeded := (hresult fmri).mp hfmri
    obtain ⟨das, hdas, hnames⟩ := hremaining.closed fmri hneeded.mem
    refine ⟨das, hdas, fun da hda htype ↦ ?_⟩
    obtain ⟨required, hrequired, other, hother, hname⟩ := hnames da hda htype
    exact ⟨required, hrequired, other, (hresult other).mpr (hneeded.step hother
      ⟨das, hdas, da, hda, htype, required, hrequired, hname⟩), hname⟩
  · rintro rfl fmri hfmri hgone
    by_cases hremoved : fmri ∈ removals
    · obtain ⟨first, hfirst, hpath⟩ := (hmem fmri).mp hremoved
      rcases hfirst with hlisted | ⟨hinstalled, hnot⟩
      · rcases Relation.reflTransGen_iff_eq_or_transGen.mp hpath with heq | hpath
        · exact Or.inl (heq ▸ hlisted)
        · exact Or.inr (Or.inl ⟨first, hlisted, hpath⟩)
      · have hboth := renamed_of_not_needed hfmri fun hneeded ↦
          hnot (needed_of_dependent hpath hneeded)
        exact Or.inr (Or.inr ⟨hboth.1, fun other _ hother ↦ hboth.2 other hother⟩)
    · have hmem' : fmri ∈ ctx.installed.fmris.filter (· ∉ removals) := by
        rw [List.mem_filter, decide_eq_true_eq]
        exact ⟨hfmri, hremoved⟩
      have hnot := fun hneeded ↦ hgone ((hresult fmri).mpr hneeded)
      refine Or.inr (Or.inr ⟨?_, fun other hother hrenamed hpath ↦ hnot ?_⟩)
      · by_contra hrenamed
        exact hnot (needed_of_not_renamed hmem' (by simpa using hrenamed))
      · have hremains := ((hresult other).mp hother).mem
        exact ⟨other, hremains, hrenamed, path_remaining hremovals hremains hpath.to_reflTransGen⟩

/-- What `solve_uninstall` may return or raise. -/
def UninstallResult (ctx : Context) (excludes : Excludes) (uninstallList : List PkgFmri)
    (recursive : Bool) : Except SolverError (List PkgFmri) → Prop
  | .ok result => UninstallOutcome ctx excludes uninstallList recursive result
  | .error (.nonLeafPackage _ _) => recursive = false
  | .error _ => False

/-- Assumes: an installed set closed under its require dependencies, whose states can be read.
`solve_uninstall` ends, and returns an outcome or, outside recursive mode, refuses. -/
theorem solveUninstall_outcome (hclosed : RequireClosed ctx excludes ctx.installed.fmris)
    (hread : StatesReadable ctx excludes ctx.installed.fmris) {state : State}
    (hinit : ctx.init = .ok state) (uninstallList : List PkgFmri) (recursive : Bool) :
    UninstallResult ctx excludes uninstallList recursive
      (Program.exec (ctx.solveUninstall uninstallList recursive excludes) state).1 := by
  have hloaded : StatesLoaded ctx excludes ctx.installed.fmris state := by
    obtain ⟨publisher, rfl⟩ := init_eq_ok hinit
    intro fmri _ flags hlookup
    cases hlookup
  suffices htriple : Program.Triple (StatesLoaded ctx excludes ctx.installed.fmris)
      (ctx.solveUninstall uninstallList recursive excludes)
      (fun result _ ↦ UninstallOutcome ctx excludes uninstallList recursive result)
      (fun error _ ↦ (∃ pfmri dependents, error = .nonLeafPackage pfmri dependents) ∧
        recursive = false) by
    have hrun := htriple state hloaded
    rcases hexec : Program.exec (ctx.solveUninstall uninstallList recursive excludes) state with
      ⟨error | result, next⟩ <;> rw [hexec] at hrun
    · obtain ⟨⟨pfmri, dependents, rfl⟩, hrecursive⟩ := hrun
      exact hrecursive
    · exact hrun
  have helide := fun (fmris : List PkgFmri) (hsub : fmris ⊆ ctx.installed.fmris)
      (hclosed : RequireClosed ctx excludes fmris) ↦
    elidePossibleRenames_triple (E := fun error _ ↦
      (∃ pfmri dependents, error = SolverError.nonLeafPackage pfmri dependents) ∧ recursive = false)
      hclosed fun fmri hfmri ↦ fmriIsRenamed_triple hread (hsub hfmri)
  refine Program.Triple.bind (helide _ (List.Subset.refl _) hclosed) fun elided ↦ ?_
  refine Program.Triple.assume fun helided ↦ ?_
  refine Program.Triple.bind (proposedRemovals_triple hclosed _ _ recursive
    (List.filter_subset_self _) ((List.Nodup.of_map _ hclosed.nodup_pkgName).filter _))
    fun removals ↦ ?_
  refine Program.Triple.assume fun hremovals ↦ ?_
  have hmem : ∀ fmri, fmri ∈ removals ↔
      if recursive then ∃ first, (first ∈ uninstallList ∨ first ∈ ctx.installed.fmris ∧
          ¬ Needed ctx excludes (ctx.isRenamed excludes) ctx.installed.fmris first) ∧
        Relation.ReflTransGen (DependentOf ctx excludes) first fmri
      else fmri ∈ uninstallList ∨ fmri ∈ ctx.installed.fmris ∧
        ¬ Needed ctx excludes (ctx.isRenamed excludes) ctx.installed.fmris fmri := by
    intro fmri
    simp only [hremovals, List.mem_union_iff, List.mem_filter, decide_eq_true_eq, helided.2]
  refine Program.Triple.bind (M := fun _ state ↦ ClosedUnderDependents ctx excludes removals ∧
      StatesLoaded ctx excludes ctx.installed.fmris state)
    (Program.Triple.weaken (checkDependents_triple hclosed removals) (fun _ h ↦
      h) (fun _ _ h ↦ h) ?_)
    fun _ ↦ ?_
  · rintro error state ⟨herror, hopen⟩
    refine ⟨herror, ?_⟩
    by_contra hrecursive
    refine hopen (mem_removals_of_requires (uninstallList ∪
      ctx.installed.fmris.filter (· ∉ elided)) fun fmri ↦ ?_)
    simpa [show recursive = true by simpa using hrecursive] using hremovals fmri
  · refine Program.Triple.assume fun hclosedRemovals ↦ ?_
    have hremaining := requireClosed_remaining hclosed hclosedRemovals
    refine Program.Triple.weaken (helide _ (List.filter_subset_self _) hremaining) (fun _ h ↦ h) ?_
      (fun _ _ h ↦ h)
    rintro result state ⟨⟨hsub, hresult⟩, -⟩
    exact uninstallOutcome_of_removals hclosed hmem hclosedRemovals hresult
      (hremaining.nodup_pkgName.sublist (hsub.map _))

end Outcome

/-! ### Two installed images -/

/-- An image with the packages `app` and `lib`, of which `app` requires `lib`. -/
def appImage : Context where
  catalog := [(.plain "p" "app" 1, some [⟨.depend .require "lib@1", []⟩]),
    (.plain "p" "lib" 1, some [])]
  installed := ⟨[.plain "p" "app" 1, .plain "p" "lib" 1], by decide⟩
  pubRanks := [("p", ⟨1, true, true⟩)]
  variants := []
  solver := ⟨fun _ _ ↦ true, fun _ _ ↦ false, fun _ ↦ 0, fun _ _ _ ↦ false⟩
  pick := fun _ ↦ 0

theorem requireClosed_appImage : RequireClosed appImage [] appImage.installed.fmris := by
  refine ⟨by decide, fun fmri hfmri ↦ ?_⟩
  rcases List.mem_cons.mp hfmri with rfl | hfmri
  · refine ⟨[⟨.require, "lib@1"⟩], by decide, fun da hda _ ↦ ?_⟩
    rw [List.mem_singleton] at hda
    subst hda
    exact ⟨⟨none, "lib", (PkgFmri.plain "p" "lib" 1).version⟩, by decide, .plain "p" "lib" 1,
      by decide, rfl⟩
  · rw [List.mem_singleton] at hfmri
    subst hfmri
    exact ⟨[], by decide, by simp⟩

theorem statesReadable_appImage : StatesReadable appImage [] appImage.installed.fmris := by
  intro fmri hfmri
  rcases List.mem_cons.mp hfmri with rfl | hfmri
  · exact ⟨_, rfl, _, rfl⟩
  · rw [List.mem_singleton] at hfmri
    subst hfmri
    exact ⟨_, rfl, _, rfl⟩

/-- Removing `lib` together with its dependents is an outcome of the image. -/
theorem solveUninstall_outcome_appImage :
    RequireClosed appImage [] appImage.installed.fmris ∧
    StatesReadable appImage [] appImage.installed.fmris ∧
    appImage.init = .ok (State.start [("app", some "p"), ("lib", some "p")]) ∧
    UninstallResult appImage [] [.plain "p" "lib" 1] true
      (Program.exec (appImage.solveUninstall [.plain "p" "lib" 1] true [])
        (State.start [("app", some "p"), ("lib", some "p")])).1 :=
  ⟨requireClosed_appImage, statesReadable_appImage, by decide,
    solveUninstall_outcome requireClosed_appImage statesReadable_appImage (by decide) _ _⟩

/-- The same image, where the actions of `app` cannot be read. -/
def unreadableImage : Context :=
  { appImage with catalog := [(.plain "p" "app" 1, none), (.plain "p" "lib" 1, some [])] }

/-- An installed package with unreadable actions makes `solve_uninstall` raise
`InvalidPackageErrors`, also when no readable package misses a dependency. -/
theorem solveUninstall_unreadable :
    (∀ fmri ∈ unreadableImage.installed.fmris, ∀ das,
      unreadableImage.getDependencyActions fmri [] = .ok das → das = []) ∧
    unreadableImage.init = .ok (State.start [("app", some "p"), ("lib", some "p")]) ∧
    ¬ UninstallResult unreadableImage [] [.plain "p" "lib" 1] true
      (Program.exec (unreadableImage.solveUninstall [.plain "p" "lib" 1] true [])
        (State.start [("app", some "p"), ("lib", some "p")])).1 := by
  refine ⟨?_, by decide, ?_⟩
  · intro fmri hfmri das hdas
    rcases List.mem_cons.mp hfmri with rfl | hfmri
    · rw [show unreadableImage.getDependencyActions (.plain "p" "app" 1) [] =
        .error (.invalidPackageErrors (.plain "p" "app" 1)) by rfl] at hdas
      cases hdas
    · rw [List.mem_singleton] at hfmri
      subst hfmri
      rw [show unreadableImage.getDependencyActions (.plain "p" "lib" 1) [] = .ok [] by rfl] at hdas
      exact (Except.ok.inj hdas).symm
  · rw [show (Program.exec (unreadableImage.solveUninstall [.plain "p" "lib" 1] true [])
        (State.start [("app", some "p"), ("lib", some "p")])).1 =
      .error (.invalidPackageErrors (.plain "p" "app" 1)) by rfl]
    exact id

end Userland.Pkg.Solver
