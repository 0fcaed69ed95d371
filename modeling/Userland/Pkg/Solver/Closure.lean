import Mathlib.Logic.Relation
import Userland.Library.Worklist
import Userland.Pkg.Solver.Catalog

/-!
# The worklists of the solver

`pkg/client/pkg_solver.py`. Two worklists run over the dependency graph.
`generateDependencyClosure` collects the packages that a set of packages could depend on, and trims
those whose dependencies cannot be met. `elidePossibleRenames` drops from a complete set of packages
the renamed ones that no other package needs.

The main result about the second is `elidePossibleRenames_triple`: on a set of packages that is
closed under its require dependencies (`RequireClosed`), the worklist terminates and keeps exactly
the packages that a package which is not renamed requires, transitively and by name (`Needed`).
-/

set_option autoImplicit false
set_option relaxedAutoImplicit false

namespace Userland.Pkg.Solver

open Userland.Library

/-! ### Dependencies of a package -/

/-- `__generate_dependencies(fmri, excludes)`: the packages that meet the require dependencies. A
package with unreadable actions, or with a require dependency that nothing meets, is trimmed. -/
def Context.generateDependencies (ctx : Context) (fmri : PkgFmri) (excludes : Excludes) :
    SolverM (List PkgFmri) :=
  tryCatch
    (do
      let das ← Program.lift (ctx.getDependencyActions fmri excludes)
      Program.flatMapEach (fun da ↦ do
        let (_, matching) ← ctx.parseDependency da true
        return if da.type = .require then matching else []) das)
    fun
      | .invalidPackageErrors _ => do
        modify (State.trim [fmri])
        return []
      | .requiredDependency _ _ => do
        modify (State.trim [fmri])
        return []
      | error => throw error

/-- `__generate_dependency_closure(fmri_set, excludes)`. A package is processed once and lies in the
given set or in the catalog, so the bound on the number of packages processed is never met. -/
def Context.generateDependencyClosure (ctx : Context) (fmriSet : List PkgFmri)
    (excludes : Excludes) : SolverM (List PkgFmri) := do
  let result ← drain ctx.pick (fun () fmri ↦ do
    let found ← ctx.generateDependencies fmri excludes
    return ((), found)) (fmriSet.length + ctx.catalog.length) () fmriSet []
  match result with
  | some (_, alreadyProcessed) => return alreadyProcessed
  | none => throw .nontermination

section Pool

variable (ctx : Context) (excludes : Excludes)

/-- Reading the catalog finds packages of the catalog. -/
theorem combCommon_subset (fmri : PkgFmri) (constraint : Version.Constraint) (obsoleteOk : Bool) :
    Program.Triple (fun _ ↦ True) (ctx.combCommon fmri constraint obsoleteOk)
      (fun result _ ↦ result.1 ⊆ ctx.catalog.map Prod.fst ∧ result.2 ⊆ ctx.catalog.map Prod.fst)
      fun _ _ ↦ True := by
  refine Program.Triple.bind (M := fun all _ ↦ all ⊆ ctx.catalog.map Prod.fst)
    (Program.Triple.of_exec_eq (exec_getCatalogFmris ctx fmri.pkgName) fun state _ other hother ↦
      (mem_fmrisByVersion.mp (mem_candidates.mp hother).1).1) fun all ↦ ?_
  refine Program.Triple.assume_only fun hall ↦ ?_
  refine Program.Triple.bind (Program.Triple.filterEach_sublist _ all) fun matching ↦
    Program.Triple.pure fun _ hsub ↦ ⟨fun _ h ↦ hall (hsub.subset h), fun _ h ↦ ?_⟩
  exact hall (List.mem_of_mem_filter h)

theorem parseDependency_subset (da : Dependency) (checkReq : Bool) :
    Program.Triple (fun _ ↦ True) (ctx.parseDependency da checkReq)
      (fun result _ ↦ result.2 ⊆ ctx.catalog.map Prod.fst) fun _ _ ↦ True := by
  refine Program.Triple.bind (M := fun _ _ ↦ True) (Program.Triple.lift (fun _ _ _ h ↦ h)
    fun _ _ _ h ↦ h) fun fmri ↦ ?_
  refine Program.Triple.bind (M := fun result _ ↦ result.1 ⊆ ctx.catalog.map Prod.fst) ?_ ?_
  · have hfst : ∀ constraint obsoleteOk, Program.Triple (fun _ ↦ True)
        (ctx.combCommon fmri constraint obsoleteOk)
        (fun result _ ↦ result.1 ⊆ ctx.catalog.map Prod.fst) fun _ _ ↦ True :=
      fun constraint obsoleteOk ↦ (combCommon_subset ctx fmri constraint obsoleteOk).weaken
        (fun _ h ↦ h) (fun _ _ h ↦ h.1) (fun _ _ h ↦ h)
    cases da.type with
    | require => exact hfst .none false
    | optional => exact hfst .none true
    | incorporate => exact hfst .auto true
    | exclude =>
      exact Program.Triple.bind (combCommon_subset ctx fmri .none true) fun both ↦
        Program.Triple.pure fun _ h ↦ h.2
  · rintro ⟨matching, nonmatching⟩
    refine Program.Triple.assume_only fun hmatching ↦ ?_
    dsimp only
    split_ifs
    · exact Program.Triple.bind (combCommon_subset ctx fmri .none true) fun both ↦
        Program.Triple.throw fun _ _ ↦ trivial
    · exact Program.Triple.pure fun _ _ ↦ hmatching

theorem generateDependencies_subset (fmri : PkgFmri) :
    Program.Triple (fun _ ↦ True) (ctx.generateDependencies fmri excludes)
      (fun found _ ↦ found ⊆ ctx.catalog.map Prod.fst) fun _ _ ↦ True := by
  refine Program.Triple.handle (M := fun _ _ ↦ True) ?_ fun error ↦ ?_
  · refine Program.Triple.bind (M := fun _ _ ↦ True) (Program.Triple.lift (fun _ _ _ h ↦ h)
      fun _ _ _ h ↦ h) fun das ↦ ?_
    refine Program.Triple.weaken (Program.Triple.flatMapEach (P := fun _ ↦ True)
      (M := (· ∈ ctx.catalog.map Prod.fst)) fun da _ ↦ ?_) (fun _ h ↦ h)
      (fun _ _ h ↦ h.1) (fun _ _ h ↦ h)
    refine Program.Triple.bind (parseDependency_subset ctx da true) ?_
    rintro ⟨nonmatching, matching⟩
    refine Program.Triple.pure fun _ hsub ↦ ⟨?_, trivial⟩
    split_ifs
    · exact hsub
    · simp
  · split
    · exact Program.Triple.bind (M := fun _ _ ↦ True) (Program.Triple.modify fun _ h ↦ h) fun _ ↦
        Program.Triple.pure fun _ _ ↦ List.nil_subset _
    · exact Program.Triple.bind (M := fun _ _ ↦ True) (Program.Triple.modify fun _ h ↦ h) fun _ ↦
        Program.Triple.pure fun _ _ ↦ List.nil_subset _
    · exact Program.Triple.throw fun _ _ ↦ trivial

/-- The bound of the dependency closure suffices. -/
theorem closure_terminates {fmriSet : List PkgFmri} (hnodup : fmriSet.Nodup) (state : State) :
    (Program.exec (drain ctx.pick (fun () fmri ↦ do
      let found ← ctx.generateDependencies fmri excludes
      return ((), found)) (fmriSet.length + ctx.catalog.length) () fmriSet []) state).1 ≠
      .ok none := by
  have hsuffices : Program.Triple (fun _ ↦ True) (drain ctx.pick (fun () fmri ↦ do
      let found ← ctx.generateDependencies fmri excludes
      return ((), found)) (fmriSet.length + ctx.catalog.length) () fmriSet [])
      (fun result _ ↦ result.isSome ∧ True) fun _ _ ↦ True :=
    drain_terminates (U := fmriSet ++ ctx.catalog.map Prod.fst) (fun () fmri _ ↦ Program.Triple.bind
      (generateDependencies_subset ctx excludes fmri) fun found ↦ Program.Triple.pure fun _ h ↦
        ⟨fun _ hmem ↦ List.mem_append_right _ (h hmem), trivial⟩)
      _ () fmriSet [] (List.subset_append_left _ _) hnodup (by simp) (by simp)
  intro hnone
  exact absurd (hsuffices.of_exec trivial (Program.exec_eq_of_result hnone)).1 (by simp)

end Pool

/-! ### Renamed packages -/

/-- `fmris_by_name[name]`. -/
def fmriByName (fmris : List PkgFmri) (name : String) : Except SolverError PkgFmri :=
  match fmris.find? (·.pkgName = name) with
  | some fmri => .ok fmri
  | none => .error .keyError

/-- The packages among `fmris` that the require dependencies of a package name. -/
def Context.requiredFmris (ctx : Context) (fmris : List PkgFmri) (excludes : Excludes)
    (fmri : PkgFmri) : Except SolverError (List PkgFmri) := do
  let das ← ctx.getDependencyActions fmri excludes
  (das.filter (·.type = .require)).mapM fun da ↦ do
    let required ← da.pkgFmri
    fmriByName fmris required.pkgName

/-- `__elide_possible_renames(fmris, excludes)`. -/
def Context.elidePossibleRenames (ctx : Context) (fmris : List PkgFmri) (excludes : Excludes) :
    SolverM (List PkgFmri) := do
  let renamedFmris ← Program.filterEach (ctx.fmriIsRenamed · excludes) fmris
  if renamedFmris = [] then return fmris
  let result ← drain ctx.pick (fun renamedFmris pfmri ↦ do
    let found ← Program.lift (ctx.requiredFmris fmris excludes pfmri)
    return (renamedFmris.filter (· ∉ found), found))
    fmris.length renamedFmris (fmris.filter (· ∉ renamedFmris)) []
  match result with
  | some (renamedFmris, _) => return fmris.filter (· ∉ renamedFmris)
  | none => throw .nontermination

/-- `__get_dependents(pfmri, excludes)`: the installed packages that require an installed package.
The source computes this map once; the first call decides whether that raises. -/
def Context.getDependents (ctx : Context) (pfmri : PkgFmri) (excludes : Excludes) :
    Except SolverError (List PkgFmri) := do
  let edges ← ctx.installed.fmris.mapM fun fmri ↦ do
    let required ← ctx.requiredFmris ctx.installed.fmris excludes fmri
    return (fmri, required)
  return (edges.filter fun edge ↦ pfmri ∈ edge.2).map Prod.fst

/-! ### Sets closed under their require dependencies -/

section Required

variable (ctx : Context) (excludes : Excludes)

/-- `first` has a require dependency on the name of `second`. -/
def Requires (first second : PkgFmri) : Prop :=
  ∃ das, ctx.getDependencyActions first excludes = .ok das ∧
    ∃ da ∈ das, da.type = .require ∧ ∃ fmri, da.pkgFmri = .ok fmri ∧
      second.pkgName = fmri.pkgName

/-- The packages have different names, their dependencies can be read, and the require dependencies
name packages among them. -/
structure RequireClosed (fmris : List PkgFmri) : Prop where
  nodup_pkgName : (fmris.map PkgFmri.pkgName).Nodup
  closed : ∀ fmri ∈ fmris, ∃ das, ctx.getDependencyActions fmri excludes = .ok das ∧
    ∀ da ∈ das, da.type = .require → ∃ required, da.pkgFmri = .ok required ∧
      ∃ other ∈ fmris, other.pkgName = required.pkgName

/-- A package that is not renamed requires this one, transitively, or it is not renamed itself. -/
def Needed (renamed : PkgFmri → Bool) (fmris : List PkgFmri) (fmri : PkgFmri) : Prop :=
  ∃ first ∈ fmris, renamed first = false ∧
    Relation.ReflTransGen (fun first second ↦ second ∈ fmris ∧ Requires ctx excludes first second)
      first fmri

variable {ctx excludes} {fmris : List PkgFmri} {fmri : PkgFmri}

/-- In a set of packages with different names, a name finds the package of that name. -/
theorem fmriByName_eq_ok (hnodup : (fmris.map PkgFmri.pkgName).Nodup) {name : String} :
    fmriByName fmris name = .ok fmri ↔ fmri ∈ fmris ∧ fmri.pkgName = name := by
  have hinj := List.inj_on_of_nodup_map hnodup
  unfold fmriByName
  cases hfind : fmris.find? (·.pkgName = name) with
  | none =>
    simp only [List.find?_eq_none, decide_eq_true_eq] at hfind
    simp only [reduceCtorEq, false_iff]
    rintro ⟨hmem, hname⟩
    exact hfind fmri hmem hname
  | some found =>
    have hname : found.pkgName = name := by simpa using List.find?_some hfind
    have hmem := List.mem_of_find?_eq_some hfind
    simp only [Except.ok.injEq]
    constructor
    · rintro rfl
      exact ⟨hmem, hname⟩
    · rintro ⟨hmem', hname'⟩
      exact hinj hmem hmem' (hname.trans hname'.symm)

/-- The packages required by a member of a closed set are the members it requires by name. -/
theorem requiredFmris_eq_ok (hclosed : RequireClosed ctx excludes fmris) (hmem : fmri ∈ fmris) :
    ∃ required, ctx.requiredFmris fmris excludes fmri = .ok required ∧
      ∀ other, other ∈ required ↔ other ∈ fmris ∧ Requires ctx excludes fmri other := by
  obtain ⟨das, hdas, hnames⟩ := hclosed.closed fmri hmem
  obtain ⟨required, hrequired, hmem⟩ := Program.exists_mapM_ok
    (f := fun da : Dependency ↦ da.pkgFmri >>= fun required ↦ fmriByName fmris required.pkgName)
    (l := das.filter (·.type = .require)) fun da hda ↦ by
      rw [List.mem_filter, decide_eq_true_eq] at hda
      obtain ⟨named, hnamed, other, hother, hname⟩ := hnames da hda.1 hda.2
      exact ⟨other, by
        rw [hnamed]
        exact (fmriByName_eq_ok hclosed.nodup_pkgName).mpr ⟨hother, hname⟩⟩
  refine ⟨required, ?_, fun other ↦ ?_⟩
  · unfold Context.requiredFmris
    rw [hdas]
    exact hrequired
  · rw [hmem]
    constructor
    · rintro ⟨da, hda, hother⟩
      rw [List.mem_filter, decide_eq_true_eq] at hda
      obtain ⟨named, hnamed, -⟩ := hnames da hda.1 hda.2
      rw [hnamed] at hother
      have hfound := (fmriByName_eq_ok hclosed.nodup_pkgName).mp hother
      exact ⟨hfound.1, das, hdas, da, hda.1, hda.2, named, hnamed, hfound.2⟩
    · rintro ⟨hother, das', hdas', da, hda, htype, named, hnamed, hname⟩
      obtain rfl : das = das' := Except.ok.inj (hdas.symm.trans hdas')
      refine ⟨da, List.mem_filter.mpr ⟨hda, decide_eq_true htype⟩, ?_⟩
      rw [hnamed]
      exact (fmriByName_eq_ok hclosed.nodup_pkgName).mpr ⟨hother, hname⟩

variable {renamed : PkgFmri → Bool}

theorem Needed.mem (h : Needed ctx excludes renamed fmris fmri) : fmri ∈ fmris := by
  obtain ⟨first, hfirst, -, hpath⟩ := h
  induction hpath with
  | refl => exact hfirst
  | tail _ hstep _ => exact hstep.1

theorem Needed.step {first second : PkgFmri}
    (h : Needed ctx excludes renamed fmris first) (hmem : second ∈ fmris)
    (hrequires : Requires ctx excludes first second) :
    Needed ctx excludes renamed fmris second := by
  obtain ⟨start, hstart, hrenamed, hpath⟩ := h
  exact ⟨start, hstart, hrenamed, hpath.tail ⟨hmem, hrequires⟩⟩

theorem needed_of_not_renamed (hmem : fmri ∈ fmris) (hrenamed : renamed fmri = false) :
    Needed ctx excludes renamed fmris fmri :=
  ⟨fmri, hmem, hrenamed, .refl⟩

/-! ### Eliding renamed packages -/

/-- What the worklist of `elidePossibleRenames` keeps: the packages needed or taken are `Needed`,
the packages that are not renamed are among them and so is what the taken ones require, and a
renamed package is still dropped if no taken one requires it. -/
structure ElideInvariant (ctx : Context) (excludes : Excludes) (renamed : PkgFmri → Bool)
    (fmris renamedFmris needed taken : List PkgFmri) : Prop where
  needed_mem : ∀ fmri, fmri ∈ needed ∨ fmri ∈ taken → Needed ctx excludes renamed fmris fmri
  kept_mem : ∀ fmri ∈ fmris, renamed fmri = false → fmri ∈ needed ∨ fmri ∈ taken
  required_mem : ∀ first ∈ taken, ∀ second ∈ fmris, Requires ctx excludes first second →
    second ∈ needed ∨ second ∈ taken
  mem_renamed : ∀ fmri, fmri ∈ renamedFmris ↔ (fmri ∈ fmris ∧ renamed fmri = true) ∧
    ∀ first ∈ taken, ¬ Requires ctx excludes first fmri

theorem elideInvariant_step {fmris renamedFmris needed rest taken required : List PkgFmri}
    (hinv : ElideInvariant ctx excludes renamed fmris renamedFmris needed taken)
    (hperm : needed.Perm (fmri :: rest))
    (hrequired : ∀ other, other ∈ required ↔ other ∈ fmris ∧ Requires ctx excludes fmri other) :
    ElideInvariant ctx excludes renamed fmris
      (renamedFmris.filter (· ∉ required)) (stillNeeded required rest (fmri :: taken))
      (fmri :: taken) := by
  have hfmri : Needed ctx excludes renamed fmris fmri :=
    hinv.needed_mem fmri (Or.inl (hperm.symm.subset List.mem_cons_self))
  have hmove : ∀ other, other ∈ needed ∨ other ∈ taken →
      other ∈ stillNeeded required rest (fmri :: taken) ∨ other ∈ fmri :: taken := by
    rintro other (hneeded | htaken)
    · rcases List.mem_cons.mp (hperm.subset hneeded) with rfl | hrest
      · exact Or.inr List.mem_cons_self
      · exact Or.inl (mem_stillNeeded.mpr (Or.inr hrest))
    · exact Or.inr (List.mem_cons_of_mem _ htaken)
  constructor
  · rintro other (hneeded | htaken)
    · rcases mem_stillNeeded.mp hneeded with ⟨hfound, -⟩ | hrest
      · obtain ⟨hmem, hrequires⟩ := (hrequired other).mp hfound
        exact hfmri.step hmem hrequires
      · exact hinv.needed_mem other (Or.inl (hperm.symm.subset (List.mem_cons_of_mem _ hrest)))
    · rcases List.mem_cons.mp htaken with rfl | htaken
      · exact hfmri
      · exact hinv.needed_mem other (Or.inr htaken)
  · exact fun other hmem hrenamed ↦ hmove other (hinv.kept_mem other hmem hrenamed)
  · intro first hfirst second hsecond hrequires
    rcases List.mem_cons.mp hfirst with rfl | hfirst
    · by_cases htaken : second ∈ first :: taken
      · exact Or.inr htaken
      · exact Or.inl (mem_stillNeeded.mpr
          (Or.inl ⟨(hrequired second).mpr ⟨hsecond, hrequires⟩, htaken⟩))
    · exact hmove second (hinv.required_mem first hfirst second hsecond hrequires)
  · intro other
    rw [List.mem_filter, decide_eq_true_eq, hinv.mem_renamed, hrequired, List.forall_mem_cons]
    constructor
    · rintro ⟨⟨hother, htaken⟩, hnot⟩
      exact ⟨hother, fun hrequires ↦ hnot ⟨hother.1, hrequires⟩, htaken⟩
    · rintro ⟨hother, hfirst, htaken⟩
      exact ⟨⟨hother, htaken⟩, fun h ↦ hfirst h.2⟩

/-- When nothing is needed any more, the packages kept are the needed ones. -/
theorem elideInvariant_end {fmris renamedFmris taken : List PkgFmri}
    (hinv : ElideInvariant ctx excludes renamed fmris renamedFmris [] taken)
    (fmri : PkgFmri) :
    fmri ∈ fmris.filter (· ∉ renamedFmris) ↔ Needed ctx excludes renamed fmris fmri := by
  rw [List.mem_filter, decide_eq_true_eq, hinv.mem_renamed]
  constructor
  · rintro ⟨hmem, hkept⟩
    by_cases hrenamed : renamed fmri = true
    · have hrequired : ∃ first ∈ taken, Requires ctx excludes first fmri := by
        by_contra hnone
        exact hkept ⟨⟨hmem, hrenamed⟩, fun first hfirst hrequires ↦
          hnone ⟨first, hfirst, hrequires⟩⟩
      obtain ⟨first, hfirst, hrequires⟩ := hrequired
      exact (hinv.needed_mem first (Or.inr hfirst)).step hmem hrequires
    · exact needed_of_not_renamed hmem (by simpa using hrenamed)
  · intro hneeded
    refine ⟨hneeded.mem, ?_⟩
    obtain ⟨first, hfirst, hrenamed, hpath⟩ := hneeded
    suffices hreached : fmri ∈ taken ∧
        (renamed fmri = false ∨ ∃ other ∈ taken, Requires ctx excludes other fmri) by
      rintro ⟨⟨-, htrue⟩, hnone⟩
      rcases hreached.2 with hfalse | ⟨other, hother, hrequires⟩
      · rw [hfalse] at htrue
        exact absurd htrue (by decide)
      · exact hnone other hother hrequires
    induction hpath with
    | refl =>
      have htaken := (hinv.kept_mem first hfirst hrenamed).resolve_left List.not_mem_nil
      exact ⟨htaken, Or.inl hrenamed⟩
    | tail _ hstep ih =>
      have htaken := (hinv.required_mem _ ih.1 _ hstep.1 hstep.2).resolve_left List.not_mem_nil
      exact ⟨htaken, Or.inr ⟨_, ih.1, hstep.2⟩⟩

/-- Assumes: a set of packages closed under its require dependencies, and states in `P` that tell
which of them are renamed. `elidePossibleRenames` keeps exactly the needed packages. -/
theorem elidePossibleRenames_triple {P : State → Prop} {E : SolverError → State → Prop}
    (hclosed : RequireClosed ctx excludes fmris)
    (hrenamed : ∀ fmri ∈ fmris, Program.Triple P (ctx.fmriIsRenamed fmri excludes)
      (fun result state ↦ result = renamed fmri ∧ P state) E) :
    Program.Triple P (ctx.elidePossibleRenames fmris excludes)
      (fun result state ↦ (result.Sublist fmris ∧
        ∀ fmri, fmri ∈ result ↔ Needed ctx excludes renamed fmris fmri) ∧ P state) E := by
  have hnodup : fmris.Nodup := List.Nodup.of_map _ hclosed.nodup_pkgName
  refine Program.Triple.bind (Program.Triple.filterEach hrenamed) fun renamedFmris ↦ ?_
  split_ifs with hnone
  · refine Program.Triple.pure ?_
    rintro state ⟨hfilter, hstate⟩
    refine ⟨⟨List.Sublist.refl _, fun fmri ↦ ⟨fun hmem ↦ ?_, Needed.mem⟩⟩, hstate⟩
    refine needed_of_not_renamed hmem ?_
    rw [hnone, eq_comm, List.filter_eq_nil_iff] at hfilter
    simpa using hfilter fmri hmem
  · refine Program.Triple.assume fun hfilter ↦ ?_
    subst hfilter
    have hstart : ElideInvariant ctx excludes renamed fmris
        (fmris.filter renamed) (fmris.filter (· ∉ fmris.filter renamed)) [] := by
      refine ⟨?_, ?_, by simp, by simp⟩
      · rintro fmri (hneeded | htaken)
        · simp only [List.mem_filter, decide_eq_true_eq, not_and] at hneeded
          exact needed_of_not_renamed hneeded.1 (by simpa using hneeded.2 hneeded.1)
        · simp at htaken
      · intro fmri hmem hrenamed
        exact Or.inl (by simp [hmem, hrenamed])
    refine Program.Triple.bind (Program.Triple.weaken (Program.Triple.and
      (drain_triple (I := fun renamedFmris needed taken _ ↦
        ElideInvariant ctx excludes renamed fmris renamedFmris needed taken) ?_ _ _ _ _)
      (drain_terminates (P := P) (U := fmris) ?_ _ _ _ _ (List.filter_subset_self _)
        (hnodup.filter _) (by simp) (List.length_filter_le _ _)))
      (fun state hstate ↦ ⟨hstart, hstate⟩) (fun _ _ hpost ↦ hpost) (fun _ _ herr ↦ herr)) ?_
    · intro renamedFmris pfmri rest needed taken hperm
      refine Program.Triple.assume_only fun hinv ↦ ?_
      obtain ⟨required, hrequired, hmem⟩ := requiredFmris_eq_ok hclosed
        (hinv.needed_mem pfmri (Or.inl (hperm.symm.subset List.mem_cons_self))).mem
      rw [hrequired]
      exact Program.Triple.pure fun _ _ ↦ elideInvariant_step hinv hperm hmem
    · intro renamedFmris pfmri hpfmri
      obtain ⟨required, hrequired, hmem⟩ := requiredFmris_eq_ok hclosed hpfmri
      rw [hrequired]
      exact Program.Triple.pure fun _ hstate ↦
        ⟨fun other hother ↦ ((hmem other).mp hother).1, hstate⟩
    · intro result
      cases result with
      | none => exact fun state hstate ↦ absurd hstate.2.1 (by simp)
      | some result =>
        obtain ⟨renamedFmris, taken⟩ := result
        exact Program.Triple.pure fun state hstate ↦
          ⟨⟨List.filter_sublist, elideInvariant_end (hstate.1 _ _ rfl)⟩, hstate.2.2⟩

end Required

end Userland.Pkg.Solver
