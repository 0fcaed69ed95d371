import Userland.Pkg.Solver.Phases

/-!
# What installations and updates return

The phases of `solve_install` and `solve_update` are put together (`solve_sound`). Trimming is
followed up to the state in which the possible packages are collected: no candidate is older than an
installed package (`OlderGone`), and an installed package is only trimmed if it cannot be read, if
its name is proposed, or if a freeze or a held incorporation excludes it (`Withheld`). Any solution
is a model of the clauses for all possible packages, so the facts about members of a model apply to
it.

`solve_unsound` shows why the two conditions on installations are needed.
-/

set_option autoImplicit false
set_option relaxedAutoImplicit false

namespace Userland.Pkg.Solver

open Userland.Library

variable {ctx : Context} {excludes : Excludes}

/-! ### Updating -/

/-- What is collected for the installed packages is installed or a candidate. -/
theorem collected_source {trimmed : State} {collect : PkgFmri → List PkgFmri → List PkgFmri}
    (hcollect : ∀ fmri matching, ∀ other ∈ collect fmri matching,
      other = fmri ∨ other ∈ matching) {other : PkgFmri}
    (hother : other ∈ ctx.installed.fmris.flatMap fun fmri ↦
      collect fmri (ctx.newerCandidates trimmed fmri)) :
    other ∈ ctx.installed.fmris ∨ other ∈ ctx.candidates trimmed other.pkgName := by
  obtain ⟨fmri, hfmri, hmem⟩ := List.mem_flatMap.mp hother
  rcases hcollect fmri _ other hmem with rfl | hmatching
  · exact Or.inl hfmri
  · have hcandidate := List.mem_of_mem_filter hmatching
    rw [← (mem_fmrisByVersion.mp (mem_candidates.mp hcandidate).1).2] at hcandidate
    exact Or.inr hcandidate

/-- Collecting the possible packages: the closure of installed packages and candidates. -/
theorem assign_triple {trimmed start : State} (hfresh : Fresh ctx trimmed)
    (hreads : Reads ctx (Unreadable ctx) trimmed start) {fmriSet : List PkgFmri}
    (hset : ∀ fmri ∈ fmriSet,
      fmri ∈ ctx.installed.fmris ∨ fmri ∈ ctx.candidates trimmed fmri.pkgName) :
    Program.Triple (fun state ↦ state = start) (ctx.generateDependencyClosure fmriSet excludes)
      (fun closure state ↦ Assigned ctx excludes trimmed (assignFmriIds closure state))
      fun _ _ ↦ True := by
  refine Program.Triple.weaken (generateDependencyClosure_triple
    (hreads.flags hfresh.flags) fmriSet)
    (fun _ h ↦ h) ?_ (fun _ _ h ↦ h)
  rintro closure state ⟨hclosure, hstate⟩
  refine assigned_of_closure hfresh ((hreads.weaken fun _ h ↦ Or.inl h).trans hstate) hset ?_
  exact fun fmri hfmri ↦ (hclosure fmri hfmri).imp_right hreads.candidates

theorem addInstalledName_builds (name : String) :
    BuildTriple ctx (ctx.addInstalledName name) fun _ _ ↦ True := by
  intro start hpure
  refine Program.Triple.bind (M := fun _ state ↦ state = start) ?_ fun fmris ↦
    Program.Triple.weaken (genOneOf_triple fmris start hpure) (fun _ h ↦ h)
      (fun _ _ h ↦ ⟨h.1, trivial⟩) (fun _ _ h ↦ h)
  refine Program.Triple.bind (M := fun _ state ↦ state = start) (Program.Triple.get fun _ h ↦ h)
    fun found ↦ ?_
  cases hlookup : found.possibleDict.lookup name with
  | none => exact Program.Triple.throw fun _ _ ↦ trivial
  | some fmris => exact Program.Triple.pure fun _ h ↦ h

theorem addInstalledNames_builds (names : List String) :
    BuildTriple ctx (Program.forEach ctx.addInstalledName names) fun _ _ ↦ True :=
  (Program.Steps.forEach (Builds.stepping ctx) (F := fun _ _ _ ↦
    True) (fun _ _ _ _ _ _ _ _ ↦ trivial)
    fun name _ ↦ addInstalledName_builds name).weaken fun _ _ _ ↦ trivial

variable {chosen : List PkgFmri}

/-- Different names follow for a model without repetition. -/
theorem Chosen.nodup_pkgName {trimmed start state : State}
    (h : Chosen ctx excludes trimmed start state chosen) (hnodup : chosen.Nodup) :
    (chosen.map PkgFmri.pkgName).Nodup :=
  hnodup.map_on fun _ hfirst _ hsecond hname ↦ h.injOn_pkgName hfirst hsecond hname

/-- A set of packages with one package for a name, none older than an installed one, and all
requirements met. -/
structure Sound (ctx : Context) (excludes : Excludes) (fmris : List PkgFmri) : Prop where
  nodup_pkgName : (fmris.map PkgFmri.pkgName).Nodup
  notDowngraded : NotDowngraded ctx fmris
  requirementsMet : RequirementsMet ctx excludes fmris

/-- What is left of a model when the obsolete and unneeded packages are dropped. -/
theorem withoutObsolete_sound {trimmed start middle last : State}
    (h : Chosen ctx excludes trimmed start middle chosen) (hnodup : chosen.Nodup)
    (holder : OlderGone ctx trimmed) (hpure : FlagsPure ctx last) :
    Program.Triple (fun state ↦ state = last) (ctx.withoutObsolete chosen excludes)
      (fun result _ ↦ Sound ctx excludes result ∧
        ((∀ fmri ∈ chosen, fmri ∉ start.trimDict) → RestrictionsMet ctx excludes result))
      fun _ _ ↦ True := by
  have hnames := h.nodup_pkgName hnodup
  refine Program.Triple.weaken (withoutObsolete_triple hpure hnames h.requirementsMet)
    (fun _ h ↦ h) ?_ (fun _ _ h ↦ h)
  rintro result state ⟨hsub, hmet⟩
  exact ⟨⟨hnames.sublist (hsub.map _), (h.notDowngraded holder).subset hsub.subset, hmet⟩,
    fun huntrimmed ↦ (h.restrictionsMet huntrimmed).subset hsub.subset⟩

/-- A state from which a search may start: the packages have the numbers of `base`, and the clauses
of `base` are among the clauses. -/
structure Ready (ctx : Context) (base state : State) : Prop where
  ids : state.ids = base.ids
  flags : FlagsPure ctx state
  iterations : state.iterations = 0
  clauses : base.clauses ⊆ state.clauses

theorem Ready.builds {base first last : State} (h : Ready ctx base first)
    (hbuilds : Builds ctx first last) : Ready ctx base last :=
  ⟨hbuilds.ids.trans h.ids, hbuilds.flags h.flags, hbuilds.iterations.trans h.iterations,
    fun _ hmem ↦ hbuilds.clauses (h.clauses hmem)⟩

/-- A set of packages without repetition that is a model of the clauses of a state. -/
structure IsModel (base : State) (solution : List PkgFmri) : Prop where
  nodup : solution.Nodup
  subset : solution ⊆ base.ids
  model : models (assignmentOf base.ids solution) base.clauses = true

/-- A search from such a state returns a model of the clauses of `base`. -/
theorem solve_ready (hdecides : Decides ctx.solver) {base : State} (hnodup : base.ids.Nodup)
    (older : Bool) :
    Program.Triple (Ready ctx base) (ctx.solve older 2000)
      (fun solution state ↦ IsModel base solution ∧ state.ids = base.ids ∧ FlagsPure ctx state)
      fun _ _ ↦ True := by
  refine Program.Triple.of_start fun start hstart ↦ ?_
  refine Program.Triple.weaken (solve_model hdecides (hstart.ids ▸ hnodup) hstart.iterations)
    (fun _ h ↦ h) ?_ (fun _ _ h ↦ h)
  rintro solution state ⟨⟨hsolution, hsub, hmodel⟩, hids, hstates⟩
  rw [hstart.ids] at hsub hmodel
  refine ⟨⟨hsolution, hsub, models_of_subset hstart.clauses hmodel⟩, hids.trans hstart.ids, ?_⟩
  exact fun fmri flags hflags ↦ hstart.flags fmri flags (hstates ▸ hflags)

/-- A model of more clauses, among the same packages, is chosen. -/
theorem chosen_of_model {trimmed start middle base : State}
    (hassigned : Assigned ctx excludes trimmed start) (hbuilds : Builds ctx start middle)
    (hforced : ∀ entry ∈ start.possibleDict, PossibleForced ctx excludes entry.2 start middle)
    (hbase : Builds ctx middle base) (h : IsModel base chosen) :
    Chosen ctx excludes trimmed start middle chosen := by
  have hids : base.ids = start.ids := (hbuilds.trans hbase).ids
  obtain ⟨-, hsub, hmodel⟩ := h
  rw [hids] at hsub hmodel
  exact ⟨hassigned, hbuilds, hforced, hsub, models_of_subset hbase.clauses hmodel⟩

/-- Updating returns a sound set that violates no dependency of its members. -/
theorem solveUpdate_triple (hdecides : Decides ctx.solver)
    (publisher : List (String × Option String)) :
    Program.Triple (fun state ↦ state = State.start publisher) (ctx.solveUpdate excludes)
      (fun result _ ↦ Sound ctx excludes result ∧ RestrictionsMet ctx excludes result)
      fun _ _ ↦ True := by
  have hfresh := fresh_start ctx publisher
  refine Program.Triple.bind (trimOlder_steps (fun _ h ↦ h) (State.start publisher)
    hfresh.flags) fun _ ↦ ?_
  refine Program.Triple.of_start fun trimmed htrimmed ↦ ?_
  obtain ⟨hreads, holder⟩ := htrimmed
  have hfresh' := hfresh.extends hreads.toExtends
  refine Program.Triple.bind (newer_triple (R := Unreadable ctx)
    (fun fmri matching ↦ if matching = [] then [fmri] else matching) _) fun possibleSet ↦ ?_
  refine Program.Triple.of_start fun middle hmiddle ↦ ?_
  obtain ⟨⟨rfl, -⟩, hcollected⟩ := hmiddle
  refine Program.Triple.bind (assign_triple hfresh' hcollected fun fmri hfmri ↦ ?_) fun closure ↦ ?_
  · refine collected_source (fun fmri matching other hother ↦ ?_) (List.mem_dedup.mp hfmri)
    split_ifs at hother
    · exact Or.inl (List.mem_singleton.mp hother)
    · exact Or.inr hother
  refine Program.Triple.bind (M := fun _ ↦ Assigned ctx excludes trimmed)
    (Program.Triple.modify fun _ h ↦ h) fun _ ↦ ?_
  refine Program.Triple.of_start fun start hassigned ↦ ?_
  refine Program.Triple.bind (addAllPossible_triple excludes start hassigned.flags) fun _ ↦ ?_
  refine Program.Triple.of_start fun possible hpossible ↦ ?_
  refine Program.Triple.bind (addInstalledNames_builds _ possible
    (hpossible.1.flags hassigned.flags)) fun _ ↦ ?_
  refine Program.Triple.of_start fun last hlast ↦ ?_
  have hall := hpossible.1.trans hlast.1
  have hready : Ready ctx last last :=
    ⟨rfl, hall.flags hassigned.flags, hall.iterations.trans hassigned.iterations, fun _ h ↦ h⟩
  refine Program.Triple.bind (Program.Triple.weaken
    (solve_ready hdecides (hall.ids ▸ hassigned.nodup_ids) false) (fun _ h ↦ h ▸ hready)
    (fun _ _ h ↦ h) (fun _ _ h ↦ h)) fun solution ↦ ?_
  refine Program.Triple.of_start fun searched hsearched ↦ ?_
  obtain ⟨hmodel, -, hpure⟩ := hsearched
  have hchosen := chosen_of_model hassigned hpossible.1 hpossible.2 hlast.1 hmodel
  refine Program.Triple.weaken (withoutObsolete_sound hchosen hmodel.nodup holder hpure)
    (fun _ h ↦ h) ?_
    (fun _ _ h ↦ h)
  rintro result state ⟨hsound, hrestrictions⟩
  refine ⟨hsound, hrestrictions fun fmri hfmri ↦ ?_⟩
  refine (hchosen.untrimmed hfmri).resolve_right ?_
  rintro ⟨hinstalled, htrim⟩
  rcases hreads.reason_of_start htrim with hold | hpub
  · exact not_older_of_installed hinstalled hold
  · exact absurd ((acceptable_installed hinstalled _).symm.trans hpub) (by decide)

/-! ### Installing -/

/-- What is known of the proposed packages when the possible packages have their numbers. -/
structure ProposedInstall (ctx : Context) (names : List String) (trimmed : State)
    (remaining : List (String × List PkgFmri)) : Prop where
  names_eq : remaining.map Prod.fst = names
  remaining : ∀ entry ∈ remaining, ∀ fmri ∈ entry.2,
    fmri.pkgName = entry.1 ∧ fmri ∉ trimmed.trimDict

variable {publisher : List (String × Option String)}

theorem assignInstall_triple {holds : List PkgFmri}
    {proposed remaining : List (String × List PkgFmri)} {trimmed : State}
    (h : TrimmedInstall ctx publisher proposed holds remaining trimmed) :
    Program.Triple (fun state ↦ state = trimmed) (ctx.assignInstall remaining excludes)
      (fun remaining state ↦ ProposedInstall ctx (proposed.map Prod.fst) trimmed remaining ∧
        Assigned ctx excludes trimmed state) fun _ _ ↦ True := by
  have hfresh := (fresh_start ctx publisher).extends h.reads.toExtends
  refine Program.Triple.bind (newer_triple (R := Unreadable ctx)
    (fun fmri matching ↦ fmri :: matching) _) fun newer ↦ ?_
  refine Program.Triple.of_start fun first hfirst ↦ ?_
  obtain ⟨⟨rfl, -⟩, hcollected⟩ := hfirst
  refine Program.Triple.bind (assign_triple hfresh hcollected fun fmri hfmri ↦ ?_) fun closure ↦ ?_
  · rcases List.mem_append.mp (List.mem_dedup.mp hfmri) with hnewer | hproposed
    · exact collected_source (fun _ _ _ hother ↦ List.mem_cons.mp hother) hnewer
    · obtain ⟨entry, hentry, hmem⟩ := List.mem_flatMap.mp hproposed
      exact Or.inr (h.remaining entry hentry fmri hmem).2
  · refine Program.Triple.of_start fun second hsecond ↦ ?_
    refine Program.Triple.bind (dotrimProposed_triple remaining) fun remaining' ↦ ?_
    refine Program.Triple.assume ?_
    rintro ⟨hnames, hremaining⟩
    refine Program.Triple.bind (M := fun _ ↦ Assigned ctx excludes trimmed)
      (Program.Triple.modify fun state hstate ↦ hstate ▸ hsecond) fun _ ↦ ?_
    refine Program.Triple.pure fun state hstate ↦ ⟨⟨hnames.trans h.names_eq, ?_⟩, hstate⟩
    intro entry hentry fmri hfmri
    obtain ⟨entry', hentry', hname, hsub⟩ := hremaining entry hentry
    obtain ⟨hfmriName, hcandidate⟩ := h.remaining entry' hentry' fmri (hsub fmri hfmri).1
    exact ⟨hfmriName.trans hname.symm, (mem_candidates.mp hcandidate).2.1⟩

theorem addProposed_builds (entry : String × List PkgFmri) :
    BuildTriple ctx (ctx.addProposed entry) (OneOf entry.2) := by
  intro start hpure
  refine Program.Triple.bind (M := fun _ state ↦ state = start) ?_ fun fmris ↦
    Program.Triple.weaken (genOneOf_triple (entry.2.filter (· ∈ fmris)) start hpure) (fun _ h ↦ h)
      (fun _ _ h ↦ ⟨h.1, fun chosen hchosen hmodels ↦ ?_⟩) (fun _ _ h ↦ h)
  · refine Program.Triple.bind (M := fun _ state ↦ state = start) (Program.Triple.get fun _ h ↦ h)
      fun found ↦ ?_
    cases hlookup : found.possibleDict.lookup entry.1 with
    | none => exact Program.Triple.throw fun _ _ ↦ trivial
    | some fmris => exact Program.Triple.pure fun _ h ↦ h
  · obtain ⟨fmri, hfmri, hmem⟩ := h.2 chosen hchosen hmodels
    exact ⟨fmri, List.mem_of_mem_filter hfmri, hmem⟩

theorem addFixeds_builds (fmris : List PkgFmri) :
    BuildTriple ctx (Program.forEach ctx.addFixed fmris) fun _ _ ↦ True :=
  (Program.Steps.forEach (Builds.stepping ctx) (F := fun fmri ↦ OneOf [fmri])
    (fun _ ↦ stable_oneOf _) fun fmri _ ↦ genOneOf_triple [fmri]).weaken fun _ _ _ ↦ trivial

/-- The search for the proposed packages returns only if it finds a solution at once. -/
theorem solveProposed_triple (hdecides : Decides ctx.solver) {base : State}
    (hnodup : base.ids.Nodup) (obsoleteCheckSolver : Bool × List Clause) :
    Program.Triple (Ready ctx base) (ctx.solveProposed obsoleteCheckSolver excludes)
      (fun solution state ↦ IsModel base solution ∧ state.ids = base.ids ∧ FlagsPure ctx state)
      fun _ _ ↦ True := by
  refine Program.Triple.handle (solve_ready hdecides hnodup false) fun error ↦ ?_
  have htrivial : ∀ {α : Type} (program : SolverM α),
      Program.Triple (fun _ ↦ True) program (fun _ _ ↦ True) fun _ _ ↦ True :=
    fun program state _ ↦ by split <;> trivial
  split
  · exact Program.Triple.bind (htrivial _) fun _ ↦ Program.Triple.throw fun _ _ ↦ trivial
  · exact Program.Triple.throw fun _ _ ↦ trivial

/-- The searches that follow start from more clauses. -/
theorem solveAgain_triple (hdecides : Decides ctx.solver) {base : State} (hnodup : base.ids.Nodup)
    (failure : Bool) (names : List String) (savedSolution : List PkgFmri) :
    Program.Triple (fun state ↦ state.ids = base.ids ∧ FlagsPure ctx state)
      (ctx.solveAgain (failure, base.clauses) names savedSolution)
      (fun solution state ↦ IsModel base solution ∧ state.ids = base.ids ∧ FlagsPure ctx state)
      fun _ _ ↦ True := by
  have hfixed : ∀ fmris, Program.Triple (Ready ctx base) (Program.forEach ctx.addFixed fmris)
      (fun _ ↦ Ready ctx base) fun _ _ ↦ True := by
    refine fun fmris ↦ Program.Triple.of_start fun start hstart ↦ ?_
    exact Program.Triple.weaken (addFixeds_builds fmris start hstart.flags) (fun _ h ↦ h)
      (fun _ _ h ↦ hstart.builds h.1) (fun _ _ h ↦ h)
  refine Program.Triple.bind (M := fun _ ↦ Ready ctx base)
    (Program.Triple.modify fun state h ↦ ⟨h.1, h.2, rfl, fun _ hmem ↦ hmem⟩) fun _ ↦ ?_
  refine Program.Triple.bind (hfixed _) fun _ ↦ ?_
  refine Program.Triple.bind (M := fun saved state ↦ base.clauses ⊆ saved.clauses ∧
    Ready ctx base state) (Program.Triple.get fun _ h ↦ ⟨h.clauses, h⟩) fun saved ↦ ?_
  refine Program.Triple.assume fun hsaved ↦ ?_
  refine Program.Triple.bind (solve_ready hdecides hnodup true) fun oldest ↦ ?_
  refine Program.Triple.bind (M := fun _ ↦ Ready ctx base)
    (Program.Triple.modify fun state h ↦ ⟨h.2.1, h.2.2, rfl, hsaved⟩) fun _ ↦ ?_
  exact Program.Triple.bind (hfixed _) fun _ ↦ solve_ready hdecides hnodup false

/-- What an installation returns: one package for a name, none older than an installed one. Unless
it is the installed set, its requirements are met, and its restrictions too if no freeze and no held
incorporation excludes an installed package whose name is not proposed. -/
structure InstallOutcome (ctx : Context) (excludes : Excludes) (names : List String)
    (holds result : List PkgFmri) : Prop where
  nodup_pkgName : (result.map PkgFmri.pkgName).Nodup
  notDowngraded : NotDowngraded ctx result
  dependencies : result = ctx.installed.fmris ∨ RequirementsMet ctx excludes result ∧
    ((∀ fmri ∈ ctx.installed.fmris, fmri.pkgName ∉ names → ¬ Withheld holds fmri) →
      RestrictionsMet ctx excludes result)

/-- The installed set is an outcome. -/
theorem installOutcome_installed (names : List String) (holds : List PkgFmri) :
    InstallOutcome ctx excludes names holds ctx.installed.fmris := by
  refine ⟨ctx.installed.nodup_pkgName, fun fmri hfmri installed hinstalled hname ↦ ?_, Or.inl rfl⟩
  rw [List.inj_on_of_nodup_map ctx.installed.nodup_pkgName hfmri hinstalled hname]
  exact lt_irrefl _

/-- A member of a model that satisfies the proposal is not trimmed. -/
theorem untrimmed_of_proposed {holds : List PkgFmri}
    {proposed remaining last : List (String × List PkgFmri)} {trimmed start middle : State}
    (htrimmed : TrimmedInstall ctx publisher proposed holds remaining trimmed)
    (hremaining : ProposedInstall ctx (proposed.map Prod.fst) trimmed last)
    (h : Chosen ctx excludes trimmed start middle chosen)
    (hone : ∀ entry ∈ last, ∃ fmri ∈ entry.2, fmri ∈ chosen)
    (hheld : ∀ fmri ∈ ctx.installed.fmris, fmri.pkgName ∉ proposed.map Prod.fst →
      ¬ Withheld holds fmri)
    {fmri : PkgFmri} (hfmri : fmri ∈ chosen) : fmri ∉ start.trimDict := by
  refine (h.untrimmed hfmri).resolve_right ?_
  rintro ⟨hinstalled, htrim⟩
  by_cases hname : fmri.pkgName ∈ proposed.map Prod.fst
  · rw [← hremaining.names_eq] at hname
    obtain ⟨entry, hentry, heq⟩ := List.mem_map.mp hname
    obtain ⟨other, hother, hchosen⟩ := hone entry hentry
    obtain ⟨hotherName, huntrimmed⟩ := hremaining.remaining entry hentry other hother
    exact huntrimmed (h.injOn_pkgName hfmri hchosen (heq.symm.trans hotherName.symm) ▸ htrim)
  · rcases htrimmed.reads.reason_of_start htrim with (hold | hproposed | hwithheld) | hpub
    · exact not_older_of_installed hinstalled hold
    · exact hname hproposed
    · exact hheld fmri hinstalled hname hwithheld
    · exact absurd ((acceptable_installed hinstalled _).symm.trans hpub) (by decide)

theorem searchInstall_triple (hdecides : Decides ctx.solver)
    {holds : List PkgFmri}
    {proposed remaining last : List (String × List PkgFmri)} {trimmed start : State}
    (htrimmed : TrimmedInstall ctx publisher proposed holds remaining trimmed)
    (hremaining : ProposedInstall ctx (proposed.map Prod.fst) trimmed last)
    (hassigned : Assigned ctx excludes trimmed start) :
    Program.Triple (fun state ↦ state = start) (ctx.searchInstall last excludes)
      (fun result _ ↦ InstallOutcome ctx excludes (proposed.map Prod.fst) holds result)
      fun _ _ ↦ True := by
  refine Program.Triple.bind (addAllPossible_triple excludes start hassigned.flags) fun _ ↦ ?_
  refine Program.Triple.of_start fun possible hpossible ↦ ?_
  refine Program.Triple.bind (M := fun _ state ↦ state = possible)
    (Program.Triple.get fun _ h ↦ h) fun found ↦ ?_
  have hpure := hpossible.1.flags hassigned.flags
  refine Program.Triple.bind (Program.Steps.forEach (Builds.stepping ctx)
    (F := fun entry ↦ OneOf entry.2) (fun entry ↦ stable_oneOf entry.2)
    (fun entry _ ↦ addProposed_builds entry) possible hpure) fun _ ↦ ?_
  refine Program.Triple.of_start fun asked hasked ↦ ?_
  refine Program.Triple.bind (addInstalledNames_builds _ asked (hasked.1.flags hpure)) fun _ ↦ ?_
  refine Program.Triple.of_start fun base hbase ↦ ?_
  have hlast := hasked.1.trans hbase.1
  have hall := hpossible.1.trans hlast
  have hnodup : base.ids.Nodup := hall.ids ▸ hassigned.nodup_ids
  have hready : Ready ctx base base :=
    ⟨rfl, hall.flags hassigned.flags, hall.iterations.trans hassigned.iterations, fun _ h ↦ h⟩
  refine Program.Triple.bind (M := fun saved state ↦ saved = base ∧ state = base)
    (Program.Triple.get fun _ h ↦ ⟨h, h⟩) fun saved ↦ ?_
  refine Program.Triple.assume ?_
  rintro rfl
  refine Program.Triple.bind (Program.Triple.weaken
    (solveProposed_triple hdecides hnodup _) (fun _ h ↦ h ▸ hready)
    (fun _ _ h ↦ h) (fun _ _ h ↦ h)) fun savedSolution ↦ ?_
  refine Program.Triple.weaken (P := fun state ↦ state.ids = saved.ids ∧ FlagsPure ctx state) ?_
    (fun _ h ↦ h.2) (fun _ _ h ↦ h) (fun _ _ h ↦ h)
  dsimp only
  split_ifs with hnone
  · exact Program.Triple.pure fun _ _ ↦ installOutcome_installed _ holds
  · refine Program.Triple.bind (solveAgain_triple hdecides hnodup _ _ savedSolution)
      fun solution ↦ ?_
    refine Program.Triple.of_start fun searched hsearched ↦ ?_
    obtain ⟨hmodel, -, hstates⟩ := hsearched
    have hchosen := chosen_of_model hassigned hpossible.1 hpossible.2 hlast hmodel
    have hone : ∀ entry ∈ last, ∃ fmri ∈ entry.2, fmri ∈ solution := by
      intro entry hentry
      have hforces := (hasked.2 entry hentry).mono hbase.1.clauses
      rw [← hlast.ids] at hforces
      exact hforces solution hmodel.subset hmodel.model
    refine Program.Triple.weaken (withoutObsolete_sound hchosen hmodel.nodup htrimmed.olderGone
      hstates) (fun _ h ↦ h) ?_ (fun _ _ h ↦ h)
    rintro result state ⟨hsound, hrestrictions⟩
    refine ⟨hsound.nodup_pkgName, hsound.notDowngraded,
      Or.inr ⟨hsound.requirementsMet, fun hheld ↦ ?_⟩⟩
    exact hrestrictions fun fmri hfmri ↦
      untrimmed_of_proposed htrimmed hremaining hchosen hone hheld hfmri

theorem solveInstall_triple (hdecides : Decides ctx.solver)
    (publisher : List (String × Option String)) (existingFreezes : List PkgFmri)
    (proposed : Proposed) :
    Program.Triple (fun state ↦ state = State.start publisher)
      (ctx.solveInstall existingFreezes proposed excludes)
      (fun result _ ↦ ∃ incList, ctx.getInstalledUnboundIncList (proposed.entries.map Prod.fst)
        excludes = .ok incList ∧ InstallOutcome ctx excludes (proposed.entries.map Prod.fst)
          (allHolds incList existingFreezes) result) fun _ _ ↦ True := by
  refine Program.Triple.bind (choosePublishers_triple proposed.entries publisher) fun _ ↦ ?_
  generalize proposedPublishers proposed.entries publisher = publisher
  cases hincList : ctx.getInstalledUnboundIncList (proposed.entries.map Prod.fst) excludes with
  | error error => exact Program.Triple.throw fun _ _ ↦ trivial
  | ok incList =>
    refine Program.Triple.bind (M := fun found state ↦ found = incList ∧
      state = State.start publisher) (Program.Triple.pure fun _ h ↦ ⟨rfl, h⟩) fun found ↦ ?_
    refine Program.Triple.assume ?_
    rintro rfl
    refine Program.Triple.bind (trimInstall_triple publisher existingFreezes proposed found)
      fun remaining ↦ ?_
    refine Program.Triple.of_start fun trimmed htrimmed ↦ ?_
    refine Program.Triple.bind (assignInstall_triple htrimmed) fun remaining' ↦ ?_
    refine Program.Triple.of_start fun start hstart ↦ ?_
    refine Program.Triple.weaken (searchInstall_triple hdecides htrimmed hstart.1 hstart.2)
      (fun _ h ↦ h) (fun _ _ h ↦ ⟨found, rfl, h⟩) (fun _ _ h ↦ h)

/-- Assumes: a solver that decides satisfiability and returns models, and a new `PkgSolver`. What an
update returns has one package per name, replaces no installed package by an older one, and meets
every dependency of its members. What an installation returns is an `InstallOutcome` for the
incorporations that it holds in place. -/
theorem solve_sound (hdecides : Decides ctx.solver) {start : State}
    (hstart : ctx.init = .ok start) :
    (∀ solution state, Program.exec (ctx.solveUpdate excludes) start = (.ok solution, state) →
      Sound ctx excludes solution ∧ RestrictionsMet ctx excludes solution) ∧
    ∀ existingFreezes proposed solution state,
      Program.exec (ctx.solveInstall existingFreezes proposed excludes) start =
        (.ok solution, state) →
      ∃ incList, ctx.getInstalledUnboundIncList (proposed.entries.map Prod.fst) excludes =
          .ok incList ∧
        InstallOutcome ctx excludes (proposed.entries.map Prod.fst)
          (allHolds incList existingFreezes) solution := by
  obtain ⟨publisher, rfl⟩ := init_eq_ok hstart
  constructor
  · intro solution state hexec
    exact Program.Triple.of_exec (solveUpdate_triple hdecides publisher) rfl hexec
  · intro existingFreezes proposed solution state hexec
    exact Program.Triple.of_exec (solveInstall_triple hdecides publisher existingFreezes proposed)
      rfl
      hexec

/-! ### Three images -/

/-- An image with `app` installed, of which a newer version requires `lib`. -/
def updateImage : Context where
  catalog := [(.plain "p" "app" 1, some []),
    (.plain "p" "app" 2, some [⟨.depend .require "lib@1", []⟩]), (.plain "p" "lib" 1, some [])]
  installed := ⟨[.plain "p" "app" 1], by decide⟩
  pubRanks := [("p", ⟨1, true, true⟩)]
  variants := []
  solver := searchSolver
  pick := fun _ ↦ 0

/-- The update of `app` brings `lib`. -/
theorem solve_sound_updateImage :
    (Program.exec (updateImage.solveUpdate []) (State.start [("app", some "p")])).1 =
      .ok [.plain "p" "app" 2, .plain "p" "lib" 1] ∧
    Sound updateImage [] [.plain "p" "app" 2, .plain "p" "lib" 1] ∧
    RestrictionsMet updateImage [] [.plain "p" "app" 2, .plain "p" "lib" 1] := by
  have hresult : (Program.exec (updateImage.solveUpdate []) (State.start [("app", some "p")])).1 =
      .ok [.plain "p" "app" 2, .plain "p" "lib" 1] := by decide +kernel
  have hinit : updateImage.init = .ok (State.start [("app", some "p")]) := by decide
  have hdecides : Decides updateImage.solver := decides_searchSolver
  exact ⟨hresult, (solve_sound hdecides hinit).1 _ _ (Program.exec_eq_of_result hresult)⟩

/-- An image where `app` is installed without the package `lib` that it requires. -/
def brokenImage : Context :=
  { updateImage with
    catalog := [(.plain "p" "app" 1, some [⟨.depend .require "lib@1", []⟩]),
      (.plain "p" "lib" 1, some [])] }

/-- An image with `base` installed, and a package `app` that excludes it. -/
def frozenImage : Context :=
  { updateImage with
    catalog := [(.plain "p" "base" 1, some []),
      (.plain "p" "app" 1, some [⟨.depend .exclude "base@1", []⟩])]
    installed := ⟨[.plain "p" "base" 1], by decide⟩ }

/-- The package `app` is proposed. -/
def proposedApp : Proposed where
  entries := [("app", [.plain "p" "app" 1])]
  nodup_name := by decide
  pkgName := by decide

/-- Proposing what is installed returns the installed set although a requirement is not met. A
freeze that excludes the installed `base` hides it from the clauses, so that `app` is installed
beside it. -/
theorem solve_unsound :
    Decides brokenImage.solver ∧ Decides frozenImage.solver ∧
    (brokenImage.init = .ok (State.start [("app", some "p")]) ∧
      (Program.exec (brokenImage.solveInstall [] proposedApp [])
        (State.start [("app", some "p")])).1 =
        .ok [.plain "p" "app" 1] ∧
      ¬ RequirementsMet brokenImage [] [.plain "p" "app" 1]) ∧
    frozenImage.init = .ok (State.start [("base", some "p")]) ∧
      (Program.exec (frozenImage.solveInstall [.plain "p" "base" 2] proposedApp [])
        (State.start [("base", some "p")])).1 = .ok [.plain "p" "app" 1, .plain "p" "base" 1] ∧
      ¬ RestrictionsMet frozenImage [] [.plain "p" "app" 1, .plain "p" "base" 1] := by
  refine ⟨decides_searchSolver, decides_searchSolver,
    ⟨by decide, by decide +kernel, fun h ↦ ?_⟩, by decide, by decide +kernel, fun h ↦ ?_⟩
  · obtain ⟨das, hdas, hall⟩ := h (.plain "p" "app" 1) (by decide)
    obtain rfl : [⟨.require, "lib@1"⟩] = das := Except.ok.inj hdas
    obtain ⟨named, hnamed, hrequire⟩ := hall ⟨.require, "lib@1"⟩ (by decide)
    obtain rfl : ⟨none, "lib", (PkgFmri.plain "p" "lib" 1).version⟩ = named :=
      Except.ok.inj ((show _ = _ by decide).symm.trans hnamed)
    obtain ⟨other, hother, hname, -⟩ := hrequire rfl
    rw [List.mem_singleton] at hother
    rw [hother] at hname
    exact absurd hname (by decide)
  · have hmet := h (.plain "p" "app" 1) (by decide) [⟨.exclude, "base@1"⟩] (by decide)
      ⟨.exclude, "base@1"⟩ (by decide) (by decide)
      ⟨none, "base", (PkgFmri.plain "p" "base" 1).version⟩ (by decide) (.plain "p" "base" 1)
      (by decide) rfl
    exact absurd hmet (by decide)

end Userland.Pkg.Solver
