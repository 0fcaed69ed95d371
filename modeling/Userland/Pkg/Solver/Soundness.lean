import Mathlib.Data.List.Dedup
import Userland.Pkg.Solver.Encoding

/-!
# Installing and updating is sound

What `solve_install` and `solve_update` return has one package per name, replaces no installed
package by an older one, meets every require dependency of its members and violates no other
dependency (`solve_sound`). The guarantee combines trimming, the dependency closure, the clauses,
and the packages dropped in the end: a member of a model cannot have been trimmed after it became
possible (`Chosen.untrimmed`), so the clauses speak about it.

Two conditions are needed for installations. The installed set is returned unchanged when nothing
proposed would change, whatever its dependencies, and an installed package that a freeze or a held
incorporation excludes is trimmed but stays possible, so that no clause speaks about it.
-/

set_option autoImplicit false
set_option relaxedAutoImplicit false

namespace Userland.Pkg.Solver

open Userland.Library

variable {ctx : Context} {excludes : Excludes}

/-! ### Numbered packages -/

variable {possibleSet : List PkgFmri}

/-- The entries of `possibleDict` are the possible packages of a name. -/
theorem mem_possibleDict {state : State}
    {entry : String × List PkgFmri} (h : entry ∈ (assignFmriIds possibleSet state).possibleDict)
    (fmri : PkgFmri) : fmri ∈ entry.2 ↔ fmri ∈ possibleSet ∧ fmri.pkgName = entry.1 := by
  obtain ⟨name, -, rfl⟩ := List.mem_map.mp h
  rw [List.mem_insertionSort, List.mem_filter, List.mem_dedup, decide_eq_true_eq]

variable {fmri : PkgFmri}

theorem exists_possibleDict (state : State) (h : fmri ∈ possibleSet) :
    ∃ entry ∈ (assignFmriIds possibleSet state).possibleDict, entry.1 = fmri.pkgName :=
  ⟨_, List.mem_map_of_mem (List.mem_dedup.mpr (List.mem_map_of_mem h)), rfl⟩

theorem mem_ids_assignFmriIds {state : State} :
    fmri ∈ (assignFmriIds possibleSet state).ids ↔ fmri ∈ possibleSet := by
  change fmri ∈ ((assignFmriIds possibleSet state).possibleDict.insertionSort _).flatMap _ ↔ _
  simp only [List.mem_flatMap, List.mem_insertionSort, List.mem_reverse]
  constructor
  · rintro ⟨entry, hentry, hfmri⟩
    exact ((mem_possibleDict hentry fmri).mp hfmri).1
  · intro h
    obtain ⟨entry, hentry, hname⟩ := exists_possibleDict state h
    exact ⟨entry, hentry, (mem_possibleDict hentry fmri).mpr ⟨h, hname.symm⟩⟩

theorem nodup_ids_assignFmriIds (possibleSet : List PkgFmri) (state : State) :
    (assignFmriIds possibleSet state).ids.Nodup := by
  change (((assignFmriIds possibleSet state).possibleDict.insertionSort _).flatMap _).Nodup
  rw [List.Perm.nodup_iff ((List.perm_insertionSort _ _).flatMap_right _), List.nodup_flatMap]
  constructor
  · intro entry hentry
    obtain ⟨name, -, rfl⟩ := List.mem_map.mp hentry
    rw [List.nodup_reverse, (List.perm_insertionSort _ _).nodup_iff]
    exact (List.nodup_dedup _).filter _
  · have hnames : (assignFmriIds possibleSet state).possibleDict.map Prod.fst =
        (possibleSet.map PkgFmri.pkgName).dedup :=
      List.map_map.trans (List.map_id _)
    have hnodup := List.nodup_dedup (possibleSet.map PkgFmri.pkgName)
    rw [← hnames] at hnodup
    refine List.Pairwise.imp_of_mem ?_ (List.pairwise_map.mp hnodup)
    intro first second hfirst hsecond hne fmri hmem hmem'
    rw [List.mem_reverse] at hmem hmem'
    exact hne (((mem_possibleDict hfirst fmri).mp hmem).2.symm.trans
      ((mem_possibleDict hsecond fmri).mp hmem').2)

/-- What is known when the possible packages have their numbers. They are installed, or were
candidates in the state `trimmed` before they were collected, and one that is trimmed is installed
and was trimmed before, or has no hope. -/
structure Assigned (ctx : Context) (excludes : Excludes) (trimmed state : State) : Prop where
  flags : FlagsPure ctx state
  iterations : state.iterations = 0
  nodup_ids : state.ids.Nodup
  possSet : state.ids ⊆ state.possSet
  possibleDict : ∀ fmri ∈ state.ids, ∃ entry ∈ state.possibleDict,
    ∀ other, other ∈ entry.2 ↔ other ∈ state.ids ∧ other.pkgName = fmri.pkgName
  source : ∀ fmri ∈ state.ids,
    fmri ∈ ctx.installed.fmris ∨ fmri ∈ ctx.candidates trimmed fmri.pkgName
  acceptable : ∀ fmri ∈ state.ids,
    fmri.pkgName ∈ state.pubTrim ∨ ctx.acceptable state fmri = true
  trimDict : ∀ fmri ∈ state.ids, fmri ∈ state.trimDict →
    fmri ∈ ctx.installed.fmris ∧ fmri ∈ trimmed.trimDict ∨ Hopeless ctx excludes state fmri

/-- The state before packages are numbered: nothing was counted, and nothing is possible yet. -/
structure Fresh (ctx : Context) (state : State) : Prop where
  flags : FlagsPure ctx state
  iterations : state.iterations = 0
  possSet : state.possSet = []

theorem Fresh.extends {R : PkgFmri → Prop} {first last : State} (h : Fresh ctx first)
    (hextends : Extends ctx R first last) : Fresh ctx last :=
  ⟨hextends.flags h.flags, hextends.iterations.trans h.iterations,
    hextends.possSet.trans h.possSet⟩

/-- Numbering the dependency closure of installed packages and candidates. -/
theorem assigned_of_closure {trimmed state : State} {fmriSet closure : List PkgFmri}
    (hfresh : Fresh ctx trimmed)
    (hreads : Reads ctx (Hopeless ctx excludes state) trimmed state)
    (hset : ∀ fmri ∈ fmriSet,
      fmri ∈ ctx.installed.fmris ∨ fmri ∈ ctx.candidates trimmed fmri.pkgName)
    (hclosure : ∀ fmri ∈ closure,
      fmri ∈ fmriSet ∨ fmri ∈ ctx.candidates trimmed fmri.pkgName) :
    Assigned ctx excludes trimmed (assignFmriIds closure state) := by
  have hstate := hfresh.extends hreads.toExtends
  have hsource : ∀ fmri ∈ closure,
      fmri ∈ ctx.installed.fmris ∨ fmri ∈ ctx.candidates trimmed fmri.pkgName :=
    fun fmri hfmri ↦ (hclosure fmri hfmri).elim (hset fmri) Or.inr
  have hacceptable : ∀ fmri ∈ closure,
      fmri.pkgName ∈ trimmed.pubTrim ∨ ctx.acceptable trimmed fmri = true := by
    intro fmri hfmri
    rcases hsource fmri hfmri with hinstalled | hcandidate
    · exact Or.inr (acceptable_installed hinstalled trimmed)
    · exact (mem_candidates.mp hcandidate).2.2.1
  have hfewer : ∀ name, ∀ fmri ∈ ctx.candidates (assignFmriIds closure state) name,
      fmri ∈ ctx.candidates state name := by
    intro name fmri hfmri
    rw [mem_candidates] at hfmri ⊢
    exact ⟨hfmri.1, hfmri.2.1, hfmri.2.2.1, Or.inl hstate.possSet⟩
  refine ⟨hstate.flags, hstate.iterations, nodup_ids_assignFmriIds closure state, ?_,
    ?_, ?_, ?_, ?_⟩
  · intro fmri hfmri
    exact List.mem_union_iff.mpr (Or.inr (mem_ids_assignFmriIds.mp hfmri))
  · intro fmri hfmri
    obtain ⟨entry, hentry, hname⟩ := exists_possibleDict state (mem_ids_assignFmriIds.mp hfmri)
    refine ⟨entry, hentry, fun other ↦ ?_⟩
    rw [mem_possibleDict hentry, mem_ids_assignFmriIds, hname]
  · exact fun fmri hfmri ↦ hsource fmri (mem_ids_assignFmriIds.mp hfmri)
  · intro fmri hfmri
    exact (hacceptable fmri (mem_ids_assignFmriIds.mp hfmri)).imp (fun h ↦ hreads.pubTrim h)
      fun h ↦ (acceptable_congr hreads.publisher fmri).trans h
  · intro fmri hfmri htrim
    rw [mem_ids_assignFmriIds] at hfmri
    rcases hreads.trimmed fmri htrim with hbefore | hhopeless | ⟨hname, hpub⟩
    · rcases hsource fmri hfmri with hinstalled | hcandidate
      · exact Or.inl ⟨hinstalled, hbefore⟩
      · exact absurd hbefore (mem_candidates.mp hcandidate).2.1
    · exact Or.inr (hhopeless.mono hfewer)
    · rcases hacceptable fmri hfmri with h | h
      · exact absurd h hname
      · exact absurd (h.symm.trans hpub) (by decide)

/-! ### Members of a model -/

/-- Every member has its actions, and its require dependencies are met by members: of the name, not
older than required, and not obsolete. -/
def RequirementsMet (ctx : Context) (excludes : Excludes) (fmris : List PkgFmri) : Prop :=
  ∀ fmri ∈ fmris, ∃ das, ctx.getDependencyActions fmri excludes = .ok das ∧
    ∀ da ∈ das, ∃ named, da.pkgFmri = .ok named ∧ (da.type = .require →
      ∃ other ∈ fmris, other.pkgName = named.pkgName ∧ ctx.accepts .require named other = true)

/-- No member violates an optional, exclude or incorporate dependency of a member. -/
def RestrictionsMet (ctx : Context) (excludes : Excludes) (fmris : List PkgFmri) : Prop :=
  ∀ fmri ∈ fmris, ∀ das, ctx.getDependencyActions fmri excludes = .ok das →
    ∀ da ∈ das, da.type ≠ .require → ∀ named, da.pkgFmri = .ok named →
      ∀ other ∈ fmris, other.pkgName = named.pkgName → ctx.accepts da.type named other = true

/-- No installed package is replaced by an older version of itself. -/
def NotDowngraded (ctx : Context) (fmris : List PkgFmri) : Prop :=
  ∀ fmri ∈ fmris, ∀ installed ∈ ctx.installed.fmris, fmri.pkgName = installed.pkgName →
    ¬ PkgFmri.optionKey fmri.version < PkgFmri.optionKey installed.version

/-- The candidates of the name of an installed package are not older than it. -/
def OlderGone (ctx : Context) (state : State) : Prop :=
  ∀ installed ∈ ctx.installed.fmris, ∀ fmri ∈ ctx.candidates state installed.pkgName,
    versionMeets .none installed fmri = true

/-- A set of packages that is a model of the clauses for all possible packages. -/
structure Chosen (ctx : Context) (excludes : Excludes) (trimmed start state : State)
    (chosen : List PkgFmri) : Prop where
  assigned : Assigned ctx excludes trimmed start
  builds : Builds ctx start state
  forced : ∀ entry ∈ start.possibleDict, PossibleForced ctx excludes entry.2 start state
  subset : chosen ⊆ start.ids
  model : models (assignmentOf start.ids chosen) state.clauses = true

namespace Chosen

variable {trimmed start state : State} {chosen : List PkgFmri}

theorem injOn_pkgName (h : Chosen ctx excludes trimmed start state chosen) {first second : PkgFmri}
    (hfirst : first ∈ chosen) (hsecond : second ∈ chosen)
    (hname : first.pkgName = second.pkgName) : first = second := by
  obtain ⟨entry, hentry, hmem⟩ := h.assigned.possibleDict second (h.subset hsecond)
  exact (h.forced entry hentry).1 chosen h.subset h.model
    first ((hmem first).mpr ⟨h.subset hfirst, hname⟩)
    second ((hmem second).mpr ⟨h.subset hsecond, rfl⟩) hfirst hsecond

theorem packageForced (h : Chosen ctx excludes trimmed start state chosen)
    (hfmri : fmri ∈ chosen) : PackageForced ctx excludes fmri start state := by
  obtain ⟨entry, hentry, hmem⟩ := h.assigned.possibleDict fmri (h.subset hfmri)
  exact (h.forced entry hentry).2 fmri ((hmem fmri).mpr ⟨h.subset hfmri, rfl⟩)

theorem readable (h : Chosen ctx excludes trimmed start state chosen)
    (hfmri : fmri ∈ chosen) : Readable ctx fmri := by
  obtain ⟨das, hdas, -⟩ := h.packageForced hfmri
  exact readable_of_getDependencyActions hdas

/-- What a require dependency of a member forces. -/
theorem required (h : Chosen ctx excludes trimmed start state chosen)
    (hfmri : fmri ∈ chosen) {das : List Dependency}
    (hdas : ctx.getDependencyActions fmri excludes = .ok das) {da : Dependency} (hda : da ∈ das)
    (htype : da.type = .require) {named : PkgFmri} (hnamed : da.pkgFmri = .ok named) :
    ∃ other ∈ chosen, other ∈ ctx.candidates start named.pkgName ∧
      ctx.accepts .require named other = true := by
  obtain ⟨das', hdas', hforced⟩ := h.packageForced hfmri
  obtain rfl : das = das' := Except.ok.inj (hdas.symm.trans hdas')
  obtain ⟨named', hnamed', hforces⟩ := hforced da hda
  obtain rfl : named = named' := Except.ok.inj (hnamed.symm.trans hnamed')
  have hmet := hforces chosen h.subset h.model hfmri
  rwa [if_pos htype, htype] at hmet

/-- A member has hope: its actions can be read, and its require dependencies are met. -/
theorem not_hopeless (h : Chosen ctx excludes trimmed start state chosen)
    (hfmri : fmri ∈ chosen) : ¬ Hopeless ctx excludes start fmri := by
  rintro (hunreadable | ⟨das, hdas, da, hda, htype, named, hnamed, hnone⟩)
  · exact hunreadable (h.readable hfmri)
  · obtain ⟨other, -, hcandidate, haccepts⟩ := h.required hfmri hdas hda htype hnamed
    exact absurd (haccepts.symm.trans (hnone other hcandidate)) (by decide)

/-- A member that is trimmed is installed and was trimmed before the possible packages were
collected. -/
theorem untrimmed (h : Chosen ctx excludes trimmed start state chosen)
    (hfmri : fmri ∈ chosen) : fmri ∉ start.trimDict ∨
      fmri ∈ ctx.installed.fmris ∧ fmri ∈ trimmed.trimDict := by
  by_cases htrim : fmri ∈ start.trimDict
  · exact Or.inr ((h.assigned.trimDict fmri (h.subset hfmri) htrim).resolve_right
      (h.not_hopeless hfmri))
  · exact Or.inl htrim

/-- A member that is not trimmed is still a candidate when all clauses have been added. -/
theorem candidate (h : Chosen ctx excludes trimmed start state chosen)
    (hfmri : fmri ∈ chosen) (huntrimmed : fmri ∉ start.trimDict) :
    fmri ∈ ctx.candidates state fmri.pkgName := by
  have hacceptable := h.assigned.acceptable fmri (h.subset hfmri)
  rw [mem_candidates]
  refine ⟨mem_fmrisByVersion.mpr ⟨(h.readable hfmri).mem_catalog, rfl⟩, fun htrim ↦ ?_, ?_, ?_⟩
  · rcases h.builds.trimmed fmri htrim with hbefore | hunreadable | ⟨hname, hpub⟩
    · exact huntrimmed hbefore
    · exact hunreadable (h.readable hfmri)
    · rcases hacceptable with hmem | htrue
      · exact hname hmem
      · exact absurd (htrue.symm.trans hpub) (by decide)
  · exact hacceptable.imp (fun hmem ↦ h.builds.pubTrim hmem) fun htrue ↦
      (acceptable_congr h.builds.publisher fmri).trans htrue
  · rw [h.builds.possSet]
    exact Or.inr (h.assigned.possSet (h.subset hfmri))

theorem requirementsMet (h : Chosen ctx excludes trimmed start state chosen) :
    RequirementsMet ctx excludes chosen := by
  intro fmri hfmri
  obtain ⟨das, hdas, hforced⟩ := h.packageForced hfmri
  refine ⟨das, hdas, fun da hda ↦ ?_⟩
  obtain ⟨named, hnamed, -⟩ := hforced da hda
  refine ⟨named, hnamed, fun htype ↦ ?_⟩
  obtain ⟨other, hother, hcandidate, haccepts⟩ := h.required hfmri hdas hda htype hnamed
  exact ⟨other, hother, (mem_fmrisByVersion.mp (mem_candidates.mp hcandidate).1).2, haccepts⟩

theorem restrictionsMet (h : Chosen ctx excludes trimmed start state chosen)
    (huntrimmed : ∀ fmri ∈ chosen, fmri ∉ start.trimDict) :
    RestrictionsMet ctx excludes chosen := by
  intro fmri hfmri das hdas da hda htype named hnamed other hother hname
  obtain ⟨das', hdas', hforced⟩ := h.packageForced hfmri
  obtain rfl : das = das' := Except.ok.inj (hdas.symm.trans hdas')
  obtain ⟨named', hnamed', hforces⟩ := hforced da hda
  obtain rfl : named = named' := Except.ok.inj (hnamed.symm.trans hnamed')
  have hmet := hforces chosen h.subset h.model hfmri
  rw [if_neg htype] at hmet
  exact hmet other hother (hname ▸ h.candidate hother (huntrimmed other hother))

theorem notDowngraded (h : Chosen ctx excludes trimmed start state chosen)
    (holder : OlderGone ctx trimmed) : NotDowngraded ctx chosen := by
  intro fmri hfmri installed hinstalled hname
  rcases h.assigned.source fmri (h.subset hfmri) with hmem | hcandidate
  · have heq : fmri = installed :=
      List.inj_on_of_nodup_map ctx.installed.nodup_pkgName hmem hinstalled hname
    rw [heq]
    exact lt_irrefl _
  · rw [hname] at hcandidate
    exact versionMeets_none_iff.mp (holder installed hinstalled fmri hcandidate)

end Chosen

/-! ### Dropping obsolete and renamed packages -/

theorem RestrictionsMet.subset {first last : List PkgFmri}
    (h : RestrictionsMet ctx excludes first) (hsub : last ⊆ first) :
    RestrictionsMet ctx excludes last :=
  fun fmri hfmri das hdas da hda htype named hnamed other hother ↦
    h fmri (hsub hfmri) das hdas da hda htype named hnamed other (hsub hother)

theorem NotDowngraded.subset {first last : List PkgFmri} (h : NotDowngraded ctx first)
    (hsub : last ⊆ first) : NotDowngraded ctx last :=
  fun fmri hfmri ↦ h fmri (hsub hfmri)

/-- Whether the stored state of a package says that it is renamed. -/
def Context.flaggedRenamed (ctx : Context) (fmri : PkgFmri) : Bool :=
  match ctx.flags fmri with
  | .ok flags => flags.2.truthy
  | .error _ => false

variable {start : State}

/-- Loading the states of some packages, and selecting those that are not obsolete. -/
theorem filterObsolete_triple (hpure : FlagsPure ctx start) (fmris : List PkgFmri) :
    Program.Triple (fun state ↦ state = start)
      (Program.filterEach (fun fmri ↦ (!·) <$> ctx.fmriIsObsolete fmri []) fmris)
      (fun kept state ↦ (kept = fmris.filter (fun fmri ↦ !ctx.isObsolete fmri) ∧
        ∀ fmri ∈ fmris, (state.fmriState.lookup fmri).isSome) ∧
          Reads ctx (Unreadable ctx) start state) fun _ _ ↦ True := by
  induction fmris generalizing start with
  | nil => exact Program.Triple.pure fun state h ↦ ⟨⟨rfl, by simp⟩, h ▸ Reads.refl ctx _ state⟩
  | cons fmri rest ih =>
    unfold Program.filterEach
    rw [map_eq_pure_bind, bind_assoc]
    refine Program.Triple.bind (Program.Triple.weaken (fmriIsObsolete_triple hpure fmri)
      (fun _ h ↦ h ▸ Reads.refl ctx _ _) (fun _ _ h ↦ h) fun _ _ _ ↦ trivial) fun obsolete ↦ ?_
    rw [pure_bind]
    refine Program.Triple.of_start fun middle hmiddle ↦ ?_
    refine Program.Triple.bind (ih (hmiddle.2.flags hpure)) fun others ↦ Program.Triple.pure ?_
    rintro state ⟨⟨rfl, hloaded⟩, hstate⟩
    refine ⟨⟨?_, List.forall_mem_cons.mpr ⟨hstate.loaded fmri hmiddle.1.2, hloaded⟩⟩,
      hmiddle.2.trans hstate⟩
    rw [List.filter_cons, hmiddle.1.1]

theorem fmriIsRenamed_loaded {fmris : List PkgFmri} (hmem : fmri ∈ fmris) : Program.Triple
      (fun state ↦ FlagsPure ctx state ∧ ∀ fmri ∈ fmris, (state.fmriState.lookup fmri).isSome)
      (ctx.fmriIsRenamed fmri excludes)
      (fun result state ↦ result = ctx.flaggedRenamed fmri ∧ FlagsPure ctx state ∧
        ∀ fmri ∈ fmris, (state.fmriState.lookup fmri).isSome) fun _ _ ↦ True := by
  rintro state ⟨hpure, hloaded⟩
  obtain ⟨flags, hflags⟩ := Option.isSome_iff_exists.mp (hloaded fmri hmem)
  unfold Context.fmriIsRenamed Context.fmriFlags
  simp only [Program.exec_bind, Program.exec_get, hflags, Program.exec_pure]
  exact ⟨by rw [Context.flaggedRenamed, hpure fmri flags hflags], hpure, hloaded⟩

/-- The obsolete members and the renamed ones that nothing needs may be dropped: no requirement of
another member depends on them. -/
theorem withoutObsolete_triple (hpure : FlagsPure ctx start)
    {solution : List PkgFmri} (hnodup : (solution.map PkgFmri.pkgName).Nodup)
    (hmet : RequirementsMet ctx excludes solution) :
    Program.Triple (fun state ↦ state = start) (ctx.withoutObsolete solution excludes)
      (fun result _ ↦ result.Sublist solution ∧ RequirementsMet ctx excludes result)
      fun _ _ ↦ True := by
  refine Program.Triple.bind (filterObsolete_triple hpure solution) fun kept ↦ ?_
  refine Program.Triple.of_start fun middle hmiddle ↦ ?_
  obtain ⟨⟨rfl, hloaded⟩, hreads⟩ := hmiddle
  set kept := solution.filter fun fmri ↦ !ctx.isObsolete fmri with hkept
  have hsub : kept.Sublist solution := List.filter_sublist
  have hrequired : ∀ fmri ∈ kept, ∃ das, ctx.getDependencyActions fmri excludes = .ok das ∧
      ∀ da ∈ das, ∃ named, da.pkgFmri = .ok named ∧ (da.type = .require → ∃ other ∈ kept,
        other.pkgName = named.pkgName ∧ ctx.accepts .require named other = true) := by
    intro fmri hfmri
    obtain ⟨das, hdas, hall⟩ := hmet fmri (hsub.subset hfmri)
    refine ⟨das, hdas, fun da hda ↦ ?_⟩
    obtain ⟨named, hnamed, hrequire⟩ := hall da hda
    refine ⟨named, hnamed, fun htype ↦ ?_⟩
    obtain ⟨other, hother, hname, haccepts⟩ := hrequire htype
    refine ⟨other, List.mem_filter.mpr ⟨hother, ?_⟩, hname, haccepts⟩
    exact (Bool.and_eq_true_iff.mp haccepts).2
  have hclosed : RequireClosed ctx excludes kept := by
    refine ⟨hnodup.sublist (hsub.map _), fun fmri hfmri ↦ ?_⟩
    obtain ⟨das, hdas, hall⟩ := hrequired fmri hfmri
    refine ⟨das, hdas, fun da hda htype ↦ ?_⟩
    obtain ⟨named, hnamed, hrequire⟩ := hall da hda
    obtain ⟨other, hother, hname, -⟩ := hrequire htype
    exact ⟨named, hnamed, other, hother, hname⟩
  refine Program.Triple.weaken (elidePossibleRenames_triple hclosed
    fun fmri hfmri ↦ fmriIsRenamed_loaded (hsub.subset hfmri)) (fun state h ↦ ?_) ?_
    (fun _ _ h ↦ h)
  · exact h ▸ ⟨hreads.flags hpure, hloaded⟩
  · rintro result state ⟨⟨hresult, hneeded⟩, -⟩
    refine ⟨hresult.trans hsub, fun fmri hfmri ↦ ?_⟩
    obtain ⟨das, hdas, hall⟩ := hrequired fmri (hresult.subset hfmri)
    refine ⟨das, hdas, fun da hda ↦ ?_⟩
    obtain ⟨named, hnamed, hrequire⟩ := hall da hda
    refine ⟨named, hnamed, fun htype ↦ ?_⟩
    obtain ⟨other, hother, hname, haccepts⟩ := hrequire htype
    refine ⟨other, (hneeded other).mpr (((hneeded fmri).mp hfmri).step hother ?_), hname, haccepts⟩
    exact ⟨das, hdas, da, hda, htype, named, hnamed, hname⟩

/-! ### Searching -/

section Search

variable {older : Bool}

/-- What a search leaves alone. -/
def SameIds (start state : State) : Prop :=
  state.ids = start.ids ∧ state.fmriState = start.fmriState

theorem sameIds_filterPublishers {start state : State} (name : String) (h : SameIds start state) :
    SameIds start (ctx.filterPublishers name state) := by
  unfold Context.filterPublishers
  split_ifs <;> exact h

theorem eliminateEach_sameIds (fmris eliminated : List PkgFmri) :
    Program.Triple (SameIds start) (ctx.eliminateEach fmris eliminated) (fun _ ↦ SameIds start)
      fun _ _ ↦ True := by
  induction fmris generalizing eliminated with
  | nil => exact Program.Triple.pure fun _ h ↦ h
  | cons fmri rest ih =>
    unfold Context.eliminateEach
    split_ifs
    · exact ih eliminated
    · refine Program.Triple.bind (getid_triple start.ids fmri fun _ h ↦ h.1) fun fid ↦ ?_
      refine Program.Triple.bind (M := fun _ ↦ SameIds start)
        (Program.Triple.modify fun _ h ↦ h.2) fun _ ↦ ih (fmri :: eliminated)

theorem eliminate_sameIds (hnodup : start.ids.Nodup) (fids : List ℕ) (eliminated : List PkgFmri) :
    Program.Triple (SameIds start) (ctx.eliminate older fids eliminated) (fun _ ↦ SameIds start)
      fun _ _ ↦ True := by
  induction fids generalizing eliminated with
  | nil => exact Program.Triple.pure fun _ h ↦ h
  | cons fid rest ih =>
    unfold Context.eliminate
    refine Program.Triple.bind (getfmri_triple hnodup fid fun _ h ↦ h.1) fun pfmri ↦ ?_
    refine Program.Triple.bind (M := fun _ ↦ SameIds start) ?_ ?_
    · refine Program.Triple.of_exec_eq (exec_combCommon_obsoleteOk ctx pfmri .none) ?_
      exact fun state h ↦ sameIds_filterPublishers _ h.2
    · rintro ⟨newer, remaining⟩
      exact Program.Triple.bind (eliminateEach_sameIds _ eliminated) fun after ↦ ih after

theorem nodup_solutionVector (solver : MsatSolver) (calls : ℕ) (clauses : List Clause) :
    (solver.solutionVector calls clauses).Nodup :=
  (List.nodup_range.filter _).map fun _ _ h ↦ Nat.succ.inj h

theorem solveLoop_sameIds (hnodup : start.ids.Nodup) (remaining : ℕ)
    (solutionVector : List ℕ) (eliminated : List PkgFmri) (hvector : solutionVector.Nodup) :
    Program.Triple (SameIds start) (ctx.solveLoop older remaining solutionVector eliminated)
      (fun result state ↦ result.Nodup ∧ SameIds start state) fun _ _ ↦ True := by
  induction remaining generalizing solutionVector eliminated with
  | zero =>
    intro state h
    rw [exec_solveLoop]
    split_ifs <;> exact ⟨hvector, h⟩
  | succ remaining ih =>
    intro state h
    rw [exec_solveLoop]
    split_ifs
    · exact ⟨hvector, h⟩
    · have hnew := nodup_solutionVector ctx.solver state.solveCalls state.clauses
      refine Program.Triple.bind (eliminate_sameIds hnodup _ eliminated) (fun after ↦ ?_)
        state.counted h
      split_ifs
      · exact Program.Triple.pure fun _ hstate ↦ ⟨hnew, hstate⟩
      · exact Program.Triple.bind (M := fun _ ↦ SameIds start)
          (Program.Triple.modify fun _ hstate ↦ hstate) fun _ ↦ ih _ _ hnew
    · exact ⟨hvector, h⟩

theorem getfmris_map {P : State → Prop} {ids : List PkgFmri} (hnodup : ids.Nodup) (fids : List ℕ)
    (hids : ∀ state, P state → state.ids = ids) :
    Program.Triple P (getfmris fids)
      (fun result state ↦ fids = result.map (number ids) ∧ P state) fun _ _ ↦ True := by
  induction fids with
  | nil => exact Program.Triple.pure fun _ hstate ↦ ⟨rfl, hstate⟩
  | cons fid rest ih =>
    refine Program.Triple.bind (getfmri_triple hnodup fid hids) fun fmri ↦ ?_
    refine Program.Triple.assume fun hfmri ↦ ?_
    refine Program.Triple.bind ih fun others ↦ Program.Triple.pure ?_
    rintro state ⟨hothers, hstate⟩
    exact ⟨by rw [List.map_cons, ← hothers, hfmri.2], hstate⟩

/-- A search that returns has found a model of the clauses it started from, without a package
repeated. -/
theorem solve_model (hdecides : Decides ctx.solver) (hnodup : start.ids.Nodup)
    (hiterations : start.iterations = 0) :
    Program.Triple (fun state ↦ state = start) (ctx.solve older 2000)
      (fun solution state ↦ (solution.Nodup ∧ solution ⊆ start.ids ∧
        models (assignmentOf start.ids solution) start.clauses = true) ∧ SameIds start state)
      fun _ _ ↦ True := by
  have hkeeps : Program.Triple (fun state ↦ SameIds start state) (ctx.solve older 2000)
      (fun solution state ↦ solution.Nodup ∧ SameIds start state) fun _ _ ↦ True := by
    refine Program.Triple.bind (M := fun _ ↦ SameIds start) (Program.Triple.get fun _ h ↦ h)
      fun found ↦ ?_
    refine Program.Triple.bind (solveLoop_sameIds hnodup _ [] [] List.nodup_nil) fun vector ↦ ?_
    refine Program.Triple.assume fun hvector ↦ ?_
    refine Program.Triple.bind (M := fun _ ↦ SameIds start) (Program.Triple.get fun _ h ↦ h)
      fun last ↦ ?_
    split_ifs
    · exact Program.Triple.throw fun _ _ ↦ trivial
    · refine Program.Triple.weaken (getfmris_map hnodup vector fun _ h ↦ h.1) (fun _ h ↦ h) ?_
        (fun _ _ h ↦ h)
      rintro solution state ⟨rfl, hstate⟩
      exact ⟨hvector.of_map _, hstate⟩
  rintro state rfl
  have hrun := hkeeps state ⟨rfl, rfl⟩
  rcases hexec : Program.exec (ctx.solve older 2000) state with ⟨error | solution, next⟩
  · trivial
  · rw [hexec] at hrun
    obtain ⟨-, hfailure⟩ := solve_started hiterations hexec
    obtain ⟨hsub, hmodel, -⟩ := Program.Triple.of_exec (solve_triple hdecides hnodup hiterations
      (fun h ↦ absurd (hfailure.symm.trans h) (by decide)) (by decide)) rfl hexec
    exact ⟨⟨hrun.1, hsub, hmodel⟩, hrun.2⟩

end Search

end Userland.Pkg.Solver
