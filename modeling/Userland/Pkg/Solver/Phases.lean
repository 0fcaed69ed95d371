import Userland.Pkg.Solver.Soundness

/-!
# The trimming phases

Before the possible packages are collected, `solve_install` and `solve_update` trim the catalog.
What these phases do is followed exactly: a package is trimmed only because it is older than the
installed one of its name, because its name is proposed, because a freeze or a held incorporation
excludes it (`TrimReason`), or because of its publisher, and no candidate that is left has such a
reason (`trimInstall_triple`, `trimOlder_steps`). The packages collected for the installed ones are
then the candidates that are not older (`newer_triple`).
-/

set_option autoImplicit false
set_option relaxedAutoImplicit false

namespace Userland.Pkg.Solver

open Userland.Library

variable {ctx : Context} {excludes : Excludes}

/-- The state of a new solver. -/
theorem fresh_start (ctx : Context) (publisher : List (String × Option String)) :
    Fresh ctx (State.start publisher) :=
  ⟨fun _ _ h ↦ (by cases h), rfl, rfl⟩

/-! ### Older packages -/

section Trims

variable {R : PkgFmri → Prop}

theorem reads_stepping (ctx : Context) (R : PkgFmri → Prop) :
    Program.Stepping (Reads ctx R) (FlagsPure ctx) :=
  ⟨Reads.refl ctx R, Reads.trans, fun h ↦ h.flags⟩

/-- The candidates of a name meet a version. -/
def Narrowed (ctx : Context) (constraint : Version.Constraint) (fmri : PkgFmri) (state : State) :
    Prop :=
  ∀ other ∈ ctx.candidates state fmri.pkgName, versionMeets constraint fmri other = true

/-- Trimming the candidates that do not meet a version. -/
theorem combTrim_steps (fmri : PkgFmri) (constraint : Version.Constraint)
    (hR : ∀ other, other.pkgName = fmri.pkgName → versionMeets constraint fmri other = false →
      R other) :
    Program.Steps (Reads ctx R) (FlagsPure ctx) (do
      let (_, excluded) ← ctx.combCommon fmri constraint true
      modify (State.trim excluded)) fun _ after ↦ Narrowed ctx constraint fmri after := by
  intro start _
  refine Program.Triple.bind (M := fun result state ↦
    result.2 = (ctx.candidates start fmri.pkgName).filter (· ∉
      (ctx.candidates start fmri.pkgName).filter (versionMeets constraint fmri)) ∧
    state = ctx.filterPublishers fmri.pkgName start)
    (Program.Triple.of_exec_eq (exec_combCommon_obsoleteOk ctx fmri constraint) ?_) ?_
  · rintro state rfl
    exact ⟨rfl, rfl⟩
  · rintro ⟨matching, excluded⟩
    refine Program.Triple.modify ?_
    rintro state ⟨hexcluded, rfl⟩
    have hmem : ∀ other, other ∈ excluded ↔ other ∈ ctx.candidates start fmri.pkgName ∧
        versionMeets constraint fmri other = false := by
      intro other
      rw [show excluded = _ from hexcluded]
      simp only [List.mem_filter, decide_eq_true_eq, not_and, Bool.not_eq_true]
      exact ⟨fun h ↦ ⟨h.1, h.2 h.1⟩, fun h ↦ ⟨h.1, fun _ ↦ h.2⟩⟩
    have hreads : Reads ctx R start ((ctx.filterPublishers fmri.pkgName start).trim excluded) := by
      refine (Reads.filterPublishers ctx R fmri.pkgName start).trim fun other hother ↦ ?_
      obtain ⟨hcandidate, hmeets⟩ := (hmem other).mp hother
      exact hR other (mem_fmrisByVersion.mp (mem_candidates.mp hcandidate).1).2 hmeets
    refine ⟨hreads, fun other hother ↦ ?_⟩
    by_contra hmeets
    refine (mem_candidates.mp hother).2.1 (List.mem_append_left _ ((hmem other).mpr ⟨?_, ?_⟩))
    · exact hreads.candidates hother
    · exact Bool.eq_false_iff.mpr hmeets

theorem stable_narrowed (constraint : Version.Constraint) (fmri : PkgFmri) :
    Program.StableAlong (Reads ctx R) fun _ after ↦ Narrowed ctx constraint fmri after :=
  fun _ _ _ _ _ hF hlast other hother ↦ hF other (hlast.candidates hother)

/-- A package is older than the installed one of its name. -/
def Older (ctx : Context) (fmri : PkgFmri) : Prop :=
  ∃ installed ∈ ctx.installed.fmris, fmri.pkgName = installed.pkgName ∧
    versionMeets .none installed fmri = false

theorem trimOlder_steps (hR : ∀ other, Older ctx other → R other) :
    Program.Steps (Reads ctx R) (FlagsPure ctx)
      (Program.forEach ctx.trimOlder ctx.installed.fmris) fun _ after ↦ OlderGone ctx after :=
  Program.Steps.forEach (reads_stepping ctx R) (stable_narrowed .none) fun fmri hfmri ↦
    combTrim_steps fmri .none fun other hname hmeets ↦ hR other ⟨fmri, hfmri, hname, hmeets⟩

/-- No installed package is older than itself. -/
theorem not_older_of_installed {fmri : PkgFmri} (hmem : fmri ∈ ctx.installed.fmris) :
    ¬ Older ctx fmri := by
  rintro ⟨installed, hinstalled, hname, hmeets⟩
  have heq : fmri = installed :=
    List.inj_on_of_nodup_map ctx.installed.nodup_pkgName hmem hinstalled hname
  rw [heq, versionMeets_none_iff.mpr (lt_irrefl _)] at hmeets
  cases hmeets

/-- The candidates of the name of a package that are not older. -/
def Context.newerCandidates (ctx : Context) (state : State) (fmri : PkgFmri) : List PkgFmri :=
  (ctx.candidates state fmri.pkgName).filter (versionMeets .none fmri)

/-- Collecting the newer candidates of some packages changes no candidates. -/
theorem newer_triple {start : State} (collect : PkgFmri → List PkgFmri → List PkgFmri)
    (fmris : List PkgFmri) :
    Program.Triple (fun state ↦ state = start)
      (Program.flatMapEach (fun fmri ↦ do
        let (matching, _) ← ctx.combNewerFmris fmri true
        return collect fmri matching) fmris)
      (fun found state ↦
        (found = fmris.flatMap (fun fmri ↦ collect fmri (ctx.newerCandidates start fmri)) ∧
          ∀ name, ctx.candidates state name = ctx.candidates start name) ∧
        Reads ctx R start state) fun _ _ ↦ True := by
  induction fmris generalizing start with
  | nil => exact Program.Triple.pure fun state h ↦ ⟨⟨rfl, by simp [h]⟩, h ▸ Reads.refl ctx _ state⟩
  | cons fmri rest ih =>
    unfold Program.flatMapEach
    refine Program.Triple.bind (M := fun found state ↦
      found = collect fmri (ctx.newerCandidates start fmri) ∧
        state = ctx.filterPublishers fmri.pkgName start) ?_ fun found ↦ ?_
    · refine Program.Triple.bind (M := fun both state ↦ both.1 = ctx.newerCandidates start fmri ∧
        state = ctx.filterPublishers fmri.pkgName start)
        (Program.Triple.of_exec_eq (exec_combCommon_obsoleteOk ctx fmri .none) ?_) ?_
      · rintro state rfl
        exact ⟨rfl, rfl⟩
      · rintro ⟨matching, others⟩
        refine Program.Triple.pure ?_
        rintro state ⟨hmatching, hstate⟩
        exact ⟨congrArg (collect fmri) hmatching, hstate⟩
    · refine Program.Triple.assume ?_
      rintro rfl
      refine Program.Triple.bind ih fun others ↦ Program.Triple.pure ?_
      rintro state ⟨⟨rfl, hcandidates⟩, hreads⟩
      have hsame := candidates_filterPublishers ctx start fmri.pkgName
      refine ⟨⟨?_, fun name ↦ (hcandidates name).trans (hsame name)⟩,
        (Reads.filterPublishers ctx R fmri.pkgName start).trans hreads⟩
      simp only [List.flatMap_cons, Context.newerCandidates, hsame]

end Trims

/-! ### Proposals, freezes and incorporations -/

/-- A freeze, or an incorporation that is held in place, excludes a package. -/
def Withheld (holds : List PkgFmri) (fmri : PkgFmri) : Prop :=
  ∃ hold ∈ holds, fmri.pkgName = hold.pkgName ∧ versionMeets .auto hold fmri = false

/-- What constrains the versions of an installation: the incorporations held in place, what they
incorporate, and the freezes. -/
def allHolds (incList : List (PkgFmri × List PkgFmri)) (existingFreezes : List PkgFmri) :
    List PkgFmri :=
  incList.flatMap (fun inc ↦ inc.1 :: inc.2) ++ existingFreezes

/-- The reasons for which the first phases of an installation trim a package. -/
def TrimReason (ctx : Context) (names : List String) (holds : List PkgFmri) (fmri : PkgFmri) :
    Prop :=
  Older ctx fmri ∨ fmri.pkgName ∈ names ∨ Withheld holds fmri

/-- The publishers chosen when the proposed packages have replaced those of the installed ones. -/
def proposedPublishers (proposed : List (String × List PkgFmri))
    (publisher : List (String × Option String)) : List (String × Option String) :=
  proposed.foldl (fun publisher entry ↦
    (entry.2.head?.map fun fmri ↦ (entry.1, fmri.getPublisher)).toList ++ publisher) publisher

theorem choosePublishers_triple (proposed : List (String × List PkgFmri))
    (publisher : List (String × Option String)) :
    Program.Triple (fun state ↦ state = State.start publisher) (choosePublishers proposed)
      (fun _ state ↦ state = State.start (proposedPublishers proposed publisher))
      fun _ _ ↦ True := by
  refine Program.Triple.forEach (I := fun done state ↦
    state = State.start (proposedPublishers done publisher)) fun before entry after _ ↦ ?_
  unfold proposedPublishers
  rw [List.foldl_append, List.foldl_cons, List.foldl_nil]
  cases hfmris : entry.2 with
  | nil =>
    dsimp only
    exact Program.Triple.throw fun _ _ ↦ trivial
  | cons fmri rest =>
    dsimp only
    exact Program.Triple.modify fun state h ↦ h ▸ rfl

section TrimInstall

variable (names : List String) (holds : List PkgFmri)

/-- The candidates of a proposed name are proposed. -/
def ExcludedGone (ctx : Context) (entry : String × List PkgFmri) (state : State) : Prop :=
  entry.1 ∈ state.pubTrim ∧ ∀ fmri ∈ ctx.candidates state entry.1, fmri ∈ entry.2

theorem trimExcluded_steps {entry : String × List PkgFmri} (hname : entry.1 ∈ names) :
    Program.Steps (Reads ctx (TrimReason ctx names holds)) (FlagsPure ctx)
      (ctx.trimExcluded entry) fun _ after ↦ ExcludedGone ctx entry after := by
  intro start _
  refine Program.Triple.bind (M := fun fmris state ↦ fmris = ctx.candidates start entry.1 ∧
    state = ctx.filterPublishers entry.1 start) (Program.Triple.of_exec_eq
    (exec_getCatalogFmris ctx entry.1) ?_) fun fmris ↦ Program.Triple.modify ?_
  · rintro state rfl
    exact ⟨rfl, rfl⟩
  · rintro state ⟨rfl, rfl⟩
    have hreads : Reads ctx (TrimReason ctx names holds) start
        ((ctx.filterPublishers entry.1 start).trim
          ((ctx.candidates start entry.1).filter (· ∉ entry.2))) := by
      refine (Reads.filterPublishers ctx _ entry.1 start).trim fun fmri hfmri ↦ ?_
      have hcandidate := List.mem_of_mem_filter hfmri
      have hfmriName := (mem_fmrisByVersion.mp (mem_candidates.mp hcandidate).1).2
      exact Or.inr (Or.inl (hfmriName ▸ hname))
    refine ⟨hreads, mem_pubTrim_filterPublishers.mpr (Or.inl rfl), fun fmri hfmri ↦ ?_⟩
    by_contra hnot
    refine (mem_candidates.mp hfmri).2.1 (List.mem_append_left _ (List.mem_filter.mpr ⟨?_, ?_⟩))
    · exact hreads.candidates hfmri
    · exact decide_eq_true hnot

theorem stable_excludedGone {R : PkgFmri → Prop} (entry : String × List PkgFmri) :
    Program.StableAlong (Reads ctx R) fun _ after ↦ ExcludedGone ctx entry after :=
  fun _ _ _ _ _ hF hlast ↦
    ⟨hlast.pubTrim hF.1, fun fmri hfmri ↦ hF.2 fmri (hlast.candidates hfmri)⟩

theorem trimAuto_steps {fmri : PkgFmri} (hmem : fmri ∈ holds) :
    Program.Steps (Reads ctx (TrimReason ctx names holds)) (FlagsPure ctx) (ctx.trimAuto fmri)
      fun _ after ↦ Narrowed ctx .auto fmri after :=
  combTrim_steps fmri .auto fun _ hname hmeets ↦ Or.inr (Or.inr ⟨fmri, hmem, hname, hmeets⟩)

theorem trimAutos_steps {fmris : List PkgFmri} (hsub : fmris ⊆ holds) :
    Program.Steps (Reads ctx (TrimReason ctx names holds)) (FlagsPure ctx)
      (Program.forEach ctx.trimAuto fmris)
      fun _ after ↦ ∀ fmri ∈ fmris, Narrowed ctx .auto fmri after :=
  Program.Steps.forEach (reads_stepping ctx _) (stable_narrowed .auto) fun _ hfmri ↦
    trimAuto_steps names holds (hsub hfmri)

theorem trimIncorporations_steps {incList : List (PkgFmri × List PkgFmri)}
    (hsub : ∀ inc ∈ incList, inc.1 :: inc.2 ⊆ holds) :
    Program.Steps (Reads ctx (TrimReason ctx names holds)) (FlagsPure ctx)
      (Program.forEach (fun inc ↦ do
        ctx.trimAuto inc.1
        Program.forEach ctx.trimAuto inc.2) incList)
      fun _ after ↦ ∀ inc ∈ incList, ∀ fmri ∈ inc.1 :: inc.2, Narrowed ctx .auto fmri after := by
  refine Program.Steps.forEach (reads_stepping ctx _) (F := fun inc : PkgFmri × List PkgFmri ↦
    fun _ after ↦ ∀ fmri ∈ inc.1 :: inc.2, Narrowed ctx .auto fmri after) ?_ fun inc hinc ↦ ?_
  · exact fun inc first before after last hfirst hF hlast fmri hfmri ↦
      stable_narrowed .auto fmri first before after last hfirst (hF fmri hfmri) hlast
  · obtain ⟨hfirst, hrest⟩ := List.cons_subset.mp (hsub inc hinc)
    refine (Program.Steps.seq (reads_stepping ctx _) (trimAuto_steps names holds hfirst)
      (trimAutos_steps names holds hrest) (stable_narrowed .auto inc.1) ?_).weaken
      fun _ _ h ↦ List.forall_mem_cons.mpr h
    exact fun first before after last hfirst hF hlast fmri hfmri ↦
      stable_narrowed .auto fmri first before after last hfirst (hF fmri hfmri) hlast

/-- After the variants of a proposed package have been looked at, it can be read or it is trimmed.
-/
theorem trimNonmatchingVariants_steps {fmri : PkgFmri} (hname : fmri.pkgName ∈ names) :
    Program.Steps (Reads ctx (TrimReason ctx names holds)) (FlagsPure ctx)
      (ctx.trimNonmatchingVariants fmri)
      fun _ after ↦ Readable ctx fmri ∨ fmri ∈ after.trimDict := by
  have hreason : TrimReason ctx names holds fmri := Or.inr (Or.inl hname)
  intro start _
  refine Program.Triple.bind (M := fun _ state ↦
    Reads ctx (TrimReason ctx names holds) start state ∧
      (Readable ctx fmri ∨ fmri ∈ state.trimDict)) ?_ fun vd ↦ ?_
  · unfold Context.getVariantDict
    have htrimmed : Reads ctx (TrimReason ctx names holds) start (start.trim [fmri]) :=
      (Reads.refl ctx _ start).trim (by simpa using hreason)
    split
    · rename_i variants hvariants
      refine Program.Triple.pure fun state h ↦ ⟨h ▸ Reads.refl ctx _ state, Or.inl ?_⟩
      unfold Context.getEntryAllVariants at hvariants
      cases hactions : ctx.getEntryActions fmri [] with
      | ok actions => exact ⟨actions, hactions⟩
      | error error =>
        rw [hactions] at hvariants
        cases hvariants
    · refine Program.Triple.bind (M := fun _ state ↦ state = start.trim [fmri])
        (Program.Triple.modify fun _ h ↦ h ▸ rfl) fun _ ↦ Program.Triple.pure fun state h ↦ ?_
      exact ⟨h ▸ htrimmed, Or.inr (h ▸ List.mem_append_left _ (List.mem_singleton.mpr rfl))⟩
    · exact Program.Triple.throw fun _ _ ↦ trivial
  · split_ifs
    · refine Program.Triple.modify ?_
      rintro state ⟨hreads, hread⟩
      exact ⟨hreads.trim (by simpa using hreason),
        hread.imp_right fun h ↦ List.mem_append_right _ h⟩
    · exact Program.Triple.pure fun _ h ↦ h

/-- What remains of proposed packages: those that are not trimmed, and some for every name. -/
def Remaining (state : State) (before after : List (String × List PkgFmri)) : Prop :=
  after.map Prod.fst = before.map Prod.fst ∧
    ∀ entry ∈ after, ∃ entry' ∈ before, entry.1 = entry'.1 ∧
      ∀ fmri ∈ entry.2, fmri ∈ entry'.2 ∧ fmri ∉ state.trimDict

theorem dotrimProposed_triple {start : State} (proposed : List (String × List PkgFmri)) :
    Program.Triple (fun state ↦ state = start) (dotrimProposed proposed)
      (fun remaining state ↦ Remaining start proposed remaining ∧ state = start)
      fun _ _ ↦ True := by
  induction proposed with
  | nil => exact Program.Triple.pure fun state h ↦ ⟨⟨rfl, by simp⟩, h⟩
  | cons entry rest ih =>
    unfold dotrimProposed
    refine Program.Triple.bind (M := fun found state ↦ found = start ∧ state = start)
      (Program.Triple.get fun _ h ↦ ⟨h, h⟩) fun found ↦ ?_
    refine Program.Triple.assume ?_
    rintro rfl
    dsimp only
    split_ifs
    · exact Program.Triple.throw fun _ _ ↦ trivial
    · refine Program.Triple.bind ih fun others ↦ Program.Triple.pure ?_
      rintro state ⟨⟨hnames, hothers⟩, hstate⟩
      refine ⟨⟨by rw [List.map_cons, List.map_cons, hnames], ?_⟩, hstate⟩
      refine List.forall_mem_cons.mpr ⟨⟨entry, List.mem_cons_self, rfl, fun fmri hfmri ↦ ?_⟩, ?_⟩
      · simpa using hfmri
      · intro other hother
        obtain ⟨entry', hentry', hrest⟩ := hothers other hother
        exact ⟨entry', List.mem_cons_of_mem _ hentry', hrest⟩

end TrimInstall

/-- What is known after the first phases of an installation. -/
structure TrimmedInstall (ctx : Context) (publisher : List (String × Option String))
    (proposed : List (String × List PkgFmri)) (holds : List PkgFmri)
    (remaining : List (String × List PkgFmri)) (state : State) : Prop where
  reads : Reads ctx (TrimReason ctx (proposed.map Prod.fst) holds) (State.start publisher) state
  olderGone : OlderGone ctx state
  excludedGone : ∀ entry ∈ proposed, ∀ fmri ∈ ctx.candidates state entry.1, fmri ∈ entry.2
  narrowed : ∀ hold ∈ holds, Narrowed ctx .auto hold state
  names_eq : remaining.map Prod.fst = proposed.map Prod.fst
  remaining : ∀ entry ∈ remaining, ∀ fmri ∈ entry.2,
    fmri.pkgName = entry.1 ∧ fmri ∈ ctx.candidates state fmri.pkgName

theorem trimInstall_triple (publisher : List (String × Option String))
    (existingFreezes : List PkgFmri) (proposed : Proposed)
    (incList : List (PkgFmri × List PkgFmri)) :
    Program.Triple (fun state ↦ state = State.start publisher)
      (ctx.trimInstall existingFreezes proposed incList)
      (fun remaining ↦ TrimmedInstall ctx publisher proposed.entries
        (allHolds incList existingFreezes) remaining) fun _ _ ↦ True := by
  have hfresh := fresh_start ctx publisher
  have hstepping := reads_stepping ctx
    (TrimReason ctx (proposed.entries.map Prod.fst) (allHolds incList existingFreezes))
  have hentry : ∀ entry ∈ proposed.entries, entry.1 ∈ proposed.entries.map Prod.fst :=
    fun entry hentry ↦ List.mem_map_of_mem hentry
  refine Program.Triple.bind (trimOlder_steps
    (R := TrimReason ctx (proposed.entries.map Prod.fst) (allHolds incList existingFreezes))
    (fun _ ↦ Or.inl) (State.start publisher) hfresh.flags) fun _ ↦ ?_
  refine Program.Triple.of_start fun first hfirst ↦ ?_
  refine Program.Triple.bind (Program.Steps.forEach hstepping stable_excludedGone
    (fun entry hmem ↦ trimExcluded_steps _ _ (hentry entry hmem)) first
    (hfirst.1.flags hfresh.flags)) fun _ ↦ ?_
  refine Program.Triple.of_start fun second hsecond ↦ ?_
  have hsofar := hfirst.1.trans hsecond.1
  refine Program.Triple.bind (trimIncorporations_steps (proposed.entries.map Prod.fst)
    (allHolds incList existingFreezes) (fun inc hinc hold hhold ↦
    List.mem_append_left _ (List.mem_flatMap.mpr ⟨inc, hinc, hhold⟩)) second
    (hsofar.flags hfresh.flags)) fun _ ↦ ?_
  refine Program.Triple.of_start fun third hthird ↦ ?_
  have hsofar' := hsofar.trans hthird.1
  refine Program.Triple.bind (trimAutos_steps (proposed.entries.map Prod.fst)
    (allHolds incList existingFreezes) (List.subset_append_right _ _) third
    (hsofar'.flags hfresh.flags)) fun _ ↦ ?_
  refine Program.Triple.of_start fun fourth hfourth ↦ ?_
  have hsofar'' := hsofar'.trans hfourth.1
  refine Program.Triple.bind (Program.Steps.forEach hstepping
    (F := fun entry _ after ↦ ∀ fmri ∈ entry.2, Readable ctx fmri ∨ fmri ∈ after.trimDict)
    (fun _ _ _ _ _ _ hF hlast fmri hfmri ↦ (hF fmri hfmri).imp_right fun h ↦ hlast.trimDict h)
    (fun entry hmem ↦ Program.Steps.forEach hstepping
      (fun _ _ _ _ _ _ hF hlast ↦ hF.imp_right fun h ↦ hlast.trimDict h)
      fun fmri hfmri ↦ trimNonmatchingVariants_steps _ _
        (proposed.pkgName entry hmem fmri hfmri ▸ hentry entry hmem)) fourth
    (hsofar''.flags hfresh.flags)) fun _ ↦ ?_
  refine Program.Triple.of_start fun last hlast ↦ ?_
  have hthirdToLast := hfourth.1.trans hlast.1
  have hsecondToLast := hthird.1.trans hthirdToLast
  have hfirstToLast := hsecond.1.trans hsecondToLast
  have hall := hfirst.1.trans hfirstToLast
  refine Program.Triple.weaken (dotrimProposed_triple proposed.entries) (fun _ h ↦ h) ?_
    (fun _ _ h ↦ h)
  rintro remaining state ⟨⟨hnames, hremaining⟩, rfl⟩
  refine ⟨hall, fun installed hinstalled fmri hfmri ↦ ?_, fun entry hmem fmri hfmri ↦ ?_,
    fun hold hhold fmri hfmri ↦ ?_, hnames, fun entry hmem fmri hfmri ↦ ?_⟩
  · exact hfirst.2 installed hinstalled fmri (hfirstToLast.candidates hfmri)
  · exact (hsecond.2 entry hmem).2 fmri (hsecondToLast.candidates hfmri)
  · rcases List.mem_append.mp hhold with hinc | hfreeze
    · obtain ⟨inc, hinc, hhold'⟩ := List.mem_flatMap.mp hinc
      exact hthird.2 inc hinc hold hhold' fmri (hthirdToLast.candidates hfmri)
    · exact hfourth.2 hold hfreeze fmri (hlast.1.candidates hfmri)
  · obtain ⟨entry', hentry', hname, hsub⟩ := hremaining entry hmem
    obtain ⟨hproposed, huntrimmed⟩ := hsub fmri hfmri
    have hfmriName := proposed.pkgName entry' hentry' fmri hproposed
    have hread := (hlast.2 entry' hentry' fmri hproposed).resolve_right huntrimmed
    refine ⟨hfmriName.trans hname.symm, mem_candidates.mpr ⟨mem_fmrisByVersion.mpr
      ⟨hread.mem_catalog, rfl⟩, huntrimmed, Or.inl ?_, Or.inl ?_⟩⟩
    · rw [hfmriName]
      exact hsecondToLast.pubTrim (hsecond.2 entry' hentry').1
    · exact hall.possSet

/-- A package that is trimmed in these phases has a reason, or its publisher is not acceptable. -/
theorem Reads.reason_of_start {R : PkgFmri → Prop} {publisher : List (String × Option String)}
    {state : State} (h : Reads ctx R (State.start publisher) state) {fmri : PkgFmri}
    (htrim : fmri ∈ state.trimDict) :
    R fmri ∨ ctx.acceptable (State.start publisher) fmri = false := by
  rcases h.trimmed fmri htrim with hnone | hreason | ⟨-, hpub⟩
  · exact absurd hnone List.not_mem_nil
  · exact Or.inl hreason
  · exact Or.inr hpub

end Userland.Pkg.Solver
