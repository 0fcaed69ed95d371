import Userland.Pkg.Solver.Install

/-!
# Trimming only narrows the choice

`pkg/client/pkg_solver.py`. Reading the catalog through the trim dictionary changes the state of the
solver: publishers are filtered, states are loaded, unreadable packages are trimmed. `Extends` says
once what such a step can do: the trimmed packages and the filtered names grow, a package is only
trimmed for a reason `R`, because it cannot be read, or when the publishers of its name are filtered
for the first time, and the candidates of a name become fewer.

Each operation that reads the catalog has one lemma, which describes its result and extends the
state (`combCommon_triple`, `parseDependency_triple`, `generateDependencyClosure_triple`).
-/

set_option autoImplicit false
set_option relaxedAutoImplicit false

namespace Userland.Pkg.Solver

open Userland.Library

/-! ### States of packages -/

/-- The state that `__fmri_loadstate` stores for a package when it is called without excludes. -/
def Context.flags (ctx : Context) (fmri : PkgFmri) : Except SolverError (StateFlag × StateFlag) :=
  match ctx.getEntryActions fmri [] with
  | .ok actions => stateFlags actions
  | .error (.invalidPackageErrors _) => .ok (.text "false", .text "false")
  | .error error => .error error

/-- Whether a package is obsolete; one without a state counts as obsolete. -/
def Context.isObsolete (ctx : Context) (fmri : PkgFmri) : Bool :=
  match ctx.flags fmri with
  | .ok flags => flags.1.truthy
  | .error _ => true

/-- The actions of a package can be read. -/
def Readable (ctx : Context) (fmri : PkgFmri) : Prop :=
  ∃ actions, ctx.getEntryActions fmri [] = .ok actions

/-- The actions of a package cannot be read. -/
def Unreadable (ctx : Context) (fmri : PkgFmri) : Prop :=
  ¬ Readable ctx fmri

/-- The errors that `generateDependencies` handles. -/
def SolverError.caught : SolverError → Bool
  | .invalidPackageErrors _ => true
  | .requiredDependency _ _ => true
  | _ => false

/-- The states stored are those the actions have. -/
def FlagsPure (ctx : Context) (state : State) : Prop :=
  ∀ fmri flags, state.fmriState.lookup fmri = some flags → ctx.flags fmri = .ok flags

section Readable

variable {ctx : Context}
variable {fmri : PkgFmri} {excludes : Excludes}

/-- Whether actions can be read does not depend on the excludes. -/
theorem readable_of_getEntryActions {actions : List Action}
    (h : ctx.getEntryActions fmri excludes = .ok actions) : Readable ctx fmri := by
  unfold Readable
  unfold Context.getEntryActions at h ⊢
  split_ifs at h ⊢ with hpublisher
  rcases hlookup : ctx.catalog.lookup fmri with _ | _ | found
  · simp only [hlookup] at h
    cases h
  · simp only [hlookup] at h
    cases h
  · exact ⟨_, rfl⟩

variable {error : SolverError}

theorem unreadable_of_getEntryActions
    (h : ctx.getEntryActions fmri excludes = .error error) : Unreadable ctx fmri := by
  rintro ⟨actions, hactions⟩
  unfold Context.getEntryActions at h hactions
  split_ifs at h hactions with hpublisher
  rcases hlookup : ctx.catalog.lookup fmri with _ | _ | found
  · simp only [hlookup] at hactions
    cases hactions
  · simp only [hlookup] at hactions
    cases hactions
  · simp only [hlookup] at h
    cases h

/-- Reading the actions of a package fails with an error that is not handled, or because the actions
cannot be parsed. -/
theorem getEntryActions_error (h : ctx.getEntryActions fmri excludes = .error error) :
    error = .invalidPackageErrors fmri ∨ error.caught = false := by
  unfold Context.getEntryActions at h
  split_ifs at h with hpublisher
  · exact Or.inr (Except.error.inj h ▸ rfl)
  · rcases hlookup : ctx.catalog.lookup fmri with _ | _ | found <;> simp only [hlookup] at h
    · exact Or.inr (Except.error.inj h ▸ rfl)
    · exact Or.inl (Except.error.inj h).symm
    · cases h

theorem stateFlags_error {actions : List Action}
    (h : stateFlags actions = .error error) : error.caught = false := by
  have htrue : ∀ name error, isTrue actions name = .error error → error.caught = false := by
    intro name error herror
    unfold isTrue at herror
    dsimp only at herror
    split at herror
    · cases herror
    · cases herror
    · exact Except.error.inj herror ▸ rfl
  unfold stateFlags at h
  cases hobsolete : isTrue actions "pkg.obsolete" with
  | error first =>
    rw [hobsolete] at h
    exact Except.error.inj h ▸ htrue _ _ hobsolete
  | ok obsolete =>
    rw [hobsolete] at h
    cases hrenamed : isTrue actions "pkg.renamed" with
    | error second =>
      rw [hrenamed] at h
      exact Except.error.inj h ▸ htrue _ _ hrenamed
    | ok renamed =>
      rw [hrenamed] at h
      cases h

theorem readable_of_getDependencyActions
    {das : List Dependency} (h : ctx.getDependencyActions fmri excludes = .ok das) :
    Readable ctx fmri := by
  unfold Context.getDependencyActions at h
  cases hactions : ctx.getEntryActions fmri excludes with
  | ok actions => exact readable_of_getEntryActions hactions
  | error error =>
    rw [hactions] at h
    cases h

theorem unreadable_of_getDependencyActions
    (h : ctx.getDependencyActions fmri excludes = .error error) :
    Unreadable ctx fmri := by
  unfold Context.getDependencyActions at h
  cases hactions : ctx.getEntryActions fmri excludes with
  | ok actions =>
    rw [hactions] at h
    cases h
  | error error => exact unreadable_of_getEntryActions hactions

/-- A readable package is in the catalog. -/
theorem Readable.mem_catalog (h : Readable ctx fmri) : fmri ∈ ctx.catalog.map Prod.fst := by
  obtain ⟨actions, hactions⟩ := h
  unfold Context.getEntryActions at hactions
  split_ifs at hactions with hpublisher
  by_contra hmem
  have hnone : ctx.catalog.lookup fmri = none := by
    rw [List.lookup_eq_none_iff]
    intro entry hentry
    exact bne_iff_ne.mpr fun heq ↦ hmem (List.mem_map.mpr ⟨entry, hentry, heq.symm⟩)
  simp only [hnone] at hactions
  cases hactions

/-- An installed package is acceptable whatever publishers are chosen. -/
theorem acceptable_installed (hmem : fmri ∈ ctx.installed.fmris) (state : State) :
    ctx.acceptable state fmri = true := by
  have hfind : ctx.installedFmri fmri.pkgName = some fmri := by
    have hfound : fmriByName ctx.installed.fmris fmri.pkgName = .ok fmri :=
      (fmriByName_eq_ok ctx.installed.nodup_pkgName).mpr ⟨hmem, rfl⟩
    unfold fmriByName at hfound
    unfold Context.installedFmri
    cases hinstalled : ctx.installed.fmris.find? (·.pkgName = fmri.pkgName) with
    | none =>
      rw [hinstalled] at hfound
      cases hfound
    | some found =>
      rw [hinstalled] at hfound
      rw [Except.ok.inj hfound]
  unfold Context.acceptable
  simp [hfind]

end Readable

/-! ### Extending a state -/

/-- What reading the catalog can do to a state. `R` holds of packages trimmed for another reason
than their publisher. -/
structure Extends (ctx : Context) (R : PkgFmri → Prop) (before after : State) : Prop where
  publisher : after.publisher = before.publisher
  possSet : after.possSet = before.possSet
  possibleDict : after.possibleDict = before.possibleDict
  ids : after.ids = before.ids
  iterations : after.iterations = before.iterations
  pubTrim : before.pubTrim ⊆ after.pubTrim
  trimDict : before.trimDict ⊆ after.trimDict
  trimmed : ∀ fmri ∈ after.trimDict, fmri ∈ before.trimDict ∨ R fmri ∨
    fmri.pkgName ∉ before.pubTrim ∧ ctx.acceptable before fmri = false
  filtered : ∀ name ∈ after.pubTrim, name ∈ before.pubTrim ∨
    ∀ fmri ∈ ctx.fmrisByVersion name, ctx.acceptable before fmri = false → fmri ∈ after.trimDict
  flags : FlagsPure ctx before → FlagsPure ctx after
  loaded : ∀ fmri, (before.fmriState.lookup fmri).isSome → (after.fmriState.lookup fmri).isSome

namespace Extends

variable {ctx : Context} {R : PkgFmri → Prop} {first middle last : State}

theorem refl (ctx : Context) (R : PkgFmri → Prop) (state : State) : Extends ctx R state state :=
  ⟨rfl, rfl, rfl, rfl, rfl, fun _ h ↦ h, fun _ h ↦ h, fun _ h ↦ Or.inl h, fun _ h ↦ Or.inl h,
    fun h ↦ h, fun _ h ↦ h⟩

theorem trans (hfirst : Extends ctx R first middle) (hlast : Extends ctx R middle last) :
    Extends ctx R first last := by
  refine ⟨hlast.publisher.trans hfirst.publisher, hlast.possSet.trans hfirst.possSet,
    hlast.possibleDict.trans hfirst.possibleDict, hlast.ids.trans hfirst.ids,
    hlast.iterations.trans hfirst.iterations, fun _ h ↦ hlast.pubTrim (hfirst.pubTrim h),
      fun _ h ↦ hlast.trimDict (hfirst.trimDict h),
    fun fmri hfmri ↦ ?_, fun name hname ↦ ?_, fun h ↦ hlast.flags (hfirst.flags h),
    fun fmri h ↦ hlast.loaded fmri (hfirst.loaded fmri h)⟩
  · rcases hlast.trimmed fmri hfmri with hmiddle | hreason | ⟨hname, hpub⟩
    · exact hfirst.trimmed fmri hmiddle
    · exact Or.inr (Or.inl hreason)
    · rw [acceptable_congr hfirst.publisher] at hpub
      exact Or.inr (Or.inr ⟨fun h ↦ hname (hfirst.pubTrim h), hpub⟩)
  · rcases hlast.filtered name hname with hmiddle | hall
    · refine (hfirst.filtered name hmiddle).imp_right fun hall fmri hfmri hpub ↦ ?_
      exact hlast.trimDict (hall fmri hfmri hpub)
    · simp only [acceptable_congr hfirst.publisher] at hall
      exact Or.inr hall

theorem weaken {R' : PkgFmri → Prop} (h : Extends ctx R first last)
    (hR : ∀ fmri, R fmri → R' fmri) :
    Extends ctx R' first last :=
  ⟨h.publisher, h.possSet, h.possibleDict, h.ids, h.iterations, h.pubTrim, h.trimDict,
    fun fmri hfmri ↦ (h.trimmed fmri hfmri).imp_right (Or.imp_left (hR fmri)), h.filtered, h.flags,
    h.loaded⟩

/-- The candidates become fewer. -/
theorem candidates (h : Extends ctx R first last) {name : String} {fmri : PkgFmri}
    (hfmri : fmri ∈ ctx.candidates last name) : fmri ∈ ctx.candidates first name := by
  rw [mem_candidates] at hfmri ⊢
  obtain ⟨hmem, htrim, hpub, hposs⟩ := hfmri
  refine ⟨hmem, fun h' ↦ htrim (h.trimDict h'), ?_, h.possSet ▸ hposs⟩
  rcases hpub with hname | hacceptable
  · refine (h.filtered name hname).imp_right fun hall ↦ ?_
    by_contra hpub
    exact htrim (hall fmri hmem (Bool.eq_false_iff.mpr hpub))
  · exact Or.inr (acceptable_congr h.publisher fmri ▸ hacceptable)

theorem filterPublishers (ctx : Context) (R : PkgFmri → Prop) (name : String) (state : State) :
    Extends ctx R state (ctx.filterPublishers name state) := by
  refine ⟨by simp, by simp, ?_, by simp, ?_, fun _ h ↦ mem_pubTrim_filterPublishers.mpr (Or.inr h),
    fun _ h ↦ mem_trimDict_filterPublishers.mpr (Or.inl h), fun fmri hfmri ↦ ?_,
    fun other hother ↦ ?_, fun h ↦ ?_, fun _ h ↦ ?_⟩
  · unfold Context.filterPublishers
    split_ifs <;> rfl
  · unfold Context.filterPublishers
    split_ifs <;> rfl
  · rcases mem_trimDict_filterPublishers.mp hfmri with h | ⟨hname, hmem, hpub⟩
    · exact Or.inl h
    · rw [(mem_fmrisByVersion.mp hmem).2]
      exact Or.inr (Or.inr ⟨hname, hpub⟩)
  · by_cases hmem : other ∈ state.pubTrim
    · exact Or.inl hmem
    · obtain rfl := (mem_pubTrim_filterPublishers.mp hother).resolve_right hmem
      exact Or.inr fun fmri hfmri hpub ↦
        mem_trimDict_filterPublishers.mpr (Or.inr ⟨hmem, hfmri, hpub⟩)
  · unfold Context.filterPublishers
    split_ifs <;> exact h
  · unfold Context.filterPublishers
    split_ifs <;> exact h

/-- Trimming for the reason `R` extends a state. -/
theorem trim {fmris : List PkgFmri} (h : Extends ctx R first last) (hR : ∀ fmri ∈ fmris, R fmri) :
    Extends ctx R first (last.trim fmris) := by
  refine ⟨h.publisher, h.possSet, h.possibleDict, h.ids, h.iterations, h.pubTrim,
    fun _ hmem ↦ List.mem_append_right _ (h.trimDict hmem), fun fmri hfmri ↦ ?_,
    fun name hname ↦ (h.filtered name hname).imp_right fun hall fmri hfmri hpub ↦
      List.mem_append_right _ (hall fmri hfmri hpub), h.flags, h.loaded⟩
  rcases List.mem_append.mp hfmri with hnew | hold
  · exact Or.inr (Or.inl (hR fmri hnew))
  · exact h.trimmed fmri hold

/-- Storing the state of a package extends a state. -/
theorem store {fmri : PkgFmri} {flags : StateFlag × StateFlag} (h : Extends ctx R first last)
    (hflags : ctx.flags fmri = .ok flags) :
    Extends ctx R first { last with fmriState := (fmri, flags) :: last.fmriState } := by
  refine ⟨h.publisher, h.possSet, h.possibleDict, h.ids, h.iterations, h.pubTrim, h.trimDict,
    h.trimmed, h.filtered,
    fun hpure other stored hstored ↦ ?_, fun other hloaded ↦ ?_⟩
  · simp only [List.lookup_cons] at hstored
    split at hstored
    · rename_i heq
      rw [beq_iff_eq] at heq
      rw [heq, hflags, Option.some_inj.mp hstored]
    · exact h.flags hpure other stored hstored
  · simp only [List.lookup_cons]
    split
    · rfl
    · exact h.loaded other hloaded

end Extends

/-- A step that reads the catalog and leaves the clauses alone. -/
structure Reads (ctx : Context) (R : PkgFmri → Prop) (before after : State) : Prop
    extends Extends ctx R before after where
  clauses : after.clauses = before.clauses

namespace Reads

variable {ctx : Context} {R : PkgFmri → Prop} {first middle last : State}

theorem refl (ctx : Context) (R : PkgFmri → Prop) (state : State) : Reads ctx R state state :=
  ⟨Extends.refl ctx R state, rfl⟩

theorem trans (hfirst : Reads ctx R first middle) (hlast : Reads ctx R middle last) :
    Reads ctx R first last :=
  ⟨hfirst.toExtends.trans hlast.toExtends, hlast.clauses.trans hfirst.clauses⟩

theorem weaken {R' : PkgFmri → Prop} (h : Reads ctx R first last) (hR : ∀ fmri, R fmri → R' fmri) :
    Reads ctx R' first last :=
  ⟨h.toExtends.weaken hR, h.clauses⟩

theorem filterPublishers (ctx : Context) (R : PkgFmri → Prop) (name : String) (state : State) :
    Reads ctx R state (ctx.filterPublishers name state) := by
  refine ⟨Extends.filterPublishers ctx R name state, ?_⟩
  unfold Context.filterPublishers
  split_ifs <;> rfl

theorem trim {fmris : List PkgFmri} (h : Reads ctx R first last) (hR : ∀ fmri ∈ fmris, R fmri) :
    Reads ctx R first (last.trim fmris) :=
  ⟨h.toExtends.trim hR, h.clauses⟩

theorem store {fmri : PkgFmri} {flags : StateFlag × StateFlag} (h : Reads ctx R first last)
    (hflags : ctx.flags fmri = .ok flags) :
    Reads ctx R first { last with fmriState := (fmri, flags) :: last.fmriState } :=
  ⟨h.toExtends.store hflags, h.clauses⟩

end Reads

/-! ### Matching versions -/

section Matching

variable {ctx : Context} {start : State}

/-- Loading the state of a package stores the one its actions have. -/
theorem fmriLoadstate_triple (fmri : PkgFmri) :
    Program.Triple (Reads ctx (Unreadable ctx) start) (ctx.fmriLoadstate fmri [])
      (fun flags state ↦ (ctx.flags fmri = .ok flags ∧
        state.fmriState.lookup fmri = some flags) ∧ Reads ctx (Unreadable ctx) start state)
      fun error state ↦ error.caught = false ∧ Reads ctx (Unreadable ctx) start state := by
  unfold Context.fmriLoadstate
  split
  · rename_i actions hactions
    have hflags : ctx.flags fmri = stateFlags actions := by
      rw [Context.flags, hactions]
    refine Program.Triple.bind (M := fun flags state ↦ ctx.flags fmri = .ok flags ∧
      Reads ctx (Unreadable ctx) start state)
        (Program.Triple.lift (fun _ _ hok hstate ↦ ⟨hflags.trans hok, hstate⟩)
      fun _ _ herror hstate ↦ ⟨stateFlags_error herror, hstate⟩) fun flags ↦ ?_
    refine Program.Triple.assume fun hok ↦ ?_
    refine Program.Triple.bind (M := fun _ state ↦ (ctx.flags fmri = .ok flags ∧
      state.fmriState.lookup fmri = some flags) ∧ Reads ctx (Unreadable ctx) start state)
      (Program.Triple.modify fun state hstate ↦ ?_) fun _ ↦ Program.Triple.pure fun _ h ↦ h
    exact ⟨⟨hok, by simp⟩, hstate.store hok⟩
  · rename_i error herror
    have hok : ctx.flags fmri = .ok (.text "false", .text "false") := by
      rw [Context.flags, herror]
    have htrim := unreadable_of_getEntryActions herror
    refine Program.Triple.bind (M := fun _ state ↦ (ctx.flags fmri =
      .ok (.text "false", .text "false") ∧ state.fmriState.lookup fmri =
      some (.text "false", .text "false")) ∧ Reads ctx (Unreadable ctx) start state)
      (Program.Triple.modify fun state hstate ↦ ?_) fun _ ↦ Program.Triple.pure fun _ h ↦ h
    exact ⟨⟨hok, by simp⟩, (hstate.trim (by simpa using htrim)).store hok⟩
  · rename_i error hinvalid herror
    refine Program.Triple.throw fun _ hstate ↦
      ⟨(getEntryActions_error herror).resolve_left fun heq ↦ ?_, hstate⟩
    exact hinvalid _ heq

/-- Asking whether a package is obsolete reads the catalog, and the answer is that of its actions.
-/
theorem fmriIsObsolete_triple (hpure : FlagsPure ctx start) (fmri : PkgFmri) :
    Program.Triple (Reads ctx (Unreadable ctx) start) (ctx.fmriIsObsolete fmri [])
      (fun result state ↦ (result = ctx.isObsolete fmri ∧
        (state.fmriState.lookup fmri).isSome) ∧ Reads ctx (Unreadable ctx) start state)
      fun error state ↦ error.caught = false ∧ Reads ctx (Unreadable ctx) start state := by
  refine Program.Triple.bind (M := fun flags state ↦ (ctx.flags fmri = .ok flags ∧
    state.fmriState.lookup fmri = some flags) ∧
      Reads ctx (Unreadable ctx) start state) ?_ fun flags ↦ ?_
  · refine Program.Triple.bind (M := fun found state ↦ found = state ∧
      Reads ctx (Unreadable ctx) start state)
      (Program.Triple.get fun _ hstate ↦ ⟨rfl, hstate⟩) fun found ↦ ?_
    cases hlookup : found.fmriState.lookup fmri with
    | some stored =>
      refine Program.Triple.pure ?_
      rintro state ⟨rfl, hstate⟩
      exact ⟨⟨hstate.flags hpure fmri stored hlookup, hlookup⟩, hstate⟩
    | none =>
      exact Program.Triple.weaken (fmriLoadstate_triple fmri) (fun _ h ↦ h.2) (fun _ _ h ↦ h)
        (fun _ _ h ↦ h)
  · refine Program.Triple.pure ?_
    rintro state ⟨⟨hflags, hstored⟩, hstate⟩
    exact ⟨⟨by rw [Context.isObsolete, hflags], by rw [hstored]; rfl⟩, hstate⟩

/-- The condition under which `combCommon` takes a candidate. -/
def Context.combMatches (ctx : Context) (fmri : PkgFmri) (constraint : Version.Constraint)
    (obsoleteOk : Bool) (other : PkgFmri) : Bool :=
  versionMeets constraint fmri other && (obsoleteOk || !ctx.isObsolete other)

theorem combTest_triple (hpure : FlagsPure ctx start) (fmri : PkgFmri)
    (constraint : Version.Constraint) (obsoleteOk : Bool) (other : PkgFmri) :
    Program.Triple (Reads ctx (Unreadable ctx) start)
    (ctx.combTest fmri constraint obsoleteOk other)
      (fun result state ↦ result = ctx.combMatches fmri constraint obsoleteOk other ∧
        Reads ctx (Unreadable ctx) start state) fun error state ↦ error.caught = false ∧
        Reads ctx (Unreadable ctx) start state := by
  unfold Context.combTest Context.combMatches
  cases hmeets : versionMeets constraint fmri other with
  | false => exact Program.Triple.pure fun _ hstate ↦ ⟨rfl, hstate⟩
  | true =>
    cases obsoleteOk with
    | true => exact Program.Triple.pure fun _ hstate ↦ ⟨rfl, hstate⟩
    | false =>
      rw [if_pos rfl, if_neg Bool.false_ne_true, map_eq_pure_bind]
      refine Program.Triple.bind (fmriIsObsolete_triple hpure other) fun result ↦ ?_
      refine Program.Triple.pure ?_
      rintro state ⟨⟨rfl, -⟩, hstate⟩
      exact ⟨rfl, hstate⟩

/-- `combCommon` divides the candidates of the name. -/
theorem combCommon_triple (hpure : FlagsPure ctx start) (fmri : PkgFmri)
    (constraint : Version.Constraint) (obsoleteOk : Bool) :
    Program.Triple (fun state ↦ state = start) (ctx.combCommon fmri constraint obsoleteOk)
      (fun result state ↦
        (result.1 = (ctx.candidates start fmri.pkgName).filter
            (ctx.combMatches fmri constraint obsoleteOk) ∧
          result.2 = (ctx.candidates start fmri.pkgName).filter
            fun other ↦ !ctx.combMatches fmri constraint obsoleteOk other) ∧
        Reads ctx (Unreadable ctx) start state) fun error state ↦ error.caught = false ∧
        Reads ctx (Unreadable ctx) start state := by
  refine Program.Triple.bind (M := fun allFmris state ↦
    allFmris = ctx.candidates start fmri.pkgName ∧
      Reads ctx (Unreadable ctx) start state) ?_ fun allFmris ↦ ?_
  · refine Program.Triple.of_exec_eq (exec_getCatalogFmris ctx fmri.pkgName) ?_
    rintro state rfl
    exact ⟨rfl, Reads.filterPublishers ctx _ _ state⟩
  · refine Program.Triple.assume fun hall ↦ ?_
    subst hall
    refine Program.Triple.bind (Program.Triple.filterEach fun other _ ↦
      combTest_triple hpure fmri constraint obsoleteOk other) fun matching ↦ ?_
    refine Program.Triple.pure ?_
    rintro state ⟨rfl, hstate⟩
    refine ⟨⟨rfl, List.filter_congr fun other hother ↦ ?_⟩, hstate⟩
    simp [List.mem_filter, hother]

/-- Whether a dependency on `named` accepts a package of this name. -/
def Context.accepts (ctx : Context) (type : DependencyType) (named other : PkgFmri) : Bool :=
  match type with
  | .require => versionMeets .none named other && !ctx.isObsolete other
  | .optional => versionMeets .none named other
  | .exclude => !versionMeets .none named other
  | .incorporate => versionMeets .auto named other

theorem combDependency_triple (hpure : FlagsPure ctx start) (type : DependencyType)
    (named : PkgFmri) :
    Program.Triple (fun state ↦ state = start) (ctx.combDependency type named)
      (fun result state ↦
        (result.1 = (ctx.candidates start named.pkgName).filter (ctx.accepts type named) ∧
          result.2 = (ctx.candidates start named.pkgName).filter
            fun other ↦ !ctx.accepts type named other) ∧
        Reads ctx (Unreadable ctx) start state)
      fun error state ↦ error.caught = false ∧ Reads ctx (Unreadable ctx) start state := by
  have hok : ∀ constraint, ctx.combMatches named constraint true = versionMeets constraint named :=
    fun _ ↦ funext fun _ ↦ by simp [Context.combMatches]
  cases type with
  | require => exact combCommon_triple hpure named .none false
  | optional =>
    have h := combCommon_triple hpure named .none true
    rwa [hok] at h
  | incorporate =>
    have h := combCommon_triple hpure named .auto true
    rwa [hok] at h
  | exclude =>
    have h := combCommon_triple hpure named .none true
    rw [hok] at h
    refine Program.Triple.bind h fun both ↦ Program.Triple.pure ?_
    rintro state ⟨⟨hnewer, holder⟩, hstate⟩
    refine ⟨⟨holder, hnewer.trans ?_⟩, hstate⟩
    simp [Context.accepts]

/-- `parseDependency` divides the candidates of the name. With `checkReq` it fails if no candidate
meets a require dependency. -/
theorem parseDependency_triple (hpure : FlagsPure ctx start) (da : Dependency) (checkReq : Bool) :
    Program.Triple (fun state ↦ state = start) (ctx.parseDependency da checkReq)
      (fun result state ↦ (∃ named, da.pkgFmri = .ok named ∧
        result.2 = (ctx.candidates start named.pkgName).filter (ctx.accepts da.type named) ∧
        result.1 = (ctx.candidates start named.pkgName).filter
          fun other ↦ !ctx.accepts da.type named other) ∧ Reads ctx (Unreadable ctx) start state)
      fun error state ↦ (error.caught = true → (∃ named obsolete,
        error = .requiredDependency named obsolete) ∧ da.type = .require ∧
        ∃ named, da.pkgFmri = .ok named ∧
          ∀ other ∈ ctx.candidates start named.pkgName, ctx.accepts .require named other = false) ∧
        Reads ctx (Unreadable ctx) start state := by
  unfold Context.parseDependency
  cases hnamed : da.pkgFmri with
  | error error =>
    refine Program.Triple.throw ?_
    rintro state rfl
    refine ⟨fun hcaught ↦ ?_, Reads.refl ctx _ state⟩
    unfold Dependency.pkgFmri at hnamed
    split at hnamed
    · cases hnamed
    · rw [← Except.error.inj hnamed] at hcaught
      cases hcaught
  | ok named =>
    rw [show (Program.lift (.ok named) : SolverM PkgFmri) = pure named from rfl, pure_bind]
    refine Program.Triple.bind (Program.Triple.weaken (combDependency_triple hpure da.type named)
      (fun _ h ↦ h) (fun _ _ h ↦ h) fun error state h ↦
        ⟨fun hcaught ↦ absurd (h.1.symm.trans hcaught) (by decide), h.2⟩) ?_
    rintro ⟨matching, nonmatching⟩
    refine Program.Triple.assume ?_
    rintro ⟨rfl, rfl⟩
    dsimp only
    split_ifs with hcheck
    · simp only [Bool.and_eq_true, List.isEmpty_iff, List.filter_eq_nil_iff, decide_eq_true_eq]
        at hcheck
      obtain ⟨⟨-, hnone⟩, htype⟩ := hcheck
      intro middle hmiddle
      refine Program.Triple.bind (P := fun state ↦ state = middle)
        (M := fun _ state ↦ Reads ctx (Unreadable ctx) start state)
        (Program.Triple.weaken (combCommon_triple (hmiddle.flags hpure) named .none true)
          (fun _ h ↦ h) (fun _ state h ↦ hmiddle.trans h.2) fun error state h ↦
          ⟨fun hcaught ↦ absurd (h.1.symm.trans hcaught) (by decide), hmiddle.trans h.2⟩)
        (fun both ↦ Program.Triple.throw fun state hstate ↦ ⟨fun _ ↦ ⟨⟨_, _, rfl⟩, htype, named,
          rfl, fun other hother ↦ ?_⟩, hstate⟩) middle rfl
      rw [htype] at hnone
      exact Bool.eq_false_iff.mpr (hnone other hother)
    · exact Program.Triple.pure fun state hstate ↦ ⟨⟨named, rfl, rfl, rfl⟩, hstate⟩

end Matching

/-! ### The dependency closure -/

section Closure

variable {ctx : Context} {excludes : Excludes}

/-- A package has a require dependency that no candidate meets. -/
def Unmet (ctx : Context) (excludes : Excludes) (state : State) (fmri : PkgFmri) : Prop :=
  ∃ das, ctx.getDependencyActions fmri excludes = .ok das ∧ ∃ da ∈ das, da.type = .require ∧
    ∃ named, da.pkgFmri = .ok named ∧
      ∀ other ∈ ctx.candidates state named.pkgName, ctx.accepts .require named other = false

/-- The reasons for which the dependency closure trims a package. -/
def Hopeless (ctx : Context) (excludes : Excludes) (state : State) (fmri : PkgFmri) : Prop :=
  Unreadable ctx fmri ∨ Unmet ctx excludes state fmri

/-- What has no hope keeps having none when the candidates become fewer. -/
theorem Hopeless.mono {first last : State}
    (h : ∀ name, ∀ fmri ∈ ctx.candidates last name, fmri ∈ ctx.candidates first name)
    {fmri : PkgFmri} (hfmri : Hopeless ctx excludes first fmri) :
    Hopeless ctx excludes last fmri := by
  refine hfmri.imp_right ?_
  rintro ⟨das, hdas, da, hda, htype, named, hnamed, hnone⟩
  exact ⟨das, hdas, da, hda, htype, named, hnamed, fun other hother ↦ hnone other (h _ _ hother)⟩

/-- Steps of the closure compose. -/
theorem Reads.trans_hopeless {first middle last : State}
    (hfirst : Reads ctx (Hopeless ctx excludes middle) first middle)
    (hlast : Reads ctx (Hopeless ctx excludes last) middle last) :
    Reads ctx (Hopeless ctx excludes last) first last :=
  (hfirst.weaken fun _ h ↦ h.mono fun _ _ ↦ hlast.candidates).trans hlast

/-- A package is what a require dependency of another one asks for. -/
def MeetsRequire (ctx : Context) (excludes : Excludes) (fmri other : PkgFmri) : Prop :=
  ∃ das, ctx.getDependencyActions fmri excludes = .ok das ∧ ∃ da ∈ das, da.type = .require ∧
    ∃ named, da.pkgFmri = .ok named ∧ other.pkgName = named.pkgName ∧
      ctx.accepts .require named other = true

/-- The direct dependencies are candidates that the require dependencies ask for, and a package that
is trimmed has no hope. -/
theorem generateDependencies_triple {start : State} (hpure : FlagsPure ctx start) (fmri : PkgFmri) :
    Program.Triple (fun state ↦ state = start) (ctx.generateDependencies fmri excludes)
      (fun found state ↦ (∀ other ∈ found, other ∈ ctx.candidates start other.pkgName ∧
        MeetsRequire ctx excludes fmri other) ∧
        Reads ctx (Hopeless ctx excludes state) start state) fun _ _ ↦ True := by
  unfold Context.generateDependencies
  refine Program.Triple.handle (M := fun error state ↦
    (error.caught = true → Hopeless ctx excludes state fmri) ∧
      Reads ctx (Unreadable ctx) start state) ?_ fun error ↦ ?_
  · refine Program.Triple.weaken (P := Reads ctx (Unreadable ctx) start)
      (Q := fun found state ↦ (∀ other ∈ found, other ∈ ctx.candidates start other.pkgName ∧
        MeetsRequire ctx excludes fmri other) ∧
          Reads ctx (Unreadable ctx) start state) ?_ (fun state h ↦ h ▸ Reads.refl ctx _ state)
      (fun _ _ h ↦ ⟨h.1, h.2.weaken fun _ hread ↦ Or.inl hread⟩) (fun _ _ h ↦ h)
    cases hdas : ctx.getDependencyActions fmri excludes with
    | error error =>
      exact Program.Triple.throw fun _ hstate ↦
        ⟨fun _ ↦ Or.inl (unreadable_of_getDependencyActions hdas), hstate⟩
    | ok das =>
      refine Program.Triple.flatMapEach fun da hda ↦ ?_
      refine Program.Triple.of_start fun middle hmiddle ↦ ?_
      refine Program.Triple.bind (Program.Triple.weaken
        (parseDependency_triple (hmiddle.flags hpure) da true) (fun _ h ↦ h) (fun _ _ h ↦ h)
        fun error state h ↦ ⟨fun hcaught ↦ ?_, hmiddle.trans h.2⟩) ?_
      · obtain ⟨-, htype, hnone⟩ := h.1 hcaught
        have hunmet : Hopeless ctx excludes middle fmri :=
          Or.inr ⟨das, hdas, da, hda, htype, hnone⟩
        exact hunmet.mono fun _ _ ↦ h.2.candidates
      · rintro ⟨nonmatching, matching⟩
        refine Program.Triple.pure ?_
        rintro state ⟨⟨named, hnamed, hmatching, -⟩, hstate⟩
        refine ⟨fun other hother ↦ ?_, hmiddle.trans hstate⟩
        split_ifs at hother with htype
        · rw [show matching = _ from hmatching] at hother
          obtain ⟨hcandidate, haccepts⟩ := List.mem_filter.mp hother
          have hname := (mem_fmrisByVersion.mp (mem_candidates.mp hcandidate).1).2
          rw [htype] at haccepts
          rw [← hname] at hcandidate
          exact ⟨hmiddle.candidates hcandidate, das, hdas, da, hda, htype, named, hnamed, hname,
            haccepts⟩
        · exact absurd hother List.not_mem_nil
  · have htrim : error.caught = true → Program.Triple
        (fun state ↦ (error.caught = true → Hopeless ctx excludes state fmri) ∧
          Reads ctx (Unreadable ctx) start state)
        (do
          modify (State.trim [fmri])
          return [] : SolverM (List PkgFmri))
        (fun found state ↦ (∀ other ∈ found, other ∈ ctx.candidates start other.pkgName ∧
          MeetsRequire ctx excludes fmri other) ∧
          Reads ctx (Hopeless ctx excludes state) start state) fun _ _ ↦ True := by
      rintro hcaught state ⟨hhopeless, hstate⟩
      have hfmri := hhopeless hcaught
      have htrimmed : Reads ctx (Hopeless ctx excludes state) state (state.trim [fmri]) :=
        (Reads.refl ctx _ state).trim (by simpa using hfmri)
      exact ⟨by simp, (hstate.weaken fun _ h ↦ Or.inl h).trans
        (htrimmed.weaken fun _ h ↦ h.mono fun _ _ ↦ htrimmed.candidates)⟩
    split
    · exact htrim rfl
    · exact htrim rfl
    · exact Program.Triple.throw fun _ _ ↦ trivial

/-- The closure consists of the given packages and of candidates, and a package that is trimmed
while it is computed has no hope. -/
theorem generateDependencyClosure_triple {start : State} (hpure : FlagsPure ctx start)
    (fmriSet : List PkgFmri) :
    Program.Triple (fun state ↦ state = start) (ctx.generateDependencyClosure fmriSet excludes)
      (fun closure state ↦
        (∀ fmri ∈ closure, fmri ∈ fmriSet ∨ fmri ∈ ctx.candidates start fmri.pkgName) ∧
          Reads ctx (Hopeless ctx excludes state) start state) fun _ _ ↦ True := by
  refine Program.Triple.bind (Program.Triple.weaken (drain_triple
    (I := fun _ needed taken state ↦ (∀ fmri, fmri ∈ needed ∨ fmri ∈ taken →
        fmri ∈ fmriSet ∨ fmri ∈ ctx.candidates start fmri.pkgName) ∧
      Reads ctx (Hopeless ctx excludes state) start state) (E := fun _ _ ↦ True) ?_ _ _ _ _)
    ?_ (fun _ _ h ↦ h) (fun _ _ h ↦ h)) ?_
  · intro acc fmri rest needed taken hperm
    refine Program.Triple.of_start fun middle hmiddle ↦ ?_
    refine Program.Triple.bind (generateDependencies_triple (hmiddle.2.flags hpure) fmri)
      fun found ↦ Program.Triple.pure ?_
    rintro state ⟨hfound, hstate⟩
    refine ⟨?_, hmiddle.2.trans_hopeless hstate⟩
    rintro other (hneeded | htaken)
    · rcases mem_stillNeeded.mp hneeded with ⟨hother, -⟩ | hrest
      · exact Or.inr (hmiddle.2.candidates (hfound other hother).1)
      · exact hmiddle.1 other (Or.inl (hperm.symm.subset (List.mem_cons_of_mem _ hrest)))
    · rcases List.mem_cons.mp htaken with rfl | htaken
      · exact hmiddle.1 other (Or.inl (hperm.symm.subset List.mem_cons_self))
      · exact hmiddle.1 other (Or.inr htaken)
  · rintro state rfl
    exact ⟨fun fmri h ↦ Or.inl (h.resolve_right List.not_mem_nil), Reads.refl ctx _ state⟩
  · rintro (_ | ⟨acc, taken⟩)
    · exact Program.Triple.throw fun _ _ ↦ trivial
    · refine Program.Triple.pure fun state hstate ↦ ?_
      obtain ⟨hmem, hreads⟩ := hstate acc taken rfl
      exact ⟨fun fmri hfmri ↦ hmem fmri (Or.inr hfmri), hreads⟩

end Closure

end Userland.Pkg.Solver
