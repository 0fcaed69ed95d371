import Userland.Library.Simulation
import Userland.Pkg.Solver.Outcome

/-!
# Two catalogs side by side

`pkg/client/pkg_solver.py`. A run of the solver is compared with the run on the catalog without some
packages whose actions cannot be parsed (`Twin`). Such a package counts as obsolete and meets no
require dependency, so the dependency closure is the same (`closure_twin`), and once the possible
packages have their numbers, and no deleted package is among them, whatever is read is the same
(`parseDependency_twin`).
-/

set_option autoImplicit false
set_option relaxedAutoImplicit false

namespace Userland.Pkg.Solver

open Userland.Library

/-! ### Deleting packages -/

/-- The solver over the catalog without some packages. -/
def Context.without (ctx : Context) (unparsed : List PkgFmri) : Context :=
  { ctx with catalog := ctx.catalog.filter (·.1 ∉ unparsed) }

/-- The packages cannot be parsed and are not installed. -/
structure Deletable (ctx : Context) (unparsed : List PkgFmri) : Prop where
  invalid : ∀ fmri ∈ unparsed, ∀ excludes,
    ctx.getEntryActions fmri excludes = .error (.invalidPackageErrors fmri)
  installed : ∀ fmri ∈ ctx.installed.fmris, fmri ∉ unparsed

/-- Whether a package that remains comes from an acceptable publisher is the same without the
deleted packages, if its name is looked up. -/
def SamePublishers (ctx : Context) (unparsed : List PkgFmri)
    (publisher : List (String × Option String)) (looked : String → Prop) : Prop :=
  ∀ fmri ∈ ctx.catalog.map Prod.fst, fmri ∉ unparsed → looked fmri.pkgName →
    ctx.acceptable (State.start publisher) fmri =
      (ctx.without unparsed).acceptable (State.start publisher) fmri

/-! ### Names that are looked up -/

/-- What the first phases of an operation leave of the catalog: a package from an acceptable
publisher that is not older than an installed one, is proposed if its name is, and is excluded by no
hold. -/
structure Eligible (ctx : Context) (publisher : List (String × Option String))
    (entries : List (String × List PkgFmri)) (holds : List PkgFmri) (fmri : PkgFmri) : Prop where
  catalog : fmri ∈ ctx.catalog.map Prod.fst
  acceptable : ctx.acceptable (State.start publisher) fmri = true
  newer : ¬ Older ctx fmri
  proposed : ∀ entry ∈ entries, fmri.pkgName = entry.1 → fmri ∈ entry.2
  unheld : ¬ Withheld holds fmri

/-- The packages whose dependencies an operation reads: the installed ones, what is left of the
catalog under the installed and the proposed names, and what their require dependencies ask for. -/
inductive Reached (ctx : Context) (publisher : List (String × Option String))
    (entries : List (String × List PkgFmri)) (holds : List PkgFmri) (excludes : Excludes) :
    PkgFmri → Prop
  | installed {fmri : PkgFmri} (h : fmri ∈ ctx.installed.fmris) :
    Reached ctx publisher entries holds excludes fmri
  | named {fmri : PkgFmri} (h : Eligible ctx publisher entries holds fmri)
    (hname : fmri.pkgName ∈ ctx.installed.fmris.map PkgFmri.pkgName ++ entries.map Prod.fst) :
    Reached ctx publisher entries holds excludes fmri
  | require {fmri other : PkgFmri} (hfmri : Reached ctx publisher entries holds excludes fmri)
    (hmeets : MeetsRequire ctx excludes fmri other) (h :
      Eligible ctx publisher entries holds other) :
    Reached ctx publisher entries holds excludes other

/-- A dependency of a package names `name`. -/
def Names (ctx : Context) (excludes : Excludes) (fmri : PkgFmri) (name : String) : Prop :=
  ∃ das, ctx.getDependencyActions fmri excludes = .ok das ∧ ∃ da ∈ das,
    ∃ named, da.pkgFmri = .ok named ∧ named.pkgName = name

/-- The names that an operation looks up in the catalog: those that are installed, proposed or held,
and those that a dependency of a reached package names. -/
def Looked (ctx : Context) (publisher : List (String × Option String))
    (entries : List (String × List PkgFmri)) (holds : List PkgFmri) (excludes : Excludes)
    (name : String) : Prop :=
  name ∈ ctx.installed.fmris.map PkgFmri.pkgName ++ entries.map Prod.fst ++
      holds.map PkgFmri.pkgName ∨
    ∃ fmri, Reached ctx publisher entries holds excludes fmri ∧ Names ctx excludes fmri name

section Looked

variable {ctx : Context} {publisher : List (String × Option String)}
  {entries : List (String × List PkgFmri)} {holds : List PkgFmri} {excludes : Excludes}
  {fmri : PkgFmri}

theorem Reached.looked (h : Reached ctx publisher entries holds excludes fmri) :
    Looked ctx publisher entries holds excludes fmri.pkgName := by
  cases h with
  | installed h =>
    exact Or.inl (List.mem_append_left _ (List.mem_append_left _ (List.mem_map_of_mem h)))
  | named _ hname => exact Or.inl (List.mem_append_left _ hname)
  | require hfmri hmeets _ =>
    obtain ⟨das, hdas, da, hda, -, named, hnamed, hname, -⟩ := hmeets
    exact Or.inr ⟨_, hfmri, das, hdas, da, hda, named, hnamed, hname.symm⟩

end Looked

section Without

variable {ctx : Context} {unparsed : List PkgFmri}

@[simp] theorem without_installed : (ctx.without unparsed).installed = ctx.installed := rfl

@[simp] theorem without_solver : (ctx.without unparsed).solver = ctx.solver := rfl

@[simp] theorem without_variants : (ctx.without unparsed).variants = ctx.variants := rfl

theorem fmrisByVersion_without (name : String) :
    (ctx.without unparsed).fmrisByVersion name =
      (ctx.fmrisByVersion name).filter (· ∉ unparsed) := by
  have hmap : (ctx.without unparsed).catalog.map Prod.fst =
      (ctx.catalog.map Prod.fst).filter (· ∉ unparsed) := by
    rw [List.filter_map]
    rfl
  unfold Context.fmrisByVersion
  rw [hmap, List.filter_filter, List.filter_filter]
  exact List.filter_congr fun fmri _ ↦ Bool.and_comm _ _

variable {fmri : PkgFmri}

theorem lookup_filter_of_notMem {entries : List (PkgFmri × Option (List Action))}
    (h : fmri ∉ unparsed) :
    (entries.filter (·.1 ∉ unparsed)).lookup fmri = entries.lookup fmri := by
  induction entries with
  | nil => rfl
  | cons entry rest ih =>
    by_cases hmem : entry.1 ∈ unparsed
    · have hne : fmri ≠ entry.1 := fun heq ↦ h (heq ▸ hmem)
      rw [List.filter_cons_of_neg (by simpa using hmem), ih, List.lookup_cons,
        beq_eq_false_iff_ne.mpr hne]
    · rw [List.filter_cons_of_pos (by simpa using hmem), List.lookup_cons, List.lookup_cons, ih]

/-- The actions of a package that remains are read as before. -/
theorem getEntryActions_without (h : fmri ∉ unparsed) (excludes : Excludes) :
    (ctx.without unparsed).getEntryActions fmri excludes = ctx.getEntryActions fmri excludes := by
  unfold Context.getEntryActions Context.without
  rw [lookup_filter_of_notMem h]

theorem getDependencyActions_without (h : fmri ∉ unparsed) (excludes : Excludes) :
    (ctx.without unparsed).getDependencyActions fmri excludes =
      ctx.getDependencyActions fmri excludes := by
  unfold Context.getDependencyActions
  rw [getEntryActions_without h]

theorem getEntryAllVariants_without (h : fmri ∉ unparsed) :
    (ctx.without unparsed).getEntryAllVariants fmri = ctx.getEntryAllVariants fmri := by
  unfold Context.getEntryAllVariants
  rw [getEntryActions_without h]

theorem requiredFmris_without (h : fmri ∉ unparsed) (fmris : List PkgFmri) (excludes : Excludes) :
    (ctx.without unparsed).requiredFmris fmris excludes fmri =
      ctx.requiredFmris fmris excludes fmri := by
  unfold Context.requiredFmris
  rw [getDependencyActions_without h]

end Without

/-! ### The two states -/

/-- A state apart from the trimmed packages and the stored states. -/
def State.rest (state : State) : State :=
  { state with trimDict := [], fmriState := [] }

/-- A state of the run on the whole catalog, and the state of the run without some packages at the
same point. They differ in what they record about the deleted packages. -/
structure Twin (ctx : Context) (unparsed : List PkgFmri) (publisher : List (String × Option String))
    (possible : List PkgFmri) (s t : State) : Prop where
  publisher : s.publisher = publisher
  rest : s.rest = t.rest
  trimDict : ∀ fmri, fmri ∉ unparsed → (fmri ∈ s.trimDict ↔ fmri ∈ t.trimDict)
  fmriState : ∀ fmri, fmri ∉ unparsed → s.fmriState.lookup fmri = t.fmriState.lookup fmri
  stored : ∀ fmri ∈ unparsed, ∀ flags, s.fmriState.lookup fmri = some flags →
    flags = (.text "false", .text "false")
  possSet : s.possSet = possible
  ids : s.ids ⊆ possible
  possibleDict : ∀ entry ∈ s.possibleDict, entry.2 ⊆ possible

section Twin

variable {ctx : Context} {unparsed possible : List PkgFmri}
  {publisher : List (String × Option String)} {s t : State}

namespace Twin

theorem start : Twin ctx unparsed publisher [] (State.start publisher) (State.start publisher) :=
  ⟨rfl, rfl, fun _ _ ↦ Iff.rfl, fun _ _ ↦ rfl, fun _ _ _ h ↦ (by cases h), rfl,
    List.Subset.refl _, by simp [State.start]⟩

/-- Trimming lists that differ in deleted packages. -/
theorem trim (h : Twin ctx unparsed publisher possible s t) (fmris fmris' : List PkgFmri)
    (hmem : ∀ fmri, fmri ∉ unparsed → (fmri ∈ fmris ↔ fmri ∈ fmris')) :
    Twin ctx unparsed publisher possible (s.trim fmris) (t.trim fmris') := by
  refine ⟨h.publisher, h.rest, fun fmri hfmri ↦ ?_, h.fmriState, h.stored, h.possSet, h.ids,
    h.possibleDict⟩
  exact List.mem_append.trans ((or_congr (hmem fmri hfmri) (h.trimDict fmri hfmri)).trans
    List.mem_append.symm)

variable {fmri : PkgFmri}

/-- Trimming a deleted package. -/
theorem trim_left (h : Twin ctx unparsed publisher possible s t)
    (hmem : fmri ∈ unparsed) : Twin ctx unparsed publisher possible (s.trim [fmri]) t := by
  refine ⟨h.publisher, h.rest, fun other hother ↦ ?_, h.fmriState, h.stored, h.possSet, h.ids,
    h.possibleDict⟩
  have hne : other ≠ fmri := fun heq ↦ hother (heq ▸ hmem)
  exact (List.mem_cons.trans (or_iff_right hne)).trans (h.trimDict other hother)

/-- Storing the state of a package that remains. -/
theorem store (h : Twin ctx unparsed publisher possible s t)
    (hmem : fmri ∉ unparsed) (flags : StateFlag × StateFlag) :
    Twin ctx unparsed publisher possible { s with fmriState := (fmri, flags) :: s.fmriState }
      { t with fmriState := (fmri, flags) :: t.fmriState } := by
  refine ⟨h.publisher, h.rest, h.trimDict, fun other hother ↦ ?_,
    fun other hother stored hstored ↦ ?_, h.possSet, h.ids, h.possibleDict⟩
  · rw [List.lookup_cons, List.lookup_cons, h.fmriState other hother]
  · have hne : (other == fmri) = false := beq_eq_false_iff_ne.mpr fun heq ↦ hmem (heq ▸ hother)
    simp only [List.lookup_cons, hne] at hstored
    exact h.stored other hother stored hstored

/-- Storing the state of a deleted package. -/
theorem store_left (h : Twin ctx unparsed publisher possible s t) (hmem : fmri ∈ unparsed) :
    Twin ctx unparsed publisher possible
      { s with fmriState := (fmri, .text "false", .text "false") :: s.fmriState } t := by
  refine ⟨h.publisher, h.rest, h.trimDict, fun other hother ↦ ?_,
    fun other hother stored hstored ↦ ?_, h.possSet, h.ids, h.possibleDict⟩
  · have hne : (other == fmri) = false := beq_eq_false_iff_ne.mpr fun heq ↦ hother (heq ▸ hmem)
    simp only [List.lookup_cons, hne]
    exact h.fmriState other hother
  · simp only [List.lookup_cons] at hstored
    split at hstored
    · exact (Option.some_inj.mp hstored).symm
    · exact h.stored other hother stored hstored

theorem filterPublishers (h : Twin ctx unparsed publisher possible s t)
    {looked : String → Prop} (hsame : SamePublishers ctx unparsed publisher looked) {name : String}
    (hname : looked name) :
    Twin ctx unparsed publisher possible (ctx.filterPublishers name s)
      ((ctx.without unparsed).filterPublishers name t) := by
  have hpubTrim : s.pubTrim = t.pubTrim := (congrArg State.pubTrim h.rest :)
  have hpublisher : t.publisher = publisher :=
    (congrArg State.publisher h.rest).symm.trans h.publisher
  unfold Context.filterPublishers
  rw [← hpubTrim]
  split_ifs
  · exact h
  · have hacceptable : ∀ fmri ∈ ctx.fmrisByVersion name, fmri ∉ unparsed →
        ctx.acceptable s fmri = (ctx.without unparsed).acceptable t fmri := by
      intro fmri hmem hfmri
      have hs : s.publisher = (State.start publisher).publisher := h.publisher
      have ht : t.publisher = (State.start publisher).publisher := hpublisher
      rw [acceptable_congr hs, acceptable_congr ht]
      obtain ⟨hcatalog, rfl⟩ := mem_fmrisByVersion.mp hmem
      exact hsame fmri hcatalog hfmri hname
    have htrimmed := h.trim ((ctx.fmrisByVersion name).filter fun fmri ↦ !ctx.acceptable s fmri)
      (((ctx.without unparsed).fmrisByVersion name).filter fun fmri ↦
        !(ctx.without unparsed).acceptable t fmri) fun fmri hfmri ↦ by
        rw [fmrisByVersion_without, List.mem_filter, List.mem_filter, List.mem_filter, and_assoc]
        refine and_congr_right fun hmem ↦ ?_
        rw [hacceptable fmri hmem hfmri]
        simp [hfmri]
    exact ⟨h.publisher, congrArg (fun rest ↦ { rest with pubTrim := name :: s.pubTrim }) h.rest,
      htrimmed.trimDict, h.fmriState, h.stored, h.possSet, h.ids, h.possibleDict⟩

theorem untrimmed (h : Twin ctx unparsed publisher possible s t) (name : String) :
    (ctx.without unparsed).untrimmed t name = (ctx.untrimmed s name).filter (· ∉ unparsed) := by
  have hpossSet : s.possSet = t.possSet := (congrArg State.possSet h.rest :)
  unfold Context.untrimmed
  rw [fmrisByVersion_without, List.filter_filter, List.filter_filter, ← hpossSet]
  refine List.filter_congr fun fmri _ ↦ ?_
  by_cases hfmri : fmri ∈ unparsed
  · simp [hfmri]
  · simp [hfmri, h.trimDict fmri hfmri]

/-- The candidates without the deleted packages. -/
theorem candidates (h : Twin ctx unparsed publisher possible s t)
    {looked : String → Prop} (hsame : SamePublishers ctx unparsed publisher looked) {name : String}
    (hname : looked name) :
    (ctx.without unparsed).candidates t name = (ctx.candidates s name).filter (· ∉ unparsed) :=
  (h.filterPublishers hsame hname).untrimmed name

end Twin

/-! ### Reading the two catalogs -/

/-- Both runs return the same value, in `M`, or fail with the same error, and stay twins. -/
abbrev TwinAgrees (ctx : Context) (unparsed : List PkgFmri)
    (publisher : List (String × Option String)) (possible : List PkgFmri) {α : Type} (M : α → Prop)
    (first second : SolverM α) : Prop :=
  Program.Agrees (Twin ctx unparsed publisher possible) M first second

variable {fmri : PkgFmri}

/-- The state of a package that remains is loaded alike. -/
theorem fmriFlags_twin (hmem : fmri ∉ unparsed) (excludes : Excludes) :
    TwinAgrees ctx unparsed publisher possible (fun _ ↦ True) (ctx.fmriFlags fmri excludes)
      ((ctx.without unparsed).fmriFlags fmri excludes) := by
  refine Program.Agrees.get_bind fun s t h ↦ ?_
  rw [h.fmriState fmri hmem]
  cases t.fmriState.lookup fmri with
  | some flags => exact Program.Agrees.pure trivial
  | none =>
    dsimp only
    unfold Context.fmriLoadstate
    rw [getEntryActions_without hmem]
    split
    · refine Program.Agrees.bind (Program.Agrees.lift (M := fun _ ↦ True) fun _ _ ↦ trivial)
        fun flags _ ↦ ?_
      refine Program.Agrees.bind (M := fun _ ↦ True) (Program.Agrees.modify trivial fun _ _ h ↦
        h.store hmem flags) fun _ _ ↦ Program.Agrees.pure trivial
    · refine Program.Agrees.bind (M := fun _ ↦ True) (Program.Agrees.modify trivial fun _ _ h ↦ ?_)
        fun _ _ ↦ Program.Agrees.pure trivial
      exact (h.trim _ _ fun _ _ ↦ Iff.rfl).store hmem _
    · exact Program.Agrees.throw

theorem fmriIsObsolete_twin (hmem : fmri ∉ unparsed) (excludes : Excludes) :
    TwinAgrees ctx unparsed publisher possible (fun _ ↦ True) (ctx.fmriIsObsolete fmri excludes)
      ((ctx.without unparsed).fmriIsObsolete fmri excludes) :=
  Program.Agrees.bind (fmriFlags_twin hmem excludes) fun _ _ ↦ Program.Agrees.pure trivial

theorem fmriIsRenamed_twin (hmem : fmri ∉ unparsed) (excludes : Excludes) :
    TwinAgrees ctx unparsed publisher possible (fun _ ↦ True) (ctx.fmriIsRenamed fmri excludes)
      ((ctx.without unparsed).fmriIsRenamed fmri excludes) :=
  Program.Agrees.bind (fmriFlags_twin hmem excludes) fun _ _ ↦ Program.Agrees.pure trivial

/-- A package that cannot be parsed counts as obsolete. -/
theorem exec_fmriIsObsolete_unparsed (hdel : Deletable ctx unparsed)
    (h : Twin ctx unparsed publisher possible s t) (hmem : fmri ∈ unparsed) :
    ∃ next, Program.exec (ctx.fmriIsObsolete fmri []) s = (.ok true, next) ∧
      Twin ctx unparsed publisher possible next t := by
  unfold Context.fmriIsObsolete Context.fmriFlags
  rw [Program.exec_bind, Program.exec_bind, Program.exec_get]
  cases hlookup : s.fmriState.lookup fmri with
  | some flags =>
    obtain rfl := h.stored fmri hmem flags hlookup
    simp only [hlookup]
    exact ⟨s, rfl, h⟩
  | none =>
    simp only [hlookup]
    unfold Context.fmriLoadstate
    rw [hdel.invalid fmri hmem []]
    exact ⟨_, rfl, (h.trim_left hmem).store_left hmem⟩

/-- The divided candidates of the two runs: those of the second run are those of the first one
without the deleted packages. These are not among the ones that match if obsolete packages do not
match, and nowhere once some packages are possible. -/
structure Divided (unparsed possible : List PkgFmri) (obsoleteOk : Bool)
    (a b : List PkgFmri × List PkgFmri) : Prop where
  fst : b.1 = a.1.filter (· ∉ unparsed)
  snd : b.2 = a.2.filter (· ∉ unparsed)
  fst_kept : obsoleteOk = false ∨ possible ≠ [] → ∀ fmri ∈ a.1, fmri ∉ unparsed
  snd_kept : possible ≠ [] → ∀ fmri ∈ a.2, fmri ∉ unparsed

theorem Divided.fst_eq {obsoleteOk : Bool} {a b : List PkgFmri × List PkgFmri}
    (h : Divided unparsed possible obsoleteOk a b) (hcase : obsoleteOk = false ∨ possible ≠ []) :
    a.1 = b.1 := by
  rw [h.fst, eq_comm, List.filter_eq_self]
  exact fun fmri hfmri ↦ decide_eq_true (h.fst_kept hcase fmri hfmri)

theorem Divided.snd_eq {obsoleteOk : Bool} {a b : List PkgFmri × List PkgFmri}
    (h : Divided unparsed possible obsoleteOk a b) (hpossible : possible ≠ []) : a.2 = b.2 := by
  rw [h.snd, eq_comm, List.filter_eq_self]
  exact fun fmri hfmri ↦ decide_eq_true (h.snd_kept hpossible fmri hfmri)

section Reading

variable {looked : String → Prop} (hdel : Deletable ctx unparsed)
  (hsame : SamePublishers ctx unparsed publisher looked)
  (hkept : ∀ fmri ∈ possible, fmri ∉ unparsed)

include hdel hsame hkept

theorem combCommon_twin {fmri : PkgFmri} (hname : looked fmri.pkgName)
    (constraint : Version.Constraint) (obsoleteOk : Bool) :
    Program.Simulates (Twin ctx unparsed publisher possible)
      (ctx.combCommon fmri constraint obsoleteOk)
      ((ctx.without unparsed).combCommon fmri constraint obsoleteOk)
      (fun a b s t ↦ Divided unparsed possible obsoleteOk a b ∧
        Twin ctx unparsed publisher possible s t)
      fun e d s t ↦ e = d ∧ Twin ctx unparsed publisher possible s t := by
  refine Program.Simulates.bind (M := fun a b s t ↦ (b = a.filter (· ∉ unparsed) ∧
    (possible ≠ [] → ∀ other ∈ a, other ∉ unparsed)) ∧ Twin ctx unparsed publisher possible s t)
    (Program.Simulates.of_exec_eq (exec_getCatalogFmris ctx fmri.pkgName)
    (exec_getCatalogFmris (ctx.without unparsed) fmri.pkgName) fun s t h ↦ ?_) fun a b ↦ ?_
  · refine ⟨⟨h.candidates hsame hname, fun hpossible other hother ↦ ?_⟩,
      h.filterPublishers hsame hname⟩
    have hposs := (mem_candidates.mp hother).2.2.2
    rw [h.possSet] at hposs
    exact hkept other (hposs.resolve_left hpossible)
  · refine Program.Simulates.assume ?_
    rintro ⟨rfl, hall⟩
    refine Program.Simulates.bind (Program.Simulates.filterEach_restrict
      (fun other ↦ decide (other ∉ unparsed))
      (fun other ↦ versionMeets constraint fmri other && obsoleteOk)
      (fun other _ hother ↦ ?_) fun other _ hother s t h ↦ ?_) fun matching matching' ↦ ?_
    · have hmem : other ∉ unparsed := of_decide_eq_true hother
      unfold Context.combTest
      split_ifs
      · exact Program.Agrees.pure trivial
      · rw [map_eq_pure_bind, map_eq_pure_bind]
        exact Program.Agrees.bind (fmriIsObsolete_twin hmem []) fun _ _ ↦
          Program.Agrees.pure trivial
      · exact Program.Agrees.pure trivial
    · have hmem : other ∈ unparsed := by simpa using hother
      unfold Context.combTest
      split_ifs with hmeets hok
      · exact ⟨s, by rw [hmeets, hok]; rfl, h⟩
      · obtain ⟨next, hexec, hnext⟩ := exec_fmriIsObsolete_unparsed hdel h hmem
        refine ⟨next, ?_, hnext⟩
        rw [Program.exec_map, hexec, Bool.eq_false_iff.mpr hok, Bool.and_false]
        rfl
      · exact ⟨s, by rw [Bool.eq_false_iff.mpr hmeets]; rfl, h⟩
    · refine Program.Simulates.pure ?_
      rintro s t ⟨⟨rfl, hmatching⟩, h⟩
      refine ⟨⟨rfl, ?_, ?_, fun hpossible other hother ↦ ?_⟩, h⟩
      · simp only [List.filter_filter, List.mem_filter, decide_eq_true_eq]
        refine List.filter_congr fun other _ ↦ ?_
        by_cases hmem : other ∈ unparsed <;> simp [hmem]
      · intro hcase other hother
        obtain ⟨hlist, hselected⟩ := hmatching other hother
        rcases hcase with hok | hpossible
        · intro hmem
          have htrue := hselected (by simpa using hmem)
          rw [hok, Bool.and_false] at htrue
          cases htrue
        · exact hall hpossible other hlist
      · exact hall hpossible other (List.mem_of_mem_filter hother)

/-- What a dependency asks for: alike for a require dependency, and for every one once some packages
are possible. -/
theorem combDependency_twin (type : DependencyType) {fmri : PkgFmri} (hname : looked fmri.pkgName) :
    Program.Simulates (Twin ctx unparsed publisher possible) (ctx.combDependency type fmri)
      ((ctx.without unparsed).combDependency type fmri)
      (fun a b s t ↦ ((type = .require → a.1 = b.1 ∧ ∀ other ∈ a.1, other ∉ unparsed) ∧
        (possible ≠ [] → a = b)) ∧ Twin ctx unparsed publisher possible s t)
      fun e d s t ↦ e = d ∧ Twin ctx unparsed publisher possible s t := by
  have hall : ∀ constraint obsoleteOk, (obsoleteOk = true → type ≠ .require) →
      Program.Simulates (Twin ctx unparsed publisher possible)
      (ctx.combCommon fmri constraint obsoleteOk)
      ((ctx.without unparsed).combCommon fmri constraint obsoleteOk)
      (fun a b s t ↦ ((type = .require → a.1 = b.1 ∧ ∀ other ∈ a.1, other ∉ unparsed) ∧
        (possible ≠ [] → a = b)) ∧ Twin ctx unparsed publisher possible s t)
      fun e d s t ↦ e = d ∧ Twin ctx unparsed publisher possible s t := by
    intro constraint obsoleteOk htype
    refine Program.Simulates.weaken (combCommon_twin hdel hsame hkept hname constraint obsoleteOk)
      (fun _ _ h ↦ h) ?_ (fun _ _ _ _ h ↦ h)
    rintro ⟨_, _⟩ ⟨_, _⟩ s t ⟨hdivided, h⟩
    refine ⟨⟨fun hrequire ↦ ?_, fun hpossible ↦ ?_⟩, h⟩
    · have hok : obsoleteOk = false := Bool.eq_false_iff.mpr fun hok ↦ htype hok hrequire
      exact ⟨hdivided.fst_eq (Or.inl hok), hdivided.fst_kept (Or.inl hok)⟩
    · exact Prod.ext (hdivided.fst_eq (Or.inr hpossible)) (hdivided.snd_eq hpossible)
  cases type with
  | require => exact hall .none false (fun h ↦ by cases h)
  | optional => exact hall .none true (fun _ h ↦ by cases h)
  | incorporate => exact hall .auto true (fun _ h ↦ by cases h)
  | exclude =>
    refine Program.Simulates.bind (hall .none true (fun _ h ↦ by cases h)) fun a b ↦
      Program.Simulates.pure ?_
    rintro s t ⟨⟨-, heq⟩, h⟩
    exact ⟨⟨fun hrequire ↦ (by cases hrequire), fun hpossible ↦ (by rw [heq hpossible])⟩, h⟩

/-- Once some packages are possible, dependencies are parsed alike. -/
theorem parseDependency_twin (hpossible : possible ≠ []) {da : Dependency}
    (hname : ∀ named, da.pkgFmri = .ok named → looked named.pkgName) :
    TwinAgrees ctx unparsed publisher possible (fun _ ↦ True) (ctx.parseDependency da false)
      ((ctx.without unparsed).parseDependency da false) := by
  refine Program.Agrees.bind (Program.Agrees.lift hname) fun fmri hfmri ↦ ?_
  refine Program.Agrees.bind (M := fun _ ↦ True) (Program.Simulates.weaken
    (combDependency_twin hdel hsame hkept da.type hfmri) (fun _ _ h ↦ h)
    (fun _ _ _ _ h ↦ ⟨⟨h.1.2 hpossible, trivial⟩, h.2⟩) (fun _ _ _ _ h ↦ h)) ?_
  rintro ⟨matching, nonmatching⟩ -
  exact Program.Agrees.pure trivial

/-- With `checkReq` the packages that meet a require dependency are the same, and if there are none,
both runs fail with errors that are handled alike. -/
theorem parseDependency_twin_checked {da : Dependency}
    (hname : ∀ named, da.pkgFmri = .ok named → looked named.pkgName) :
    Program.Simulates (Twin ctx unparsed publisher possible) (ctx.parseDependency da true)
      ((ctx.without unparsed).parseDependency da true)
      (fun a b s t ↦ (da.type = .require → a.2 = b.2 ∧ ∀ other ∈ a.2, other ∉ unparsed) ∧
        Twin ctx unparsed publisher possible s t)
      fun e d s t ↦ (e = d ∨ ∃ fmri obsolete obsolete', e = .requiredDependency fmri obsolete ∧
        d = .requiredDependency fmri obsolete') ∧ Twin ctx unparsed publisher possible s t := by
  cases hfmri : da.pkgFmri with
  | error error =>
    unfold Context.parseDependency
    rw [hfmri]
    exact Program.Simulates.throw fun _ _ h ↦ ⟨Or.inl rfl, h⟩
  | ok fmri =>
    unfold Context.parseDependency
    rw [hfmri]
    simp only [Program.lift, pure_bind]
    refine Program.Simulates.bind (Program.Simulates.weaken
      (combDependency_twin hdel hsame hkept da.type (hname fmri hfmri)) (fun _ _ h ↦ h)
      (fun _ _ _ _ h ↦ h)
      (fun _ _ _ _ h ↦ ⟨Or.inl h.1, h.2⟩)) ?_
    rintro ⟨matching, nonmatching⟩ ⟨matching', nonmatching'⟩
    refine Program.Simulates.assume ?_
    rintro ⟨hrequire, -⟩
    by_cases htype : da.type = .require
    · obtain ⟨heq, hnone⟩ := hrequire htype
      obtain rfl : matching = matching' := heq
      dsimp only
      split_ifs
      · refine Program.Simulates.bind (Program.Simulates.weaken
          (combCommon_twin hdel hsame hkept (hname fmri hfmri) .none true) (fun _ _ h ↦ h)
          (fun _ _ _ _ h ↦ h)
          (fun _ _ _ _ h ↦ ⟨Or.inl h.1, h.2⟩)) fun both both' ↦ ?_
        exact Program.Simulates.throw fun _ _ h ↦ ⟨Or.inr ⟨fmri, _, _, rfl, rfl⟩, h.2⟩
      · exact Program.Simulates.pure fun _ _ h ↦ ⟨fun _ ↦ ⟨rfl, hnone⟩, h⟩
    · dsimp only
      rw [if_neg (by simp [htype]), if_neg (by simp [htype])]
      exact Program.Simulates.pure fun _ _ h ↦ ⟨fun h ↦ absurd h htype, h⟩

theorem generateDependencies_twin (hmem : fmri ∉ unparsed) {excludes : Excludes}
    (hnames : ∀ name, Names ctx excludes fmri name → looked name) :
    TwinAgrees ctx unparsed publisher possible (fun found ↦ ∀ other ∈ found, other ∉ unparsed)
      (ctx.generateDependencies fmri excludes)
      ((ctx.without unparsed).generateDependencies fmri excludes) := by
  unfold Context.generateDependencies
  rw [getDependencyActions_without hmem]
  refine Program.Simulates.handle (M := fun e d s t ↦ (e = d ∨ ∃ fmri obsolete obsolete',
    e = .requiredDependency fmri obsolete ∧ d = .requiredDependency fmri obsolete') ∧
    Twin ctx unparsed publisher possible s t) ?_ fun e d ↦ ?_
  · cases hdas : ctx.getDependencyActions fmri excludes with
    | error error => exact Program.Simulates.throw fun _ _ h ↦ ⟨Or.inl rfl, h⟩
    | ok das =>
      refine Program.Simulates.flatMapEach fun da hda ↦ ?_
      refine Program.Simulates.bind (parseDependency_twin_checked hdel hsame hkept
        fun named hnamed ↦ hnames _ ⟨das, hdas, da, hda, named, hnamed, rfl⟩) ?_
      rintro ⟨nonmatching, matching⟩ ⟨nonmatching', matching'⟩
      refine Program.Simulates.pure ?_
      rintro s t ⟨hrequire, h⟩
      split_ifs with htype
      · exact ⟨hrequire htype, h⟩
      · exact ⟨⟨rfl, by simp⟩, h⟩
  · have htrim : TwinAgrees ctx unparsed publisher possible
        (fun found : List PkgFmri ↦ ∀ other ∈ found, other ∉ unparsed)
        (do
          modify (State.trim [fmri])
          return [])
        (do
          modify (State.trim [fmri])
          return []) :=
      Program.Agrees.bind (M := fun _ ↦ True) (Program.Agrees.modify trivial fun _ _ h ↦
        h.trim _ _ fun _ _ ↦ Iff.rfl) fun _ _ ↦ Program.Agrees.pure (by simp)
    refine Program.Simulates.assume ?_
    rintro (rfl | ⟨named, obsolete, obsolete', rfl, rfl⟩)
    · split
      · exact htrim
      · exact htrim
      · exact Program.Agrees.throw
    · exact htrim

/-! ### Trimming -/

theorem combTrim_twin {fmri : PkgFmri} (hname : looked fmri.pkgName)
    (constraint : Version.Constraint) :
    TwinAgrees ctx unparsed publisher possible (fun _ ↦ True)
      (do
        let (_, excluded) ← ctx.combCommon fmri constraint true
        modify (State.trim excluded))
      (do
        let (_, excluded) ← (ctx.without unparsed).combCommon fmri constraint true
        modify (State.trim excluded)) := by
  refine Program.Simulates.bind (combCommon_twin hdel hsame hkept hname constraint true) ?_
  rintro ⟨matching, excluded⟩ ⟨matching', excluded'⟩
  refine Program.Simulates.assume fun hdivided ↦ ?_
  have hexcluded : excluded' = excluded.filter (· ∉ unparsed) := hdivided.snd
  intro s t h
  exact ⟨⟨rfl, trivial⟩, h.trim _ _ fun other hother ↦ by simp [hexcluded, hother]⟩

omit hdel hkept in
theorem trimExcluded_twin {entry : String × List PkgFmri} (hname : looked entry.1) :
    TwinAgrees ctx unparsed publisher possible (fun _ ↦ True) (ctx.trimExcluded entry)
      ((ctx.without unparsed).trimExcluded entry) := by
  refine Program.Simulates.bind (M := fun a b s t ↦ b = a.filter (· ∉ unparsed) ∧
    Twin ctx unparsed publisher possible s t)
    (Program.Simulates.of_exec_eq (exec_getCatalogFmris ctx entry.1)
    (exec_getCatalogFmris (ctx.without unparsed) entry.1) fun s t h ↦
      ⟨h.candidates hsame hname, h.filterPublishers hsame hname⟩) fun a b ↦ ?_
  refine Program.Simulates.assume ?_
  rintro rfl s t h
  exact ⟨⟨rfl, trivial⟩, h.trim _ _ fun other hother ↦ by simp [hother]⟩

omit hdel hsame hkept in
theorem trimNonmatchingVariants_twin (hmem : fmri ∉ unparsed) :
    TwinAgrees ctx unparsed publisher possible (fun _ ↦ True) (ctx.trimNonmatchingVariants fmri)
      ((ctx.without unparsed).trimNonmatchingVariants fmri) := by
  have htrim : TwinAgrees ctx unparsed publisher possible (fun _ ↦
      True) (modify (State.trim [fmri]))
      (modify (State.trim [fmri])) :=
    Program.Agrees.modify trivial fun _ _ h ↦ h.trim _ _ fun _ _ ↦ Iff.rfl
  refine Program.Agrees.bind (M := fun _ ↦ True) ?_ fun vd _ ↦ ?_
  · unfold Context.getVariantDict
    rw [getEntryAllVariants_without hmem]
    split
    · exact Program.Agrees.pure trivial
    · exact Program.Agrees.bind htrim fun _ _ ↦ Program.Agrees.pure trivial
    · exact Program.Agrees.throw
  · rw [without_variants]
    split_ifs
    · exact htrim
    · exact Program.Agrees.pure trivial

omit hdel hsame hkept in
theorem dotrimProposed_twin {proposed : List (String × List PkgFmri)}
    (hmem : ∀ entry ∈ proposed, ∀ fmri ∈ entry.2, fmri ∉ unparsed) :
    TwinAgrees ctx unparsed publisher possible
      (fun remaining ↦ ∀ entry ∈ remaining, ∀ fmri ∈ entry.2, fmri ∉ unparsed)
      (dotrimProposed proposed) (dotrimProposed proposed) := by
  induction proposed with
  | nil => exact Program.Agrees.pure (by simp)
  | cons entry rest ih =>
    obtain ⟨hentry, hrest⟩ := List.forall_mem_cons.mp hmem
    unfold dotrimProposed
    refine Program.Agrees.get_bind fun s t h ↦ ?_
    have htv : entry.2.filter (· ∉ s.trimDict) = entry.2.filter (· ∉ t.trimDict) :=
      List.filter_congr fun fmri hfmri ↦ decide_eq_decide.mpr
        (not_congr (h.trimDict fmri (hentry fmri hfmri)))
    dsimp only
    rw [htv]
    split_ifs
    · exact Program.Agrees.throw
    · refine Program.Agrees.bind (ih hrest) fun others hothers ↦ Program.Agrees.pure ?_
      exact List.forall_mem_cons.mpr
        ⟨fun fmri hfmri ↦ hentry fmri (List.mem_of_mem_filter hfmri), hothers⟩

/-! ### What is collected for the installed packages -/

/-- No deleted package is collected for an installed one. -/
def NoneNewer (ctx : Context) (unparsed : List PkgFmri) (state : State) : Prop :=
  ∀ fmri ∈ ctx.installed.fmris, ∀ other ∈ ctx.newerCandidates state fmri, other ∉ unparsed

omit hdel hkept in
theorem newer_twin (collect : PkgFmri → List PkgFmri → List PkgFmri)
    (hcollect : ∀ fmri matching, ∀ other ∈ collect fmri matching,
      other = fmri ∨ other ∈ matching)
    (hinstalled : ∀ fmri ∈ ctx.installed.fmris, fmri ∉ unparsed ∧ looked fmri.pkgName) :
    Program.Agrees (fun s t ↦ Twin ctx unparsed publisher [] s t ∧ NoneNewer ctx unparsed s)
      (fun found ↦ ∀ fmri ∈ found, fmri ∉ unparsed)
      (Program.flatMapEach (fun fmri ↦ do
        let (matching, _) ← ctx.combNewerFmris fmri true
        return collect fmri matching) ctx.installed.fmris)
      (Program.flatMapEach (fun fmri ↦ do
        let (matching, _) ← (ctx.without unparsed).combNewerFmris fmri true
        return collect fmri matching) ctx.installed.fmris) := by
  refine Program.Simulates.flatMapEach fun fmri hfmri ↦ ?_
  refine Program.Simulates.bind (M := fun a b s t ↦ (a.1 = b.1 ∧ ∀ other ∈ a.1, other ∉ unparsed) ∧
    Twin ctx unparsed publisher [] s t ∧ NoneNewer ctx unparsed s)
    (Program.Simulates.of_exec_eq (exec_combCommon_obsoleteOk ctx fmri .none)
      (exec_combCommon_obsoleteOk (ctx.without unparsed) fmri .none) ?_) ?_
  · rintro s t ⟨h, hnone⟩
    have hkept := hnone fmri hfmri
    have hname := (hinstalled fmri hfmri).2
    refine ⟨⟨?_, hkept⟩, h.filterPublishers hsame hname, fun other hother ↦ ?_⟩
    · rw [h.candidates hsame hname, List.filter_filter]
      refine List.filter_congr fun other hother ↦ ?_
      cases hmeets : versionMeets .none fmri other with
      | false => rfl
      | true => exact (decide_eq_true (hkept other (List.mem_filter.mpr ⟨hother, hmeets⟩))).symm
    · unfold Context.newerCandidates
      rw [candidates_filterPublishers]
      exact hnone other hother
  · rintro ⟨matching, others⟩ ⟨matching', others'⟩
    refine Program.Simulates.assume ?_
    rintro ⟨heq, hmatching⟩
    obtain rfl : matching = matching' := heq
    refine Program.Simulates.pure fun s t h ↦ ⟨⟨rfl, fun other hother ↦ ?_⟩, h⟩
    rcases hcollect fmri matching other hother with rfl | hmem
    · exact (hinstalled other hfmri).1
    · exact hmatching other hmem

end Reading

/-! ### The dependency closure -/

section Closure

variable {entries : List (String × List PkgFmri)} {holds : List PkgFmri} {excludes : Excludes}
  {trimmed : State}

/-- The direct dependencies of a reached package are reached. -/
theorem generateDependencies_reached (hpure : FlagsPure ctx trimmed)
    (heligible : ∀ fmri, fmri ∈ ctx.candidates trimmed fmri.pkgName →
      Eligible ctx publisher entries holds fmri)
    (hreached : Reached ctx publisher entries holds excludes fmri) :
    Program.Triple (Reads ctx (fun _ ↦ True) trimmed) (ctx.generateDependencies fmri excludes)
      (fun found state ↦ (∀ other ∈ found, Reached ctx publisher entries holds excludes other) ∧
        Reads ctx (fun _ ↦ True) trimmed state) fun _ _ ↦ True := by
  refine Program.Triple.of_start fun middle hmiddle ↦ ?_
  refine Program.Triple.weaken (generateDependencies_triple (hmiddle.flags hpure) fmri)
    (fun _ h ↦ h) ?_ (fun _ _ h ↦ h)
  rintro found state ⟨hfound, hstate⟩
  refine ⟨fun other hother ↦ ?_, hmiddle.trans (hstate.weaken fun _ _ ↦ trivial)⟩
  obtain ⟨hcandidate, hmeets⟩ := hfound other hother
  exact Reached.require hreached hmeets (heligible other (hmiddle.candidates hcandidate))

/-- The closure of reached packages is the same in both runs and consists of reached packages. -/
theorem closure_twin (hdel : Deletable ctx unparsed)
    (hsame : SamePublishers ctx unparsed publisher (Looked ctx publisher entries holds excludes))
    (hpure : FlagsPure ctx trimmed)
    (heligible : ∀ fmri, fmri ∈ ctx.candidates trimmed fmri.pkgName →
      Eligible ctx publisher entries holds fmri)
    {fmriSet : List PkgFmri} (hset : ∀ fmri ∈ fmriSet, fmri ∉ unparsed ∧
      Reached ctx publisher entries holds excludes fmri) (hnodup : fmriSet.Nodup) :
    Program.Simulates
      (fun s t ↦ Twin ctx unparsed publisher [] s t ∧ Reads ctx (fun _ ↦ True) trimmed s)
      (ctx.generateDependencyClosure fmriSet excludes)
      ((ctx.without unparsed).generateDependencyClosure fmriSet excludes)
      (fun a b s t ↦ (a = b ∧ ∀ fmri ∈ a, fmri ∉ unparsed ∧
        Reached ctx publisher entries holds excludes fmri) ∧ Twin ctx unparsed publisher [] s t)
      fun e d _ _ ↦ e = d := by
  refine Program.Simulates.bind (Program.Simulates.drain_le (N := fun fmri ↦ fmri ∉ unparsed ∧
      Reached ctx publisher entries holds excludes fmri) (fun acc fmri hfmri ↦ ?_)
    (Nat.add_le_add_left (List.length_filter_le _ _) _) () fmriSet [] hset (by simp)
    (closure_terminates (ctx.without unparsed) excludes hnodup)) fun result result' ↦ ?_
  · obtain ⟨hmem, hreached⟩ := hfmri
    refine Program.Simulates.bind (Program.Simulates.and_left (Program.Agrees.simulates
      (generateDependencies_twin hdel hsame (by simp) hmem
        fun name hname ↦ Or.inr ⟨fmri, hreached, hname⟩))
      (generateDependencies_reached hpure heligible hreached)) fun found found' ↦ ?_
    refine Program.Simulates.pure ?_
    rintro s t ⟨⟨⟨rfl, hfound⟩, htwin⟩, hreached', hreads⟩
    exact ⟨⟨rfl, fun other hother ↦ ⟨hfound other hother, hreached' other hother⟩⟩, htwin, hreads⟩
  · refine Program.Simulates.assume ?_
    rintro ⟨rfl, hresult⟩
    rcases result with _ | ⟨_, taken⟩
    · exact Program.Simulates.throw fun _ _ _ ↦ rfl
    · exact Program.Simulates.pure fun _ _ h ↦ ⟨⟨rfl, hresult () taken rfl⟩, h.1⟩

end Closure

/-- Numbering possible packages among which no deleted one is. -/
theorem Twin.assignFmriIds (h : Twin ctx unparsed publisher [] s t) (closure : List PkgFmri) :
    Twin ctx unparsed publisher closure (assignFmriIds closure s) (assignFmriIds closure t) := by
  refine ⟨h.publisher, congrArg (Solver.assignFmriIds closure) h.rest, h.trimDict, h.fmriState,
    h.stored, ?_, fun fmri hfmri ↦ mem_ids_assignFmriIds.mp hfmri, fun entry hentry fmri hfmri ↦
    ((mem_possibleDict hentry fmri).mp hfmri).1⟩
  change s.possSet ∪ closure = closure
  rw [h.possSet]
  rfl

end Twin

end Userland.Pkg.Solver
