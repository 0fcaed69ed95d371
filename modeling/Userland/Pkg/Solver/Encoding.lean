import Userland.Pkg.Solver.Optimality
import Userland.Pkg.Solver.Trimming

/-!
# What the clauses say

`pkg/client/pkg_solver.py`. The clauses of an operation are read as statements about the sets of
packages that are models of them (`Forces`). Each generator has one lemma (`genHighlander_triple`,
`genDependency_triple`, `genOneOf_triple`), and the loop over all possible packages adds, for each
of them, that at most one package of its name is chosen and that its dependencies are respected
(`addAllPossible_triple`).

What a clause says refers to the candidates when it was generated. These only become fewer, so a
statement about the candidates at the start of the loop and at its end holds through it (`Stable`).
-/

set_option autoImplicit false
set_option relaxedAutoImplicit false

namespace Userland.Pkg.Solver

open Userland.Library

/-! ### Statements forced by clauses -/

/-- Every set of numbered packages that is a model of the clauses satisfies a statement. -/
def Forces (ids : List PkgFmri) (clauses : List Clause) (statement : List PkgFmri → Prop) : Prop :=
  ∀ chosen ⊆ ids, models (assignmentOf ids chosen) clauses = true → statement chosen

theorem Forces.mono {ids : List PkgFmri} {first last : List Clause}
    {statement : List PkgFmri → Prop} (h : Forces ids first statement) (hsub : first ⊆ last) :
    Forces ids last statement :=
  fun chosen hchosen hmodels ↦ h chosen hchosen (models_of_subset hsub hmodels)

variable {ids fmris : List PkgFmri}

theorem assignmentOf_number_eq_false {fmri : PkgFmri} (hmem : fmri ∈ ids) :
    assignmentOf ids fmris (number ids fmri) = false ↔ fmri ∉ fmris := by
  rw [← Bool.not_eq_true, assignmentOf_number hmem]

theorem forces_negated {clauses : List Clause} (hsub : fmris ⊆ ids)
    (hmem : negated (fmris.map (number ids)) ∈ clauses) :
    Forces ids clauses fun chosen ↦ ∃ fmri ∈ fmris, fmri ∉ chosen := by
  intro chosen _ hmodels
  obtain ⟨fid, hfid, hfalse⟩ := (holds_negated (by simp [number_pos])).mp
    (models_iff.mp hmodels _ hmem)
  obtain ⟨fmri, hfmri, rfl⟩ := List.mem_map.mp hfid
  exact ⟨fmri, hfmri, (assignmentOf_number_eq_false (hsub hfmri)).mp hfalse⟩

theorem forces_asserted {clauses : List Clause} (hsub : fmris ⊆ ids)
    (hmem : asserted (fmris.map (number ids)) ∈ clauses) :
    Forces ids clauses fun chosen ↦ ∃ fmri ∈ fmris, fmri ∈ chosen := by
  intro chosen _ hmodels
  obtain ⟨fid, hfid, htrue⟩ := (holds_asserted (by simp [number_pos])).mp
    (models_iff.mp hmodels _ hmem)
  obtain ⟨fmri, hfmri, rfl⟩ := List.mem_map.mp hfid
  exact ⟨fmri, hfmri, (assignmentOf_number (hsub hfmri)).mp htrue⟩

theorem forces_implication {clauses : List Clause} {fmri : PkgFmri} (hfmri : fmri ∈ ids)
    (hsub : fmris ⊆ ids)
    (hmem : (-(number ids fmri : ℤ) :: asserted (fmris.map (number ids))) ∈ clauses) :
    Forces ids clauses fun chosen ↦ fmri ∈ chosen → ∃ other ∈ fmris, other ∈ chosen := by
  intro chosen _ hmodels hchosen
  obtain ⟨fid, hfid, htrue⟩ := (holds_implication (number_pos ids fmri) (by simp [number_pos])).mp
    (models_iff.mp hmodels _ hmem) ((assignmentOf_number hfmri).mpr hchosen)
  obtain ⟨other, hother, rfl⟩ := List.mem_map.mp hfid
  exact ⟨other, hother, (assignmentOf_number (hsub hother)).mp htrue⟩

/-! ### Adding clauses -/

section Building

variable {ctx : Context}

/-- A step that reads the catalog and adds clauses. -/
structure Builds (ctx : Context) (before after : State) : Prop
    extends Extends ctx (Unreadable ctx) before after where
  clauses : before.clauses ⊆ after.clauses

namespace Builds

theorem refl (ctx : Context) (state : State) : Builds ctx state state :=
  ⟨Extends.refl ctx _ state, fun _ h ↦ h⟩

theorem trans {first middle last : State} (hfirst : Builds ctx first middle)
    (hlast : Builds ctx middle last) : Builds ctx first last :=
  ⟨hfirst.toExtends.trans hlast.toExtends, fun _ h ↦ hlast.clauses (hfirst.clauses h)⟩

theorem of_reads {first last : State} (h : Reads ctx (Unreadable ctx) first last) :
    Builds ctx first last :=
  ⟨h.toExtends, fun _ hmem ↦ h.clauses ▸ hmem⟩

theorem stepping (ctx : Context) : Program.Stepping (Builds ctx) (FlagsPure ctx) :=
  ⟨refl ctx, trans, fun h ↦ h.flags⟩

end Builds

/-- A statement about steps that build which steps before and after keep. -/
abbrev Stable (ctx : Context) (F : State → State → Prop) : Prop :=
  Program.StableAlong (Builds ctx) F

theorem stable_forces (statement : List PkgFmri → Prop) :
    Stable ctx fun before after ↦ Forces before.ids after.clauses statement := by
  intro first before after last hfirst hforces hlast
  rw [hfirst.ids] at hforces
  exact hforces.mono hlast.clauses

/-- A program that builds, with a statement about its step. -/
abbrev BuildTriple (ctx : Context) (program : SolverM Unit) (F : State → State → Prop) : Prop :=
  Program.Steps (Builds ctx) (FlagsPure ctx) program F

/-- Adding clauses changes nothing but the clauses and the record of failures. -/
theorem addclauses_eq (ctx : Context) (clauses : List Clause) (state : State) :
    ∃ failure, ctx.addclauses clauses state =
      { state with addclauseFailure := failure, clauses := state.clauses ++ clauses } := by
  unfold Context.addclauses
  induction clauses generalizing state with
  | nil => exact ⟨state.addclauseFailure, by simp⟩
  | cons clause rest ih =>
    obtain ⟨failure, hrest⟩ := ih (ctx.addClause clause state)
    refine ⟨failure, ?_⟩
    rw [List.foldl_cons, hrest, Context.addClause]
    simp

theorem builds_addclauses (ctx : Context) (clauses : List Clause) (state : State) :
    Builds ctx state (ctx.addclauses clauses state) ∧
      clauses ⊆ (ctx.addclauses clauses state).clauses := by
  obtain ⟨failure, heq⟩ := addclauses_eq ctx clauses state
  rw [heq]
  have hrefl := Extends.refl ctx (Unreadable ctx) state
  exact ⟨⟨⟨rfl, rfl, rfl, rfl, rfl, hrefl.pubTrim, hrefl.trimDict, hrefl.trimmed, hrefl.filtered,
    hrefl.flags, hrefl.loaded⟩, List.subset_append_left _ _⟩, List.subset_append_right _ _⟩

/-- What generated clauses `C` force holds when they have been added. -/
theorem addGenerated_builds {generate : SolverM (List Clause)} {C : State → List Clause → Prop}
    {F : State → State → Prop}
    (hgenerate : ∀ start, FlagsPure ctx start → Program.Triple (fun state ↦ state = start) generate
      (fun clauses state ↦ C start clauses ∧ Reads ctx (Unreadable ctx) start state)
      fun _ _ ↦ True)
    (hF : ∀ before after clauses, C before clauses → clauses ⊆ after.clauses →
      Builds ctx before after → F before after) :
    BuildTriple ctx (ctx.addGenerated generate) F := by
  intro start hpure
  refine Program.Triple.bind (hgenerate start hpure) fun clauses ↦ Program.Triple.modify ?_
  rintro state ⟨hC, hreads⟩
  obtain ⟨hbuilds, hsub⟩ := builds_addclauses ctx clauses state
  have hall := (Builds.of_reads hreads).trans hbuilds
  exact ⟨hall, hF start _ clauses hC hsub hall⟩

/-! ### The generators -/

theorem getids_triple {P : State → Prop} (ids : List PkgFmri) (fmris : List PkgFmri)
    (hids : ∀ state, P state → state.ids = ids) :
    Program.Triple P (getids fmris)
      (fun fids state ↦ (fids = fmris.map (number ids) ∧ fmris ⊆ ids) ∧ P state)
      fun _ _ ↦ True := by
  induction fmris with
  | nil => exact Program.Triple.pure fun state hstate ↦ ⟨by simp, hstate⟩
  | cons fmri rest ih =>
    refine Program.Triple.bind (getid_triple ids fmri hids) fun fid ↦ ?_
    refine Program.Triple.assume fun hfid ↦ ?_
    refine Program.Triple.bind ih fun others ↦ ?_
    refine Program.Triple.assume fun hothers ↦ ?_
    refine Program.Triple.pure fun state hstate ↦ ⟨⟨?_, ?_⟩, hstate⟩
    · rw [hfid.1, hothers.1, List.map_cons]
    · exact List.cons_subset.mpr ⟨hfid.2, hothers.2⟩

theorem mem_pairs_map {α β : Type} (f : α → β) {list : List α} {first second : α}
    (hfirst : first ∈ list) (hsecond : second ∈ list) (hne : first ≠ second) :
    (f first, f second) ∈ pairs (list.map f) ∨ (f second, f first) ∈ pairs (list.map f) := by
  induction list with
  | nil => exact absurd hfirst List.not_mem_nil
  | cons head rest ih =>
    simp only [List.map_cons, pairs, List.mem_append, List.mem_map, Prod.mk.injEq]
    rcases List.mem_cons.mp hfirst with rfl | hfirst'
    · have hrest := (List.mem_cons.mp hsecond).resolve_left hne.symm
      exact Or.inl (Or.inl ⟨f second, ⟨second, hrest, rfl⟩, rfl, rfl⟩)
    · rcases List.mem_cons.mp hsecond with rfl | hsecond'
      · exact Or.inr (Or.inl ⟨f first, ⟨first, hfirst', rfl⟩, rfl, rfl⟩)
      · exact (ih hfirst' hsecond').imp Or.inr Or.inr

/-- At most one of the packages is chosen. -/
def AtMostOne (fmris : List PkgFmri) (before after : State) : Prop :=
  Forces before.ids after.clauses fun chosen ↦
    ∀ first ∈ fmris, ∀ second ∈ fmris, first ∈ chosen → second ∈ chosen → first = second

theorem genHighlander_triple (fmris : List PkgFmri) :
    BuildTriple ctx (ctx.addGenerated (genHighlanderClauses fmris)) (AtMostOne fmris) := by
  refine addGenerated_builds (C := fun before clauses ↦ fmris.length = 1 ∨ fmris ⊆ before.ids ∧
    clauses = (pairs (fmris.map (number before.ids))).map fun pair ↦ negated [pair.1, pair.2])
    (fun start hpure ↦ ?_) fun before after clauses hC hsub _ ↦ ?_
  · unfold genHighlanderClauses
    split_ifs with hone
    · exact Program.Triple.pure fun state h ↦ ⟨Or.inl hone, h ▸ Reads.refl ctx _ state⟩
    · refine Program.Triple.bind (getids_triple start.ids fmris (P := fun state ↦ state = start)
        fun _ h ↦ h ▸ rfl) fun idList ↦ Program.Triple.pure ?_
      rintro state ⟨⟨rfl, hids⟩, rfl⟩
      exact ⟨Or.inr ⟨hids, rfl⟩, Reads.refl ctx _ state⟩
  · rcases hC with hone | ⟨hids, rfl⟩
    · intro chosen _ _ first hfirst second hsecond _ _
      obtain ⟨fmri, rfl⟩ := List.length_eq_one_iff.mp hone
      rw [List.mem_singleton.mp hfirst, List.mem_singleton.mp hsecond]
    · intro chosen hchosen hmodels first hfirst second hsecond hfirst' hsecond'
      by_contra hne
      have hclause : negated ([first, second].map (number before.ids)) ∈ after.clauses ∨
          negated ([second, first].map (number before.ids)) ∈ after.clauses :=
        (mem_pairs_map (number before.ids) hfirst hsecond hne).imp
          (fun h ↦ hsub (List.mem_map.mpr ⟨_, h, rfl⟩)) fun h ↦ hsub (List.mem_map.mpr ⟨_, h, rfl⟩)
      have hone : ∃ fmri ∈ [first, second], fmri ∉ chosen := by
        rcases hclause with hclause | hclause
        · exact forces_negated (by simp [hids hfirst, hids hsecond]) hclause chosen hchosen hmodels
        · obtain ⟨fmri, hfmri, hnot⟩ :=
            forces_negated (by simp [hids hfirst, hids hsecond]) hclause chosen hchosen hmodels
          exact ⟨fmri, by simpa [or_comm] using hfmri, hnot⟩
      obtain ⟨fmri, hfmri, hnot⟩ := hone
      rcases List.mem_pair.mp hfmri with rfl | rfl
      · exact hnot hfirst'
      · exact hnot hsecond'

theorem stable_atMostOne (fmris : List PkgFmri) : Stable ctx (AtMostOne fmris) :=
  stable_forces _

/-- A chosen package has its dependency met: a require dependency by a chosen candidate, another one
by every chosen candidate of its name. -/
def DependencyForced (ctx : Context) (fmri : PkgFmri) (da : Dependency) (before after : State) :
    Prop :=
  ∃ named, da.pkgFmri = .ok named ∧ Forces before.ids after.clauses fun chosen ↦ fmri ∈ chosen →
    if da.type = .require then
      ∃ other ∈ chosen, other ∈ ctx.candidates before named.pkgName ∧
        ctx.accepts da.type named other = true
    else ∀ other ∈ chosen, other ∈ ctx.candidates after named.pkgName →
      ctx.accepts da.type named other = true

theorem genDependency_triple (fmri : PkgFmri) (da : Dependency) :
    BuildTriple ctx (ctx.addGenerated (ctx.genDependencyClauses fmri da))
      (DependencyForced ctx fmri da) := by
  refine addGenerated_builds (C := fun before clauses ↦ ∃ named, da.pkgFmri = .ok named ∧
    fmri ∈ before.ids ∧ if da.type = .require then
      ∃ matching, matching = (ctx.candidates before named.pkgName).filter
        (ctx.accepts da.type named) ∧ matching ⊆ before.ids ∧
        clauses = [-(number before.ids fmri : ℤ) :: asserted (matching.map (number before.ids))]
    else ∃ nonMatching, nonMatching = (ctx.candidates before named.pkgName).filter
        (fun other ↦ !ctx.accepts da.type named other) ∧ nonMatching ⊆ before.ids ∧
        clauses = (nonMatching.map (number before.ids)).map fun fid ↦
          negated [number before.ids fmri, fid])
    (fun start hpure ↦ ?_) ?_
  · refine Program.Triple.bind (Program.Triple.weaken (parseDependency_triple hpure da false)
      (fun _ h ↦ h) (fun _ _ h ↦ h) (fun _ _ _ ↦ trivial)) ?_
    rintro ⟨nonMatching, matching⟩
    refine Program.Triple.assume ?_
    rintro ⟨named, hnamed, hmatching, hnonMatching⟩
    by_cases htype : da.type = .require
    · simp only [htype, if_true] at hmatching ⊢
      refine Program.Triple.bind (getid_triple start.ids fmri fun _ h ↦ h.ids) fun fid ↦ ?_
      refine Program.Triple.assume fun hfid ↦ ?_
      refine Program.Triple.bind (getids_triple start.ids matching fun _ h ↦ h.ids) fun fids ↦ ?_
      refine Program.Triple.assume fun hfids ↦ Program.Triple.pure fun state hstate ↦ ?_
      exact ⟨⟨named, hnamed, hfid.2, matching, hmatching, hfids.2, by rw [hfid.1, hfids.1]⟩, hstate⟩
    · simp only [htype, if_false] at hnonMatching ⊢
      refine Program.Triple.bind (getid_triple start.ids fmri fun _ h ↦ h.ids) fun fid ↦ ?_
      refine Program.Triple.assume fun hfid ↦ ?_
      refine Program.Triple.bind (getids_triple start.ids nonMatching fun _ h ↦ h.ids) fun fids ↦ ?_
      refine Program.Triple.assume fun hfids ↦ Program.Triple.pure fun state hstate ↦ ?_
      exact ⟨⟨named, hnamed, hfid.2, nonMatching, hnonMatching, hfids.2, by rw [hfid.1, hfids.1]⟩,
        hstate⟩
  · rintro before after clauses ⟨named, hnamed, hfmri, hclauses⟩ hsub hbuilds
    refine ⟨named, hnamed, ?_⟩
    by_cases htype : da.type = .require
    · simp only [htype, if_true] at hclauses ⊢
      obtain ⟨matching, rfl, hids, rfl⟩ := hclauses
      intro chosen hchosen hmodels hmem
      obtain ⟨other, hother, hothers⟩ :=
        forces_implication hfmri hids (hsub (by simp)) chosen hchosen hmodels hmem
      rw [List.mem_filter] at hother
      exact ⟨other, hothers, hother⟩
    · simp only [htype, if_false] at hclauses ⊢
      obtain ⟨nonMatching, rfl, hids, rfl⟩ := hclauses
      intro chosen hchosen hmodels hmem other hother hcandidate
      by_contra hnot
      have hnonMatching : other ∈ (ctx.candidates before named.pkgName).filter
          fun other ↦ !ctx.accepts da.type named other :=
        List.mem_filter.mpr ⟨hbuilds.candidates hcandidate, by simpa using hnot⟩
      have hclause : negated ([fmri, other].map (number before.ids)) ∈ after.clauses :=
        hsub (List.mem_map.mpr ⟨_, List.mem_map_of_mem hnonMatching, rfl⟩)
      obtain ⟨absent, habsent, hnotMem⟩ :=
        forces_negated (by simp [hfmri, hids hnonMatching]) hclause chosen hchosen hmodels
      rcases List.mem_pair.mp habsent with rfl | rfl
      · exact hnotMem hmem
      · exact hnotMem hother

theorem stable_dependencyForced (fmri : PkgFmri) (da : Dependency) :
    Stable ctx (DependencyForced ctx fmri da) := by
  rintro first before after last hfirst ⟨named, hnamed, hforces⟩ hlast
  refine ⟨named, hnamed, ?_⟩
  rw [hfirst.ids] at hforces
  intro chosen hchosen hmodels hmem
  have hmet := hforces.mono hlast.clauses chosen hchosen hmodels hmem
  split_ifs at hmet ⊢ with htype
  · obtain ⟨other, hother, hcandidate, haccepts⟩ := hmet
    exact ⟨other, hother, hfirst.candidates hcandidate, haccepts⟩
  · exact fun other hother hcandidate ↦ hmet other hother (hlast.candidates hcandidate)

/-- One of the packages is chosen. -/
def OneOf (fmris : List PkgFmri) (before after : State) : Prop :=
  Forces before.ids after.clauses fun chosen ↦ ∃ fmri ∈ fmris, fmri ∈ chosen

theorem genOneOf_triple (fmris : List PkgFmri) :
    BuildTriple ctx (ctx.addGenerated (genOneOfTheseClauses fmris)) (OneOf fmris) := by
  refine addGenerated_builds (C := fun before clauses ↦ fmris ⊆ before.ids ∧
    clauses = [asserted (fmris.map (number before.ids))])
    (fun start hpure ↦ ?_) fun before after clauses hC hsub _ ↦ ?_
  · unfold genOneOfTheseClauses
    split_ifs with hnone
    · exact Program.Triple.throw fun _ _ ↦ trivial
    · refine Program.Triple.bind (getids_triple start.ids fmris (P := fun state ↦ state = start)
        fun _ h ↦ h ▸ rfl) fun fids ↦ Program.Triple.pure ?_
      rintro state ⟨⟨rfl, hids⟩, rfl⟩
      exact ⟨⟨hids, rfl⟩, Reads.refl ctx _ state⟩
  · obtain ⟨hids, rfl⟩ := hC
    exact forces_asserted hids (hsub (by simp))

theorem stable_oneOf (fmris : List PkgFmri) : Stable ctx (OneOf fmris) :=
  stable_forces _

/-! ### All possible packages -/

/-- The actions of a package can be read, and all its dependencies are forced. -/
def PackageForced (ctx : Context) (excludes : Excludes) (fmri : PkgFmri) (before after : State) :
    Prop :=
  ∃ das, ctx.getDependencyActions fmri excludes = .ok das ∧
    ∀ da ∈ das, DependencyForced ctx fmri da before after

theorem stable_packageForced (excludes : Excludes) (fmri : PkgFmri) :
    Stable ctx (PackageForced ctx excludes fmri) := by
  rintro first before after last hfirst ⟨das, hdas, hforced⟩ hlast
  exact ⟨das, hdas, fun da hda ↦
    stable_dependencyForced fmri da first before after last hfirst (hforced da hda) hlast⟩

/-- What the clauses say about the possible packages of one name. -/
def PossibleForced (ctx : Context) (excludes : Excludes) (fmris : List PkgFmri)
    (before after : State) : Prop :=
  AtMostOne fmris before after ∧ ∀ fmri ∈ fmris, PackageForced ctx excludes fmri before after

theorem stable_possibleForced (excludes : Excludes) (fmris : List PkgFmri) :
    Stable ctx (PossibleForced ctx excludes fmris) :=
  fun first before after last hfirst hF hlast ↦
    ⟨stable_atMostOne fmris first before after last hfirst hF.1 hlast, fun fmri hfmri ↦
      stable_packageForced excludes fmri first before after last hfirst (hF.2 fmri hfmri) hlast⟩

theorem addPossible_triple (excludes : Excludes) (fmris : List PkgFmri) :
    BuildTriple ctx (ctx.addPossible excludes fmris) (PossibleForced ctx excludes fmris) := by
  refine Program.Steps.seq (Builds.stepping ctx) (genHighlander_triple fmris)
    (Program.Steps.forEach (Builds.stepping ctx) (stable_packageForced excludes) fun fmri _
      start hpure ↦ ?_)
    (stable_atMostOne fmris) ?_
  · cases hdas : ctx.getDependencyActions fmri excludes with
    | error error => exact Program.Triple.throw fun _ _ ↦ trivial
    | ok das =>
      refine Program.Triple.weaken (Program.Steps.forEach (Builds.stepping ctx)
        (stable_dependencyForced fmri)
        (fun da _ ↦ genDependency_triple fmri da) start hpure) (fun _ h ↦ h) ?_ (fun _ _ h ↦ h)
      exact fun _ state h ↦ ⟨h.1, das, hdas, h.2⟩
  · exact fun first before after last hfirst hF hlast fmri hfmri ↦
      stable_packageForced excludes fmri first before after last hfirst (hF fmri hfmri) hlast

/-- The clauses for all possible packages. -/
theorem addAllPossible_triple (excludes : Excludes) :
    BuildTriple ctx (ctx.addAllPossible excludes) fun before after ↦
      ∀ entry ∈ before.possibleDict, PossibleForced ctx excludes entry.2 before after := by
  intro start hpure
  refine Program.Triple.bind (M := fun found state ↦ found = start ∧ state = start)
    (Program.Triple.get fun _ h ↦ ⟨h, h⟩) fun found ↦ ?_
  refine Program.Triple.assume fun hfound ↦ ?_
  rw [hfound]
  exact Program.Steps.forEach (Builds.stepping ctx) (F := fun entry : String × List PkgFmri ↦
    PossibleForced ctx excludes entry.2)
    (fun entry ↦ stable_possibleForced excludes entry.2)
    (fun entry _ ↦ addPossible_triple excludes entry.2) start hpure

end Building

end Userland.Pkg.Solver
