import Userland.Pkg.FileLayout.Retention

/-!
# File managers that share a store

Any number of processes call `lookup` and `insert` on one store, and their steps come in any order.
A hash with a file keeps one (`store_keeps_files`). A lookup that starts then returns it, provided
that no other process moves the file before the lookup ends, or that it is at the path of the first
layout already. Without that proviso the lookup may return nothing (`race_returns_none`).
-/

set_option autoImplicit false
set_option relaxedAutoImplicit false

namespace Userland.Pkg.FileLayout

open Userland.Library

section Managers

variable {Hash Content Name ι : Type} [DecidableEq Name] [DecidableEq ι]

/-- The processes with the store. -/
abbrev Managers (ι Content Name : Type) :=
  System ι (Op Name) (Response Content Name) (Store Content Name) (EnvironmentError Name)
    (Option (Found Content Name))

variable (layouts : Layouts Hash Name) (Good : Hash → Content → Prop)

/-- The calls that processes make. A new file comes from outside the layouts, and its content is one
of the contents of the hash. -/
def Call (store : Store Content Name) (method : Method Content Name (Option (Found Content Name))) :
    Prop :=
  (∃ hash opener, method = lookup layouts hash opener) ∨
    ∃ hash srcPath, Outside layouts srcPath ∧ srcPath ∉ store.dirs ∧
      (∀ content, store.files.lookup srcPath = some content → Good hash content) ∧
      method = insert layouts hash srcPath

variable {layouts Good}

/-- Without a promise of the others, a process relies on what all their steps keep. -/
theorem relyOn_false_iff {hash : Hash} {before after : Store Content Name} :
    relyOn layouts Good False hash before after ↔ Persists layouts Good before after :=
  ⟨And.left, fun h ↦ ⟨h, False.elim⟩⟩

theorem fulfils_of_call {store : Store Content Name}
    {method : Method Content Name (Option (Found Content Name))}
    (htidy : Tidy layouts Good store) (hcall : Call layouts Good store method) :
    Fulfils run (Persists layouts Good) (Persists layouts Good) (fun _ _ ↦ True) (fun _ _ ↦ True)
      method store := by
  have hrely : ∀ hash : Hash, relyOn layouts Good False hash = Persists layouts Good :=
    fun hash ↦ funext fun before ↦ funext fun after ↦ propext relyOn_false_iff
  rcases hcall with ⟨hash, opener, rfl⟩ | ⟨hash, srcPath, hout, -, hgood, rfl⟩
  · have h : Fulfils run (relyOn layouts Good False hash) (Persists layouts Good) (fun _ _ ↦ True)
        (fun _ _ ↦ True) (lookup layouts hash opener) store :=
      (lookup_meets opener store ⟨htidy, False.elim⟩).weaken (fun _ _ _ ↦ trivial) fun _ _ _ ↦
        trivial
    rwa [hrely] at h
  · have h : Fulfils run (relyOn layouts Good False hash) (Persists layouts Good) (fun _ _ ↦ True)
        (fun _ _ ↦ True) (insert layouts hash srcPath) store :=
      insert_meets hout id store ⟨htidy, hgood, False.elim⟩
    rwa [hrely] at h

/-- A lookup that has come to its end returned the file. -/
def ReturnsFile (layouts : Layouts Hash Name) (Good : Hash → Content → Prop) (hash : Hash)
    (system : Managers ι Content Name) (i : ι) : Prop :=
  ∀ method, system.processes i = some method → method.Finished →
    ∃ found, method = .done (some found) ∧ Holds layouts Good hash found system.state

omit [DecidableEq ι] in
theorem returnsFile_of_fulfils {rely guarantee : Store Content Name → Store Content Name → Prop}
    (hrely : Changes rely) {hash : Hash} {system : Managers ι Content Name} {i : ι}
    {E : EnvironmentError Name → Store Content Name → Prop} (hE : ∀ error store, ¬ E error store)
    (h : ∃ method, system.processes i = some method ∧ Fulfils run rely guarantee
      (fun result store ↦ ∃ found, result = some found ∧ Holds layouts Good hash found store) E
      method system.state) : ReturnsFile layouts Good hash system i := by
  obtain ⟨method', hmethod', hfulfils⟩ := h
  intro method hmethod hfinished
  rw [hmethod, Option.some.injEq] at hmethod'
  subst hmethod'
  cases method with
  | act op next => exact absurd hfinished id
  | fail error => exact absurd (hfulfils _ (hrely.refl _)) (hE error _)
  | done result =>
    obtain ⟨found, rfl, hholds⟩ := hfulfils _ (hrely.refl _)
    exact ⟨found, rfl, hholds⟩

/-- A file that was stored is never lost: at every later moment a path of its hash holds the content
of one of its insertions. A lookup that starts then returns such a content, if no other process
moves the file of the hash before it ends, or if the file was at the path of the first layout. -/
theorem store_keeps_files {initial system : Managers ι Content Name}
    (htidy : Tidy layouts Good initial.state)
    (hnone : ∀ i, initial.processes i = none)
    (hrun : System.Run run (Call layouts Good) initial system)
    {hash : Hash} (hstored : Stored layouts hash system.state) :
    (∀ later, System.Run run (Call layouts Good) system later → ∃ path ∈ layouts.paths hash,
      ∃ content, later.state.files.lookup path = some content ∧ Good hash content) ∧
    ∀ i opener, system.Idle i →
      (∀ later, System.Window run (Call layouts Good) (Keeps layouts hash) i
        (system.call i (lookup layouts hash opener)) later →
        ReturnsFile layouts Good hash later i) ∧
      (system.state.has (layouts.primary hash) = true →
        ∀ later, System.Window run (Call layouts Good) (fun _ _ ↦ True) i
          (system.call i (lookup layouts hash opener)) later →
          ReturnsFile layouts Good hash later i) := by
  have hinitial : initial.Sound run (Persists layouts Good) (Tidy layouts Good) :=
    ⟨htidy, fun i method hmethod ↦ absurd (hmethod.symm.trans (hnone i)) (Option.some_ne_none _)⟩
  have htidyStable : Stable (Persists layouts Good) (Tidy layouts Good) := fun _ _ hchange h ↦
    hchange.tidy h
  have hcall : ∀ (store : Store Content Name) (method :
      Method Content Name (Option (Found Content Name))),
      Tidy layouts Good store → Call layouts Good store method →
      Fulfils run (Persists layouts Good) (Persists layouts Good) (fun _ _ ↦ True) (fun _ _ ↦
          True) method store :=
    fun _ _ ↦ fulfils_of_call
  have hsound := (hrun.sound persists_changes htidyStable hcall hinitial).2
  refine ⟨fun later hlater ↦ ?_, fun i opener hidle ↦ ?_⟩
  · obtain ⟨hpersists, hlaterSound⟩ := hlater.sound persists_changes htidyStable hcall hsound
    obtain ⟨path, hpath, hhas⟩ := hpersists.stored hash hstored
    obtain ⟨content, hcontent⟩ := Option.isSome_iff_exists.mp hhas
    exact ⟨path, hpath, content, hcontent,
      (hlaterSound.invariant hash path hpath).1 content hcontent⟩
  · have hlookup : System.Step run (Call layouts Good) i system
        (system.call i (lookup layouts hash opener)) :=
      .call hidle (.inl ⟨hash, opener, rfl⟩)
    have hstep := hlookup.sound persists_changes htidyStable hcall hsound
    refine ⟨fun later hwindow ↦ ?_, fun hprimary later hwindow ↦ ?_⟩
    · have hfulfils : Fulfils run (relyOn layouts Good True hash) (Persists layouts Good)
          (fun result store ↦ ∃ found, result = some found ∧ Holds layouts Good hash found store)
          (fun _ _ ↦ False) (lookup layouts hash opener) system.state :=
        (lookup_meets opener _ ⟨hsound.invariant, fun _ ↦ hstored⟩).weaken (fun _ _ h ↦ h trivial)
          fun _ _ h ↦ h trivial
      refine returnsFile_of_fulfils relyOn_changes (fun _ _ h ↦ h)
        (hwindow.fulfils persists_changes htidyStable hcall relyOn_changes
          (fun _ _ hpersists hkeeps ↦ ⟨hpersists, fun _ ↦ hkeeps⟩) hstep.2
            System.processes_call_self hfulfils).2
    · have hfulfils : Fulfils run (relyOn layouts Good False hash) (Persists layouts Good)
          (fun result store ↦ ∃ found, result = some found ∧ Holds layouts Good hash found store)
          (fun _ _ ↦ False) (lookup layouts hash opener) system.state :=
        lookup_primary_meets opener _ ⟨hsound.invariant, hprimary⟩
      refine returnsFile_of_fulfils relyOn_changes (fun _ _ h ↦ h)
        (hwindow.fulfils persists_changes htidyStable hcall relyOn_changes
          (fun _ _ hpersists _ ↦ ⟨hpersists, False.elim⟩) hstep.2
            System.processes_call_self hfulfils).2

end Managers

/-! ### A lookup that is overtaken -/

/-- Files of hash `h` are at `0/h`, and were at `1/h`. -/
def twoLayouts : Layouts ℕ ℕ where
  primary hash := [hash, 0]
  others hash := [[hash, 1]]
  named := by
    intro hash path h hnil
    subst hnil
    simp at h
  unique := by
    intro hash hash' path h h'
    simp only [List.mem_cons, List.not_mem_nil, or_false] at h h'
    rcases h with rfl | rfl <;> rcases h' with h' | h' <;> simp_all
  noDirectory := by
    intro hash hash' path path' h h' hsuffix
    refine hsuffix.eq_of_length ?_
    simp only [List.mem_cons, List.not_mem_nil, or_false] at h h'
    rcases h with rfl | rfl <;> rcases h' with rfl | rfl <;> rfl

/-- The file of hash 5 is where the old layout puts it. -/
def oldStore : Managers ℕ Char ℕ where
  state := { files := [([5, 1], 'c')], dirs := [[], [0], [1]] }
  processes _ := none

theorem oldStore_tidy : Tidy twoLayouts (fun _ content ↦ content = 'c') oldStore.state := by
  intro hash path hpath
  refine ⟨fun content hcontent ↦ ?_, fun hdir ↦ ?_⟩
  · have hmem := Dict.mem_of_lookup hcontent
    rw [oldStore, List.mem_singleton, Prod.mk.injEq] at hmem
    exact hmem.2
  · simp only [Layouts.paths, twoLayouts, List.mem_cons, List.not_mem_nil, or_false] at hpath
    simp only [oldStore, List.mem_cons, List.not_mem_nil, or_false] at hdir
    rcases hpath with rfl | rfl <;> simp at hdir

/-- Whatever processes do, the file is kept. Alone, a lookup moves it and returns it. -/
theorem oldStore_lookup :
    (∀ later, System.Run run (Call twoLayouts fun _ content ↦ content = 'c') oldStore later →
      ∃ path ∈ twoLayouts.paths 5, ∃ content, later.state.files.lookup path = some content ∧
      content = 'c') ∧
    ReturnsFile twoLayouts (fun _ content ↦ content = 'c') 5
      (System.schedule run [0, 0, 0, 0, 0] (oldStore.call 0 (lookup twoLayouts 5 true))) 0 := by
  have hstored : Stored twoLayouts 5 oldStore.state := ⟨[5, 1], by decide, rfl⟩
  have hkeeps := store_keeps_files oldStore_tidy (fun _ ↦ rfl) .refl hstored
  refine ⟨hkeeps.1, (hkeeps.2 0 true fun _ h ↦ absurd h.symm (Option.some_ne_none _)).1 _ ?_⟩
  refine Relation.ReflTransGen.mono (fun _ _ h ↦ ?_) _ _ (System.acts_schedule _ _)
  obtain ⟨i, hi, hacts⟩ := h
  have hzero : i = 0 := by simpa using hi
  exact .inl (hzero ▸ hacts)

/-- Two processes look up the hash. The second moves the file after the first has found it, and the
first returns nothing, although the file is there. -/
theorem race_returns_none :
    Stored twoLayouts 5 oldStore.state ∧
      ∃ later : Managers ℕ Char ℕ, Relation.ReflTransGen
        (fun system system' : Managers ℕ Char ℕ ↦ ∃ i ∈ [0, 0, 1, 1, 1, 1, 0, 0, 0],
          System.Acts run i system system')
        ((oldStore.call 0 (lookup twoLayouts 5 false)).call 1 (lookup twoLayouts 5 false)) later ∧
      later.processes 0 = some (.done none) ∧ Stored twoLayouts 5 later.state := by
  refine ⟨⟨[5, 1], by decide, rfl⟩, _, System.acts_schedule [0, 0, 1, 1, 1, 1, 0, 0, 0] _, rfl, ?_⟩
  exact ⟨[5, 0], by decide, rfl⟩

end Userland.Pkg.FileLayout
