import Userland.Pkg.FileLayout.FileManager

/-!
# Files are kept

Whatever steps of lookups and insertions come after each other, each of them is a change in
`Persists`: what the paths of a hash hold is the content of one of its insertions, and a hash that
has a file keeps one (`store_keeps_files`). A lookup returns the file unless another process moves
it away in the meantime, which no process does once it is at the path of the first layout.
-/

set_option autoImplicit false
set_option relaxedAutoImplicit false

namespace Userland.Pkg.FileLayout

open Userland.Library

variable {Hash Content Name : Type} [DecidableEq Name]

/-! ### What every step keeps -/

section Facts

variable (layouts : Layouts Hash Name) (Good : Hash → Content → Prop)

/-- What the paths of a hash hold is content of the hash, and no directory. -/
def Tidy (store : Store Content Name) : Prop :=
  ∀ hash path, path ∈ layouts.paths hash →
    (∀ content, store.files.lookup path = some content → Good hash content) ∧ path ∉ store.dirs

/-- A file is stored for the hash. -/
def Stored (hash : Hash) (store : Store Content Name) : Prop :=
  ∃ path ∈ layouts.paths hash, store.has path = true

/-- A path outside the layouts. -/
def Outside (path : Path Name) : Prop :=
  ∀ hash path', path' ∈ layouts.paths hash → ¬ path <:+ path'

/-- The changes that the steps of lookups and insertions make. -/
structure Persists (before after : Store Content Name) : Prop where
  tidy : Tidy layouts Good before → Tidy layouts Good after
  sources : ∀ path, Outside layouts path → ∀ content, after.files.lookup path = some content →
    before.files.lookup path = some content
  stored : ∀ hash, Stored layouts hash before → Stored layouts hash after
  primary : ∀ hash, before.has (layouts.primary hash) = true →
    after.has (layouts.primary hash) = true

/-- No file of the hash is taken from its path. -/
def Keeps (hash : Hash) (before after : Store Content Name) : Prop :=
  ∀ path ∈ layouts.paths hash, before.has path = true → after.has path = true

/-- What a process relies on. Where it is `quiet`, the others do not move the file of the hash. -/
def relyOn (quiet : Prop) (hash : Hash) (before after : Store Content Name) : Prop :=
  Persists layouts Good before after ∧ (quiet → Keeps layouts hash before after)

variable {layouts Good}

theorem persists_changes : Changes (Persists layouts Good) where
  refl _ := ⟨id, fun _ _ _ h ↦ h, fun _ h ↦ h, fun _ h ↦ h⟩
  trans h h' := ⟨h'.tidy ∘ h.tidy, fun path hpath content hcontent ↦
    h.sources path hpath content (h'.sources path hpath content hcontent),
    fun hash hstored ↦ h'.stored hash (h.stored hash hstored),
    fun hash hprimary ↦ h'.primary hash (h.primary hash hprimary)⟩

theorem relyOn_changes {quiet : Prop} {hash : Hash} :
    Changes (relyOn layouts Good quiet hash) where
  refl state := ⟨persists_changes.refl state, fun _ _ _ h ↦ h⟩
  trans h h' := ⟨persists_changes.trans h.1 h'.1, fun hquiet path hpath hhas ↦
    h'.2 hquiet path hpath (h.2 hquiet path hpath hhas)⟩

/-- A step that leaves the files alone, and makes no directory of a path of a layout. -/
theorem persists_of_files_eq {before after : Store Content Name}
    (hfiles : after.files = before.files)
    (hdirs : ∀ hash path, path ∈ layouts.paths hash → path ∉ before.dirs → path ∉ after.dirs) :
    Persists layouts Good before after ∧ ∀ hash, Keeps layouts hash before after := by
  have hhas : ∀ path, after.has path = before.has path := fun path ↦ by
    rw [Store.has, Store.has, hfiles]
  refine ⟨⟨fun htidy hash path hpath ↦ ?_, fun path _ content hcontent ↦ ?_, fun hash hstored ↦ ?_,
    fun hash hprimary ↦ ?_⟩, fun hash path _ h ↦ ?_⟩
  · rw [hfiles]
    exact ⟨(htidy hash path hpath).1, hdirs hash path hpath (htidy hash path hpath).2⟩
  · rwa [hfiles] at hcontent
  · obtain ⟨path, hpath, h⟩ := hstored
    exact ⟨path, hpath, (hhas path).trans h⟩
  · exact (hhas _).trans hprimary
  · exact (hhas path).trans h

/-- The file of a hash, or a new one for it, is moved to a path of the hash. -/
theorem persists_rename {before : Store Content Name} {hash : Hash} {src dst : Path Name}
    {content : Content}
    (hcontent : before.files.lookup src = some content) (hgood : Good hash content)
    (hdst : dst ∈ layouts.paths hash) (hne : src ≠ dst)
    (hsrc : Outside layouts src ∨ src ∈ layouts.paths hash ∧ src ≠ layouts.primary hash) :
    Persists layouts Good before
      { before with files := Dict.set (Dict.erase before.files src) dst content } := by
  have hself : (Dict.set (Dict.erase before.files src) dst content).lookup dst = some content :=
    Dict.lookup_set_self ..
  have hgone : (Dict.set (Dict.erase before.files src) dst content).lookup src = none := by
    rw [Dict.lookup_set_of_ne _ hne, Dict.lookup_erase_self]
  have hother : ∀ path, path ≠ src → path ≠ dst →
      (Dict.set (Dict.erase before.files src) dst content).lookup path =
          before.files.lookup path := by
    intro path hpsrc hpdst
    rw [Dict.lookup_set_of_ne _ hpdst, Dict.lookup_erase_of_ne _ hpsrc]
  have hhas : ∀ path, path ≠ src → before.has path = true →
      (Store.mk (Dict.set (Dict.erase before.files src) dst content) before.dirs).has path =
          true := by
    intro path hpsrc h
    by_cases hpdst : path = dst
    · rw [hpdst, Store.has, hself]
      rfl
    · rw [Store.has, hother path hpsrc hpdst]
      exact h
  refine ⟨fun htidy hash' path hpath ↦ ⟨fun found hfound ↦ ?_, (htidy hash' path hpath).2⟩,
    fun path hpath found hfound ↦ ?_, fun hash' hstored ↦ ?_, fun hash' hprimary ↦ ?_⟩
  · by_cases hpdst : path = dst
    · subst hpdst
      rw [hself, Option.some.injEq] at hfound
      rw [← hfound, layouts.unique hpath hdst]
      exact hgood
    · by_cases hpsrc : path = src
      · rw [hpsrc, hgone] at hfound
        cases hfound
      · rw [hother path hpsrc hpdst] at hfound
        exact (htidy hash' path hpath).1 found hfound
  · have hpdst : path ≠ dst := fun heq ↦ hpath hash dst hdst (heq ▸ List.suffix_refl _)
    by_cases hpsrc : path = src
    · rw [hpsrc, hgone] at hfound
      cases hfound
    · rwa [hother path hpsrc hpdst] at hfound
  · obtain ⟨path, hpath, h⟩ := hstored
    by_cases hpsrc : path = src
    · subst hpsrc
      rcases hsrc with hout | ⟨hmem, -⟩
      · exact absurd (List.suffix_refl _) (hout hash' path hpath)
      · refine ⟨dst, layouts.unique hmem hpath ▸ hdst, ?_⟩
        rw [Store.has, hself]
        rfl
    · exact ⟨path, hpath, hhas path hpsrc h⟩
  · refine hhas _ (fun heq ↦ ?_) hprimary
    have hmem : layouts.primary hash' ∈ layouts.paths hash' := List.mem_cons_self
    rcases hsrc with hout | ⟨hsrcMem, hsrcNe⟩
    · exact hout hash' _ hmem (heq ▸ List.suffix_refl _)
    · have hhash := layouts.unique hmem (heq ▸ hsrcMem)
      exact hsrcNe (hhash ▸ heq.symm)

end Facts

/-! ### What the methods ensure -/

section Methods

variable (layouts : Layouts Hash Name) (Good : Hash → Content → Prop) (quiet : Prop) (hash : Hash)

/-- What a part of a lookup or an insertion for the hash ensures. -/
abbrev Meets {α : Type} (P : Store Content Name → Prop) (method : Method Content Name α)
    (Q : α → Store Content Name → Prop) (E : EnvironmentError Name → Store Content Name → Prop) :
    Prop :=
  Ensures run (relyOn layouts Good quiet hash) (Persists layouts Good) P method Q E

/-- What `path` holds is content of the hash, and it holds a file if the others are quiet. -/
structure Held (path : Path Name) (store : Store Content Name) : Prop where
  tidy : Tidy layouts Good store
  good : ∀ content, store.files.lookup path = some content → Good hash content
  held : quiet → store.has path = true

variable {layouts Good quiet hash}

theorem stable_held {path : Path Name}
    (hpath : path ∈ layouts.paths hash ∨ Outside layouts path ∧ ¬ quiet) :
    Stable (relyOn layouts Good quiet hash) (Held layouts Good quiet hash path) := by
  intro state state' hrely h
  have htidy := hrely.1.tidy h.tidy
  rcases hpath with hmem | ⟨hout, hnot⟩
  · exact ⟨htidy, (htidy hash path hmem).1, fun hquiet ↦ hrely.2 hquiet path hmem (h.held hquiet)⟩
  · refine ⟨htidy, fun content hcontent ↦ ?_, fun hquiet ↦ absurd hquiet hnot⟩
    exact h.good content (hrely.1.sources path hout content hcontent)

theorem stable_tidy : Stable (relyOn layouts Good quiet hash) (Tidy layouts Good) :=
  fun _ _ hrely h ↦ hrely.1.tidy h

variable {E : EnvironmentError Name → Store Content Name → Prop}

/-- A step that leaves the files alone keeps what other processes keep. -/
theorem perform_keeps {P : Store Content Name → Prop}
    (hstable : Stable (relyOn layouts Good quiet hash) P) {op : Op Name}
    (hop : ∀ store : Store Content Name, (run op store).2.files = store.files ∧
      ∀ hash path, path ∈ layouts.paths hash → path ∉ store.dirs → path ∉ (run op store).2.dirs) :
    Meets layouts Good quiet hash P
      (Process.perform op : Method Content Name (Response Content Name op)) (fun _ ↦ P) E := by
  refine Ensures.perform hstable (fun _ ↦ hstable) fun store hstore ↦ ?_
  obtain ⟨hpersists, hkeeps⟩ :
      Persists layouts Good store (run op store).2 ∧ ∀ hash,
          Keeps layouts hash store (run op store).2 :=
    persists_of_files_eq (hop store).1 (hop store).2
  exact ⟨hpersists, hstable _ _ ⟨hpersists, fun _ ↦ hkeeps hash⟩ hstore⟩

section Keep

variable {P : Store Content Name → Prop} (hstable : Stable (relyOn layouts Good quiet hash) P)

include hstable

theorem attempt_keeps {α : Type} (result : Except (EnvironmentError Name) α) :
    Meets layouts Good quiet hash P (Process.attempt result : Method Content Name α) (fun _ ↦
      P) fun _ ↦ P :=
  Ensures.attempt hstable (fun _ _ _ h ↦ h) fun _ _ _ h ↦ h

theorem pathExists_keeps (path : Path Name) :
    Meets layouts Good quiet hash P (pathExists path) (fun _ ↦ P) E :=
  perform_keeps hstable fun _ ↦ ⟨rfl, fun _ _ _ h ↦ h⟩

theorem isDirectory_keeps (path : Path Name) :
    Meets layouts Good quiet hash P (isDirectory path) (fun _ ↦ P) E :=
  perform_keeps hstable fun _ ↦ ⟨rfl, fun _ _ _ h ↦ h⟩

/-- A directory of a path of a layout is made. -/
theorem mkdir_keeps {path : Path Name} (hpath : ∀ hash, path ∉ layouts.paths hash) :
    Meets layouts Good quiet hash P (mkdir path) (fun _ ↦ P) fun _ ↦ P := by
  refine Ensures.bind relyOn_changes (perform_keeps hstable fun store ↦ ?_) (attempt_keeps hstable)
  simp only [run]
  by_cases hthere : (store.has path || store.dirs.contains path) = true
  · rw [if_pos hthere]
    exact ⟨rfl, fun _ _ _ h ↦ h⟩
  · rw [if_neg hthere]
    by_cases hparent : store.dirs.contains path.tail = true
    · rw [if_pos hparent]
      refine ⟨rfl, fun hash path' hmem hnot ↦ ?_⟩
      exact List.not_mem_cons_of_ne_of_not_mem (fun heq ↦ hpath hash (heq ▸ hmem)) hnot
    · rw [if_neg hparent]
      exact ⟨rfl, fun _ _ _ h ↦ h⟩

theorem rmdir_keeps (path : Path Name) :
    Meets layouts Good quiet hash P (rmdir path) (fun _ ↦ P) fun _ ↦ P := by
  refine Ensures.bind relyOn_changes (perform_keeps hstable fun store ↦ ?_) (attempt_keeps hstable)
  simp only [run]
  by_cases hthere : (!store.dirs.contains path) = true
  · rw [if_pos hthere]
    exact ⟨rfl, fun _ _ _ h ↦ h⟩
  · rw [if_neg hthere]
    by_cases hoccupied : store.occupied path = true
    · rw [if_pos hoccupied]
      exact ⟨rfl, fun _ _ _ h ↦ h⟩
    · rw [if_neg hoccupied]
      exact ⟨rfl, fun _ _ _ hnot hmem ↦ hnot (List.mem_filter.mp hmem).1⟩

theorem pure_keeps {α : Type} (value : α) :
    Ensures run (relyOn layouts Good quiet hash) (Persists layouts Good) P
      (pure value : Method Content Name α) (fun _ ↦ P) E :=
  Ensures.done hstable fun _ h ↦ h

theorem throw_keeps {α : Type} (error : EnvironmentError Name) {Q : α → Store Content Name → Prop} :
    Meets layouts Good quiet hash P (throw error : Method Content Name α) Q fun _ ↦ P :=
  Ensures.fail hstable fun _ h ↦ h

/-- The directories of a path of a layout are made. -/
theorem makedirs_keeps {dir dest : Path Name} (hdest : dest ∈ layouts.paths hash)
    (hdir : dir <:+ dest)
    (hne : dir ≠ dest) : Meets layouts Good quiet hash P (makedirs dir) (fun _ ↦ P) fun _ ↦ P := by
  have hnot : ∀ {dir : Path Name}, dir <:+ dest → dir ≠ dest → ∀ hash', dir ∉ layouts.paths hash' :=
    fun hsuffix hne hash' hmem ↦ hne (layouts.noDirectory hmem hdest hsuffix)
  induction dir with
  | nil => exact mkdir_keeps hstable (hnot hdir hne)
  | cons name head ih =>
    have hhead : head <:+ dest := (List.suffix_cons name head).trans hdir
    have hshort : head ≠ dest := fun heq ↦ by
      have hlength := hdir.length_le
      rw [← heq, List.length_cons] at hlength
      omega
    refine Ensures.bind relyOn_changes (pathExists_keeps hstable head) fun present ↦ ?_
    have hmkdir := mkdir_keeps hstable (hnot hdir hne)
    cases present with
    | true => exact hmkdir
    | false =>
      refine Ensures.bind relyOn_changes (M := fun _ ↦ P) ?_ fun _ ↦ hmkdir
      refine Ensures.handle relyOn_changes (ih hhead hshort) fun error ↦ ?_
      by_cases herror : error.errno = .exist
      · rw [if_pos herror]
        exact pure_keeps hstable ()
      · rw [if_neg herror]
        exact throw_keeps hstable error

theorem removeParents_keeps (path : Path Name) :
    Meets layouts Good quiet hash P (removeParents path) (fun _ ↦ P) fun _ ↦ P := by
  induction path with
  | nil => exact pure_keeps hstable ()
  | cons name head ih =>
    refine Ensures.bind relyOn_changes (M := fun _ ↦ P) ?_ fun removed ↦ ?_
    · refine Ensures.handle relyOn_changes (M := fun _ ↦ P) ?_ fun _ ↦ pure_keeps hstable false
      exact Ensures.bind relyOn_changes (rmdir_keeps hstable _) fun _ ↦ pure_keeps hstable true
    · cases removed with
      | true => exact ih
      | false => exact pure_keeps hstable ()

theorem removedirs_keeps (path : Path Name) :
    Meets layouts Good quiet hash P (removedirs path) (fun _ ↦ P) fun _ ↦ P :=
  Ensures.bind relyOn_changes (rmdir_keeps hstable path) fun _ ↦
    removeParents_keeps hstable path.tail

theorem tidyUp_keeps (path : Path Name) :
    Meets layouts Good quiet hash P (tidyUp path) (fun _ ↦ P) fun _ ↦ P := by
  refine Ensures.handle relyOn_changes (removedirs_keeps hstable path.tail) fun error ↦ ?_
  by_cases herror : error.errno = .noent ∨ error.errno = .exist
  · rw [if_pos herror]
    exact pure_keeps hstable ()
  · rw [if_neg herror]
    exact throw_keeps hstable error

end Keep

section Move

variable {src dst : Path Name}

/-- A path that a file may be moved from: a new file, or one that is not at the path of the first
layout. -/
def Movable (layouts : Layouts Hash Name) (quiet : Prop) (hash : Hash) (src : Path Name) : Prop :=
  Outside layouts src ∧ ¬ quiet ∨ src ∈ layouts.paths hash ∧ src ≠ layouts.primary hash

omit [DecidableEq Name] in
theorem Movable.ne_primary (hsrc : Movable layouts quiet hash src) :
    src ≠ layouts.primary hash := by
  rcases hsrc with ⟨hout, -⟩ | ⟨-, hne⟩
  · exact fun heq ↦ hout hash _ List.mem_cons_self (heq ▸ List.suffix_refl _)
  · exact hne

theorem Movable.stable (hsrc : Movable layouts quiet hash src) :
    Stable (relyOn layouts Good quiet hash) (Held layouts Good quiet hash src) :=
  stable_held (hsrc.symm.imp_left And.left)

theorem rename_meets (hsrc : Movable layouts quiet hash src) (hdst : dst ∈ layouts.paths hash)
    (hne : src ≠ dst) :
    Meets layouts Good quiet hash (Held layouts Good quiet hash src) (rename src dst)
      (fun _ ↦ Held layouts Good quiet hash dst) fun _ ↦ Held layouts Good quiet hash src := by
  have hstableDst : Stable (relyOn layouts Good quiet hash) (Held layouts Good quiet hash dst) :=
    stable_held (.inl hdst)
  refine Ensures.bind relyOn_changes
    (M := fun result : Except (EnvironmentError Name) Unit ↦ match result with
      | .ok _ => Held layouts Good quiet hash dst
      | .error _ => Held layouts Good quiet hash src)
    (Ensures.perform hsrc.stable (fun result ↦ ?_) fun store hstore ↦ ?_) fun result ↦ ?_
  · match result with
    | .ok _ => exact hstableDst
    | .error _ => exact hsrc.stable
  · simp only [run]
    cases hlookup : store.files.lookup src with
    | none => exact ⟨persists_changes.refl _, hstore⟩
    | some content =>
      dsimp only
      by_cases hdir : store.dirs.contains dst = true
      · rw [if_pos hdir]
        exact ⟨persists_changes.refl _, hstore⟩
      rw [if_neg hdir]
      by_cases hparent : store.dirs.contains dst.tail = true
      · rw [if_pos hparent]
        have hpersists := persists_rename hlookup (hstore.good content hlookup) hdst hne
          (hsrc.imp_left And.left)
        have htidy := hpersists.tidy hstore.tidy
        refine ⟨hpersists, htidy, (htidy hash dst hdst).1, fun _ ↦ ?_⟩
        rw [Store.has, Dict.lookup_set_self]
        rfl
      · rw [if_neg hparent]
        exact ⟨persists_changes.refl _, hstore⟩
  · match result with
    | .ok _ => exact Ensures.done hstableDst fun _ h ↦ h
    | .error _ => exact Ensures.fail hsrc.stable fun _ h ↦ h

/-- A file that is moved is at the new path, or still where it was. -/
theorem moveInto_meets (hsrc : Movable layouts quiet hash src) :
    Meets layouts Good quiet hash (Held layouts Good quiet hash src)
    (moveInto src (layouts.primary hash))
      (fun _ ↦ Held layouts Good quiet hash (layouts.primary hash)) fun _ ↦
      Held layouts Good quiet hash src := by
  have hdest : layouts.primary hash ∈ layouts.paths hash := List.mem_cons_self
  have hrename : Meets layouts Good quiet hash (Held layouts Good quiet hash src)
      (rename src (layouts.primary hash)) (fun _ ↦
        Held layouts Good quiet hash (layouts.primary hash))
      fun _ ↦ Held layouts Good quiet hash src :=
    rename_meets hsrc hdest hsrc.ne_primary
  have hshort : (layouts.primary hash).tail ≠ layouts.primary hash := fun heq ↦ by
    have hpos := List.length_pos_iff.mpr (layouts.named hdest)
    have hlength := congrArg List.length heq
    rw [List.length_tail] at hlength
    omega
  refine Ensures.handle relyOn_changes hrename fun error ↦ ?_
  by_cases hnoent : error.errno = .noent
  · rw [if_pos hnoent]
    refine Ensures.bind relyOn_changes (isDirectory_keeps hsrc.stable _) fun present ↦ ?_
    cases present with
    | true => exact throw_keeps hsrc.stable error
    | false =>
      refine Ensures.bind relyOn_changes (M := fun _ ↦ Held layouts Good quiet hash src) ?_ fun _ ↦
        hrename
      refine Ensures.handle relyOn_changes
        (makedirs_keeps hsrc.stable hdest (List.tail_suffix _) hshort) fun error ↦ ?_
      by_cases hexist : error.errno = .exist ∧ error.filename = (layouts.primary hash).tail
      · rw [if_pos hexist]
        exact pure_keeps hsrc.stable ()
      · rw [if_neg hexist]
        exact throw_keeps hsrc.stable error
  · rw [if_neg hnoent]
    exact throw_keeps hsrc.stable error

end Move

/-! ### Lookups -/

/-- What a search for a file finds, if the others are quiet. -/
def Selected (layouts : Layouts Hash Name) (Good : Hash → Content → Prop) (quiet : Prop)
    (hash : Hash) (selected : Option (Path Name)) (store : Store Content Name) : Prop :=
  match selected with
  | none => Tidy layouts Good store ∧ ¬ quiet
  | some path => path ∈ layouts.paths hash ∧ Held layouts Good quiet hash path store

theorem stable_selected (selected : Option (Path Name)) :
    Stable (relyOn layouts Good quiet hash) (Selected layouts Good quiet hash selected) := by
  intro state state' hrely h
  cases selected with
  | none => exact ⟨stable_tidy _ _ hrely h.1, h.2⟩
  | some path => exact ⟨h.1, stable_held (.inl h.1) _ _ hrely h.2⟩

theorem firstExisting_meets {paths : List (Path Name)}
    (hpaths : ∀ path ∈ paths, path ∈ layouts.paths hash)
    :
    Meets layouts Good quiet hash
      (fun store ↦ Tidy layouts Good store ∧ (quiet → ∃ path ∈ paths, store.has path = true))
      (firstExisting paths) (Selected layouts Good quiet hash) E := by
  have hstable : ∀ paths : List (Path Name), (∀ path ∈ paths, path ∈ layouts.paths hash) →
      Stable (relyOn layouts Good quiet hash)
        (fun store ↦ Tidy layouts Good store ∧ (quiet → ∃ path ∈ paths, store.has path = true)) :=
    fun paths hpaths state state' hrely h ↦ ⟨stable_tidy _ _ hrely h.1, fun hquiet ↦ by
      obtain ⟨path, hpath, hhas⟩ := h.2 hquiet
      exact ⟨path, hpath, hrely.2 hquiet path (hpaths path hpath) hhas⟩⟩
  induction paths with
  | nil =>
    refine Ensures.done (hstable [] hpaths) fun store h ↦ ⟨h.1, fun hquiet ↦ ?_⟩
    obtain ⟨path, hpath, -⟩ := h.2 hquiet
    exact absurd hpath List.not_mem_nil
  | cons first rest ih =>
    rw [List.forall_mem_cons] at hpaths
    refine Ensures.bind relyOn_changes
      (M := fun present store ↦ if present then Selected layouts Good quiet hash (some first) store
        else Tidy layouts Good store ∧ (quiet → ∃ path ∈ rest,
          store.has path = true)) ?_ fun present ↦ ?_
    · refine Ensures.perform (hstable _ (List.forall_mem_cons.mpr hpaths)) (fun present ↦
        ?_) fun store h ↦ ?_
      · cases present with
        | true => exact stable_selected (some first)
        | false => exact hstable rest hpaths.2
      · refine ⟨persists_changes.refl _, ?_⟩
        -- no directory is at the path of a layout
        have hdir : store.dirs.contains first = false := by
          have hnot := (h.1 hash first hpaths.1).2
          exact Bool.eq_false_iff.mpr fun hcontains ↦ hnot (List.contains_iff_mem.mp hcontains)
        simp only [run, hdir, Bool.or_false]
        by_cases hhas : store.has first = true
        · rw [hhas, if_pos rfl]
          exact ⟨hpaths.1, h.1, (h.1 hash first hpaths.1).1, fun _ ↦ hhas⟩
        · rw [if_neg hhas]
          refine ⟨h.1, fun hquiet ↦ ?_⟩
          obtain ⟨path, hpath, hpathHas⟩ := h.2 hquiet
          rcases List.mem_cons.mp hpath with rfl | hpath
          · exact absurd hpathHas hhas
          · exact ⟨path, hpath, hpathHas⟩
    · cases present with
      | true => exact Ensures.done (stable_selected (some first)) fun _ h ↦ h
      | false => exact ih hpaths.2

theorem unlessGone_meets {path : Path Name} (hpath : path ∈ layouts.paths hash)
    :
    Meets layouts Good quiet hash (Held layouts Good quiet hash path) (unlessGone path)
      (Selected layouts Good quiet hash) E := by
  have hstable : Stable (relyOn layouts Good quiet hash) (Held layouts Good quiet hash path) :=
    stable_held (.inl hpath)
  refine Ensures.bind relyOn_changes
    (M := fun present store ↦ Held layouts Good quiet hash path store ∧ (present = false → ¬ quiet))
    (Ensures.perform hstable (fun present ↦ ?_) fun store h ↦ ?_) fun present ↦ ?_
  · exact fun state state' hrely h ↦ ⟨hstable state state' hrely h.1, h.2⟩
  · refine ⟨persists_changes.refl _, h, fun habsent hquiet ↦ ?_⟩
    simp only [run, h.held hquiet, Bool.true_or] at habsent
    cases habsent
  · refine Ensures.done (fun state state' hrely h ↦
      ⟨hstable state state' hrely h.1, h.2⟩) fun store h ↦ ?_
    cases present with
    | true => exact ⟨hpath, h.1⟩
    | false => exact ⟨h.1.tidy, h.2 rfl⟩

theorem migrate_meets {current : Path Name} (hcurrent : current ∈ layouts.paths hash)
    (hne : layouts.primary hash ≠ current) :
    Meets layouts Good quiet hash (Held layouts Good quiet hash current)
      (migrate current (layouts.primary hash)) (Selected layouts Good quiet hash) E := by
  have hdest : layouts.primary hash ∈ layouts.paths hash := List.mem_cons_self
  have hsrc : Movable layouts quiet hash current := .inr ⟨hcurrent, Ne.symm hne⟩
  have hstableDest : Stable (relyOn layouts Good quiet hash)
      (Held layouts Good quiet hash (layouts.primary hash)) :=
    stable_held (.inl hdest)
  refine Ensures.bind relyOn_changes
    (M := fun moved ↦ Held layouts Good quiet hash (if moved then layouts.primary hash
      else current))
    ?_ fun moved ↦ ?_
  · refine Ensures.handle relyOn_changes (M := fun _ ↦ Held layouts Good quiet hash current) ?_
      fun _ ↦ Ensures.done hsrc.stable fun _ h ↦ h
    exact Ensures.bind relyOn_changes (moveInto_meets hsrc) fun _ ↦
      Ensures.done hstableDest fun _ h ↦ h
  · cases moved with
    | true =>
      refine Ensures.handle relyOn_changes (M := fun _ ↦
        Held layouts Good quiet hash (layouts.primary hash)) ?_
        fun _ ↦ unlessGone_meets hdest
      exact Ensures.bind relyOn_changes (removedirs_keeps hstableDest _) fun _ ↦
        Ensures.done hstableDest fun _ h ↦ ⟨hdest, h⟩
    | false => exact unlessGone_meets hcurrent

/-- What a lookup returns is content of the hash. -/
def Holds (layouts : Layouts Hash Name) (Good : Hash → Content → Prop) (hash : Hash)
    (found : Found Content Name) (store : Store Content Name) : Prop :=
  match found with
  | .path path => path ∈ layouts.paths hash ∧
      ∃ content, store.files.lookup path = some content ∧ Good hash content
  | .handle content => Good hash content

/-- The last step of a lookup, where `F` says that the file is there. -/
theorem openFound_meets {P : Store Content Name → Prop} {F : Prop} {path : Path Name}
    (hstable : Stable (relyOn layouts Good quiet hash) P) (hpath : path ∈ layouts.paths hash)
    (h : ∀ store, P store → F → ∃ content, store.files.lookup path = some content ∧
      Good hash content)
    (opener : Bool) :
    Meets layouts Good quiet hash P
      (if opener then do
        let content ← openFile path
        pure (some (.handle content))
      else pure (some (.path path)))
      (fun result store ↦ F → ∃ found, result = some found ∧ Holds layouts Good hash found store)
      fun _ _ ↦ ¬ F := by
  cases opener with
  | false => exact Ensures.done hstable fun store hstore hF ↦ ⟨_, rfl, hpath, h store hstore hF⟩
  | true =>
    refine Ensures.bind relyOn_changes (M := fun content _ ↦ F → Good hash content) ?_ fun content ↦
      Ensures.done (fun _ _ _ h ↦ h) fun _ h hF ↦ ⟨_, rfl, h hF⟩
    refine Ensures.bind relyOn_changes
      (M := fun (result : Except (EnvironmentError Name) Content) _ ↦ match result with
        | .ok content => F → Good hash content
        | .error _ => ¬ F)
      (Ensures.perform hstable (fun _ _ _ _ h ↦ h) fun store hstore ↦ ?_) fun result ↦ ?_
    · simp only [run]
      cases hlookup : store.files.lookup path with
      | none =>
        refine ⟨persists_changes.refl _, fun hF ↦ ?_⟩
        obtain ⟨content, hcontent, -⟩ := h store hstore hF
        rw [hlookup] at hcontent
        cases hcontent
      | some content =>
        refine ⟨persists_changes.refl _, fun hF ↦ ?_⟩
        obtain ⟨content', hcontent, hgood⟩ := h store hstore hF
        rw [hlookup, Option.some.injEq] at hcontent
        exact hcontent ▸ hgood
    · match result with
      | .ok content => exact Ensures.done (fun _ _ _ h ↦ h) fun _ h ↦ h
      | .error error => exact Ensures.fail (fun _ _ _ h ↦ h) fun _ h ↦ h

theorem Held.exists_content {path : Path Name} {store : Store Content Name}
    (h : Held layouts Good quiet hash path store) (hquiet : quiet) :
    ∃ content, store.files.lookup path = some content ∧ Good hash content := by
  obtain ⟨content, hcontent⟩ := Option.isSome_iff_exists.mp (h.held hquiet)
  exact ⟨content, hcontent, h.good content hcontent⟩

/-- A lookup returns the file of a hash that has one, unless another process moves it. -/
theorem lookup_meets (opener : Bool) :
    Meets layouts Good quiet hash
      (fun store ↦ Tidy layouts Good store ∧ (quiet → Stored layouts hash store))
      (lookup layouts hash opener)
      (fun result store ↦ quiet → ∃ found, result = some found ∧
        Holds layouts Good hash found store)
      fun _ _ ↦ ¬ quiet := by
  refine Ensures.bind relyOn_changes
    (M := fun selected store ↦ selected.2 = layouts.primary hash ∧
      Selected layouts Good quiet hash selected.1 store)
    ?_ fun selected ↦ ?_
  · refine Ensures.bind relyOn_changes (firstExisting_meets fun _ h ↦ h) fun selected ↦ ?_
    exact Ensures.done (stable_selected selected) fun _ h ↦ ⟨rfl, h⟩
  · obtain ⟨current, dest⟩ := selected
    refine fun store hstore ↦ ?_
    obtain ⟨hdest, hselected⟩ := hstore
    dsimp only at hdest hselected
    subst hdest
    have hreturn : ∀ path : Option (Path Name),
        Meets layouts Good quiet hash (Selected layouts Good quiet hash path)
          (match path with
            | none => pure none
            | some path =>
              if opener then do
                let content ← openFile path
                pure (some (.handle content))
              else pure (some (.path path)))
          (fun result store ↦ quiet → ∃ found, result = some found ∧
            Holds layouts Good hash found store)
          fun _ _ ↦ ¬ quiet := by
      intro path
      cases path with
      | none => exact Ensures.done (stable_selected none) fun _ h hquiet ↦ absurd hquiet h.2
      | some path =>
        refine fun store h ↦ openFound_meets (stable_held (.inl h.1)) h.1 (fun _ h ↦
          ?_) opener store h.2
        exact h.exists_content
    cases current with
    | none => exact hreturn none store hselected
    | some current =>
      dsimp only
      by_cases hcurrent : layouts.primary hash = current
      · rw [if_pos hcurrent]
        exact hreturn (some current) store hselected
      · rw [if_neg hcurrent]
        exact Ensures.bind relyOn_changes (migrate_meets hselected.1 hcurrent) hreturn
          store hselected.2

/-- A lookup returns the file of a hash that has one at the path of the first layout. -/
theorem lookup_primary_meets (opener : Bool) :
    Meets layouts Good quiet hash
      (fun store ↦ Tidy layouts Good store ∧ store.has (layouts.primary hash) = true)
      (lookup layouts hash opener)
      (fun result store ↦ ∃ found, result = some found ∧ Holds layouts Good hash found store)
      fun _ _ ↦ False := by
  have hdest : layouts.primary hash ∈ layouts.paths hash := List.mem_cons_self
  have hstable : Stable (relyOn layouts Good quiet hash)
      fun store ↦ Tidy layouts Good store ∧ store.has (layouts.primary hash) = true :=
    fun _ _ hrely h ↦ ⟨hrely.1.tidy h.1, hrely.1.primary hash h.2⟩
  refine Ensures.bind relyOn_changes
    (M := fun selected store ↦ selected = (some (layouts.primary hash), layouts.primary hash) ∧
      Tidy layouts Good store ∧ store.has (layouts.primary hash) = true) ?_ fun selected ↦ ?_
  · refine Ensures.bind relyOn_changes
      (M := fun selected store ↦ selected = some (layouts.primary hash) ∧
        Tidy layouts Good store ∧ store.has (layouts.primary hash) = true) ?_ fun selected ↦ ?_
    · refine Ensures.bind relyOn_changes
        (M := fun (present : Bool) store ↦ present = true ∧
          Tidy layouts Good store ∧ store.has (layouts.primary hash) = true) ?_ fun present ↦ ?_
      · refine Ensures.perform hstable (fun _ state state' hrely h ↦
          ⟨h.1, hstable state state' hrely h.2⟩)
          fun store h ↦ ⟨persists_changes.refl _, ?_, h⟩
        simp only [run, h.2, Bool.true_or]
      · intro store h
        obtain ⟨rfl, h⟩ := h
        exact Ensures.done hstable (fun _ h ↦ ⟨rfl, h⟩) store h
    · intro store h
      obtain ⟨rfl, h⟩ := h
      exact Ensures.done hstable (fun _ h ↦ ⟨rfl, h⟩) store h
  · intro store h
    obtain ⟨rfl, h⟩ := h
    dsimp only
    rw [if_pos rfl]
    refine (openFound_meets (F := True) hstable hdest (fun store h _ ↦ ?_) opener).weaken
      (fun _ h ↦ h)
      (fun _ _ h ↦ h trivial) (fun _ _ h ↦ h trivial) store h
    obtain ⟨content, hcontent⟩ := Option.isSome_iff_exists.mp h.2
    exact ⟨content, hcontent, (h.1 hash _ hdest).1 content hcontent⟩

/-! ### Insertions -/

theorem firstExisting_keeps {P : Store Content Name → Prop}
    (hstable : Stable (relyOn layouts Good quiet hash) P) (paths : List (Path Name))
    :
    Meets layouts Good quiet hash P (firstExisting paths)
      (fun selected store ↦ (∀ path, selected = some path → path ∈ paths) ∧ P store) E := by
  induction paths with
  | nil => exact Ensures.done hstable fun _ h ↦
    ⟨fun _ hnone ↦ absurd hnone.symm (Option.some_ne_none _), h⟩
  | cons first rest ih =>
    refine Ensures.bind relyOn_changes (pathExists_keeps hstable first) fun present ↦ ?_
    cases present with
    | true =>
      refine Ensures.done hstable fun _ h ↦ ⟨fun path hpath ↦ ?_, h⟩
      exact Option.some.inj hpath ▸ List.mem_cons_self
    | false =>
      refine ih.weaken (fun _ h ↦ h) (fun _ _ h ↦ ⟨fun path hpath ↦ ?_, h.2⟩) fun _ _ h ↦ h
      exact List.mem_cons_of_mem _ (h.1 path hpath)

/-- An insertion makes no other changes than lookups do. -/
theorem insert_meets {srcPath : Path Name} (hout : Outside layouts srcPath) (hquiet : ¬ quiet) :
    Meets layouts Good quiet hash (Held layouts Good quiet hash srcPath)
    (insert layouts hash srcPath)
      (fun _ _ ↦ True) fun _ _ ↦ True := by
  have hsrc : Movable layouts quiet hash srcPath := .inl ⟨hout, hquiet⟩
  have hdest : layouts.primary hash ∈ layouts.paths hash := List.mem_cons_self
  have hstableDest : Stable (relyOn layouts Good quiet hash)
      (Held layouts Good quiet hash (layouts.primary hash)) := stable_held (.inl hdest)
  have hmove : ∀ {path : Path Name}, Movable layouts quiet hash path →
      Meets layouts Good quiet hash (Held layouts Good quiet hash path)
        (moveInto path (layouts.primary hash))
        (fun _ ↦ Held layouts Good quiet hash (layouts.primary hash)) fun _ _ ↦ True :=
    fun hpath ↦ (moveInto_meets hpath).weaken (fun _ h ↦ h) (fun _ _ h ↦ h) fun _ _ _ ↦ trivial
  have hreturn : Meets layouts Good quiet hash (Held layouts Good quiet hash (layouts.primary hash))
      (pure (some (Found.path (layouts.primary hash))))
        (fun (_ : Option (Found Content Name)) _ ↦ True)
      fun _ _ ↦ True :=
    Ensures.done hstableDest fun _ _ ↦ trivial
  have hfinish : ∀ current : Path Name,
      Meets layouts Good quiet hash (Held layouts Good quiet hash (layouts.primary hash))
        (do tidyUp current; pure (some (Found.path (layouts.primary hash))))
        (fun (_ : Option (Found Content Name)) _ ↦ True) fun _ _ ↦ True :=
    fun current ↦ Ensures.bind relyOn_changes
      ((tidyUp_keeps hstableDest current).weaken (fun _ h ↦ h)
      (fun _ _ h ↦ h) fun _ _ _ ↦ trivial) fun _ ↦ hreturn
  refine Ensures.bind relyOn_changes
    (M := fun selected store ↦ selected.2 = layouts.primary hash ∧
      (∀ path, selected.1 = some path → path ∈ layouts.paths hash) ∧
        Held layouts Good quiet hash srcPath store)
    ?_ fun selected ↦ ?_
  · refine Ensures.bind relyOn_changes (firstExisting_keeps hsrc.stable _) fun selected ↦ ?_
    exact Ensures.done (fun state state' hrely h ↦
      ⟨h.1, hsrc.stable state state' hrely h.2⟩) fun _ h ↦ ⟨rfl, h⟩
  · obtain ⟨current, dest⟩ := selected
    intro store h
    obtain ⟨hprimary, hcurrent, h⟩ := h
    dsimp only at hprimary
    subst hprimary
    cases current with
    | none => exact Ensures.bind relyOn_changes (hmove hsrc) (fun _ ↦ hreturn) store h
    | some current =>
      have hmem := hcurrent current rfl
      dsimp only
      by_cases hne : current ≠ layouts.primary hash
      · rw [if_pos hne]
        have hrename : Meets layouts Good quiet hash (Held layouts Good quiet hash srcPath)
            (rename srcPath current) (fun _ ↦ Held layouts Good quiet hash current) fun _ _ ↦
                True :=
          (rename_meets hsrc hmem fun heq ↦
            hout hash current hmem (heq ▸ List.suffix_refl _)).weaken
            (fun _ h ↦ h) (fun _ _ h ↦ h) fun _ _ _ ↦ trivial
        refine Ensures.bind relyOn_changes hrename (fun _ ↦ ?_) store h
        exact Ensures.bind relyOn_changes (hmove (.inr ⟨hmem, hne⟩)) fun _ ↦ hfinish current
      · rw [if_neg hne]
        exact Ensures.bind relyOn_changes (hmove hsrc) (fun _ ↦ hfinish current) store h

end Methods

end Userland.Pkg.FileLayout
