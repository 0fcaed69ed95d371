import Mathlib.Data.Finset.Card
import Userland.Library.DeltaLog
import Userland.Pkg.Fmri

/-!
# The update log of the search index

`pkg/indexer.py`, `_fast_update`. Between two rebuilds of the search index, the client records which
packages were installed and removed in two sets of texts beside the index, and keeps the set of all
installed packages (`full_fmri`). The two sets are a delta log over the indexed packages
(`DeltaLog`), and executed plans keep the records in line with the image.

A plan that installs the package it removes, as a change of variants or facets does, drops the
package from `full_fmri` (`fastUpdate_reinstall`). These are the only plans that do harm
(`fastUpdate_tracks_iff`).

Scope. The files of the sets are read back as they were written, and the index itself is the set of
the packages it was built for.
-/

set_option autoImplicit false
set_option relaxedAutoImplicit false

namespace Userland.Pkg.Search

open Userland.Library

/-! ### The index files -/

/-- The sets of an indexer that a fast update changes. -/
structure UpdateLog where
  fullFmri : Finset String
  fastAdd : Finset String
  fastRemove : Finset String
deriving DecidableEq

/-- The exceptions of a fast update. -/
inductive IndexError
  | assertionError
  | keyError
deriving DecidableEq

/-- `IndexStoreSet.remove_entity(entity)`: the entity has to be there. -/
def removeEntity (entities : Finset String) (entity : String) : Except IndexError (Finset String) :=
  if entity ∈ entities then .ok (entities.erase entity) else .error .keyError

/-- The part of `_fast_update` for the package that a plan installs. -/
def UpdateLog.addFmri (log : UpdateLog) (fmri : PkgFmri) : Except IndexError UpdateLog :=
  let log := { log with fullFmri := insert (fmri.getFmri true true) log.fullFmri }
  let text := fmri.getFmri true false
  if text ∈ log.fastAdd then .error .assertionError
  else if text ∈ log.fastRemove then do
    let fastRemove ← removeEntity log.fastRemove text
    return { log with fastRemove := fastRemove }
  else .ok { log with fastAdd := insert text log.fastAdd }

/-- The part of `_fast_update` for the package that a plan removes. -/
def UpdateLog.removeFmri (log : UpdateLog) (fmri : PkgFmri) : Except IndexError UpdateLog := do
  let fullFmri ← removeEntity log.fullFmri (fmri.getFmri true true)
  let log := { log with fullFmri := fullFmri }
  let text := fmri.getFmri true false
  if text ∈ log.fastRemove then .error .assertionError
  else if text ∈ log.fastAdd then do
    let fastAdd ← removeEntity log.fastAdd text
    return { log with fastAdd := fastAdd }
  else .ok { log with fastRemove := insert text log.fastRemove }

/-- An executed plan: the package installed, and the package removed. -/
abbrev PlanPair := Option PkgFmri × Option PkgFmri

/-- One round of the loop of `_fast_update`. -/
def UpdateLog.updatePair (log : UpdateLog) (pair : PlanPair) : Except IndexError UpdateLog := do
  let log ← match pair.1 with
    | some fmri => log.addFmri fmri
    | none => .ok log
  match pair.2 with
    | some fmri => log.removeFmri fmri
    | none => .ok log

/-- `_fast_update((filters, pkgplan_list))`. -/
def UpdateLog.fastUpdate (log : UpdateLog) (pkgplanList : List PlanPair) :
    Except IndexError UpdateLog :=
  pkgplanList.foldlM UpdateLog.updatePair log

/-! ### The image -/

/-- Installed packages: one for a name, and the names are valid. -/
structure InstalledSet (fmris : List PkgFmri) : Prop where
  nodup_pkgName : (fmris.map PkgFmri.pkgName).Nodup
  validPkgName : ∀ fmri ∈ fmris, PkgFmri.validPkgName fmri.pkgName.toList = true

/-- A plan that can be executed: what it removes is installed, and what it installs replaces the
installed package of the name, if there is one. -/
structure Executable (installed : List PkgFmri) (pair : PlanPair) : Prop where
  removed : ∀ fmri ∈ pair.2, fmri ∈ installed
  added : ∀ fmri ∈ pair.1, PkgFmri.validPkgName fmri.pkgName.toList = true ∧
    ∀ other ∈ installed, other.pkgName = fmri.pkgName → pair.2 = some other

/-- The installed packages when a plan has been executed. -/
def executed (installed : List PkgFmri) (pair : PlanPair) : List PkgFmri :=
  pair.1.toList ++ installed.filter fun fmri ↦ pair.2 ≠ some fmri

/-- Plans that can be executed one after the other. -/
def ExecutableRun : List PkgFmri → List PlanPair → Prop
  | _, [] => True
  | installed, pair :: rest => Executable installed pair ∧
    ExecutableRun (executed installed pair) rest

/-- The texts of some packages, as a set. -/
def texts (includeScheme : Bool) (fmris : List PkgFmri) : Finset String :=
  (fmris.map (·.getFmri true includeScheme)).toFinset

/-- The index that was just built for some packages. -/
def UpdateLog.built (installed : List PkgFmri) : UpdateLog :=
  ⟨texts true installed, ∅, ∅⟩

/-- The index and its log are in line with the installed packages. -/
structure Tracks (indexed : Finset String) (installed : List PkgFmri) (log : UpdateLog) : Prop where
  fullFmri : log.fullFmri = texts true installed
  represents : DeltaLog.Represents indexed ⟨log.fastAdd, log.fastRemove⟩ (texts false installed)

/-- A plan that installs a package with the text of the one it removes. -/
def Reinstalls (pair : PlanPair) : Prop :=
  ∃ new old, pair = (some new, some old) ∧ new.getFmri true false = old.getFmri true false

theorem tracks_built (installed : List PkgFmri) :
    Tracks (texts false installed) installed (UpdateLog.built installed) :=
  ⟨rfl, DeltaLog.represents_empty _⟩

theorem mem_texts {includeScheme : Bool} {fmris : List PkgFmri} {text : String} :
    text ∈ texts includeScheme fmris ↔ ∃ fmri ∈ fmris, fmri.getFmri true includeScheme = text := by
  simp [texts]

variable {fmri : PkgFmri}

theorem getFmri_mem_texts {includeScheme : Bool} {fmris : List PkgFmri} :
    fmri.getFmri true includeScheme ∈ texts includeScheme fmris ↔
      ∃ other ∈ fmris, other.getFmri true false = fmri.getFmri true false := by
  rw [mem_texts]
  cases includeScheme with
  | false => rfl
  | true => simp only [PkgFmri.getFmri_scheme_inj]

variable {installed : List PkgFmri} {pair : PlanPair}

theorem InstalledSet.executed (h : InstalledSet installed) (hpair : Executable installed pair) :
    InstalledSet (executed installed pair) := by
  have hkept : ((installed.filter fun fmri ↦ pair.2 ≠ some fmri).map PkgFmri.pkgName).Nodup :=
    h.nodup_pkgName.sublist (List.filter_sublist.map _)
  unfold Search.executed
  cases hnew : pair.1 with
  | none => exact ⟨hkept, fun fmri hfmri ↦ h.validPkgName fmri (List.mem_of_mem_filter hfmri)⟩
  | some new =>
    obtain ⟨hvalid, honly⟩ := hpair.added new (hnew ▸ rfl)
    change InstalledSet (new :: installed.filter fun fmri ↦ pair.2 ≠ some fmri)
    constructor
    · rw [List.map_cons]
      refine List.nodup_cons.mpr ⟨fun hmem ↦ ?_, hkept⟩
      obtain ⟨other, hother, hname⟩ := List.mem_map.mp hmem
      rw [List.mem_filter, decide_eq_true_eq] at hother
      exact hother.2 (honly other hother.1 hname)
    · intro fmri hfmri
      rcases List.mem_cons.mp hfmri with rfl | hmem
      · exact hvalid
      · exact h.validPkgName fmri (List.mem_of_mem_filter hmem)

/-! ### One plan -/

section Step

variable {indexed full current : Finset String} {log : UpdateLog}

theorem addFmri_ok (h : DeltaLog.Represents indexed ⟨log.fastAdd, log.fastRemove⟩ current)
    (hnew : fmri.getFmri true false ∉ current) :
    ∃ log', log.addFmri fmri = .ok log' ∧
      log'.fullFmri = insert (fmri.getFmri true true) log.fullFmri ∧
      DeltaLog.Represents indexed ⟨log'.fastAdd, log'.fastRemove⟩
        (insert (fmri.getFmri true false) current) := by
  have hnext := h.insert hnew
  have hadded : fmri.getFmri true false ∉ log.fastAdd := h.notMem_added hnew
  unfold UpdateLog.addFmri
  unfold DeltaLog.insert at hnext
  dsimp only at hnext ⊢
  rw [if_neg hadded]
  by_cases hremoved : fmri.getFmri true false ∈ log.fastRemove
  · rw [if_pos hremoved] at hnext ⊢
    unfold removeEntity
    rw [if_pos hremoved]
    exact ⟨_, rfl, rfl, hnext⟩
  · rw [if_neg hremoved] at hnext ⊢
    exact ⟨_, rfl, rfl, hnext⟩

theorem removeFmri_ok (h : DeltaLog.Represents indexed ⟨log.fastAdd, log.fastRemove⟩ current)
    (hold : fmri.getFmri true false ∈ current) (hfull : fmri.getFmri true true ∈ log.fullFmri) :
    ∃ log', log.removeFmri fmri = .ok log' ∧
      log'.fullFmri = log.fullFmri.erase (fmri.getFmri true true) ∧
      DeltaLog.Represents indexed ⟨log'.fastAdd, log'.fastRemove⟩
        (current.erase (fmri.getFmri true false)) := by
  have hnext := h.erase hold
  have hremoved : fmri.getFmri true false ∉ log.fastRemove := h.notMem_removed hold
  unfold UpdateLog.removeFmri
  unfold DeltaLog.erase at hnext
  dsimp only at hnext ⊢
  have hentity : removeEntity log.fullFmri (fmri.getFmri true true) =
      .ok (log.fullFmri.erase (fmri.getFmri true true)) := if_pos hfull
  rw [hentity]
  by_cases hadded : fmri.getFmri true false ∈ log.fastAdd
  · rw [if_pos hadded] at hnext
    refine ⟨⟨log.fullFmri.erase (fmri.getFmri true true),
      log.fastAdd.erase (fmri.getFmri true false), log.fastRemove⟩, ?_, rfl, hnext⟩
    simp only [bind, Except.bind, if_neg hremoved, if_pos hadded, removeEntity]
    rfl
  · rw [if_neg hadded] at hnext
    refine ⟨⟨log.fullFmri.erase (fmri.getFmri true true), log.fastAdd,
      insert (fmri.getFmri true false) log.fastRemove⟩, ?_, rfl, hnext⟩
    simp only [bind, Except.bind, if_neg hremoved, if_neg hadded]

/-- A package whose text is not among those of the installed packages is added. -/
theorem Tracks.addFmri (h : Tracks indexed installed log)
    (hnew : ∀ other ∈ installed, other.getFmri true false ≠ fmri.getFmri true false) :
    ∃ log', log.addFmri fmri = .ok log' ∧ Tracks indexed (fmri :: installed) log' := by
  have hnotMem : fmri.getFmri true false ∉ texts false installed := by
    rw [getFmri_mem_texts]
    rintro ⟨other, hother, heq⟩
    exact hnew other hother heq
  obtain ⟨log', hlog, hfull, hrepresents⟩ := addFmri_ok h.represents hnotMem
  have htexts : ∀ includeScheme, texts includeScheme (fmri :: installed) =
      insert (fmri.getFmri true includeScheme) (texts includeScheme installed) := by
    intro includeScheme
    rw [texts, List.map_cons, List.toFinset_cons]
    rfl
  exact ⟨log', hlog, by rw [hfull, h.fullFmri, htexts], by rw [htexts]; exact hrepresents⟩

/-- An installed package whose text no other one has is removed. -/
theorem Tracks.removeFmri (h : Tracks indexed installed log) (hold : fmri ∈ installed)
    (honly : ∀ other ∈ installed, other.getFmri true false = fmri.getFmri true false →
      other = fmri) :
    ∃ log', log.removeFmri fmri = .ok log' ∧
      Tracks indexed (installed.filter (· ≠ fmri)) log' := by
  have hmem : ∀ includeScheme, fmri.getFmri true includeScheme ∈ texts includeScheme installed :=
    fun _ ↦ getFmri_mem_texts.mpr ⟨fmri, hold, rfl⟩
  obtain ⟨log', hlog, hfull, hrepresents⟩ :=
    removeFmri_ok h.represents (hmem false) (h.fullFmri ▸ hmem true)
  have hne : ∀ includeScheme, ∀ other ∈ installed, other ≠ fmri ↔
      other.getFmri true includeScheme ≠ fmri.getFmri true includeScheme := by
    intro includeScheme other hother
    refine not_congr ⟨fun heq ↦ heq ▸ rfl, fun heq ↦ honly other hother ?_⟩
    cases includeScheme with
    | false => exact heq
    | true => exact PkgFmri.getFmri_scheme_inj.mp heq
  have htexts : ∀ includeScheme, texts includeScheme (installed.filter (· ≠ fmri)) =
      (texts includeScheme installed).erase (fmri.getFmri true includeScheme) := by
    intro includeScheme
    ext text
    rw [Finset.mem_erase, mem_texts, mem_texts]
    constructor
    · rintro ⟨other, hother, rfl⟩
      rw [List.mem_filter, decide_eq_true_eq] at hother
      exact ⟨(hne includeScheme other hother.1).mp hother.2, other, hother.1, rfl⟩
    · rintro ⟨htext, other, hother, rfl⟩
      exact ⟨other, List.mem_filter.mpr
        ⟨hother, decide_eq_true ((hne includeScheme other hother).mpr htext)⟩, rfl⟩
  exact ⟨log', hlog, by rw [hfull, h.fullFmri, htexts], by rw [htexts]; exact hrepresents⟩

/-- The records follow a plan that installs no text it removes. -/
theorem Tracks.updatePair (h : Tracks indexed installed log)
    (hinstalled : InstalledSet installed) (hpair : Executable installed pair)
    (hdiffer : ¬ Reinstalls pair) :
    ∃ log', log.updatePair pair = .ok log' ∧ Tracks indexed (executed installed pair) log' := by
  obtain ⟨new, old⟩ := pair
  have hsame : ∀ first ∈ installed, ∀ second ∈ installed,
      first.getFmri true false = second.getFmri true false → first = second := by
    intro first hfirst second hsecond heq
    refine List.inj_on_of_nodup_map hinstalled.nodup_pkgName hfirst hsecond ?_
    exact PkgFmri.pkgName_eq_of_getFmri (hinstalled.validPkgName first hfirst)
      (hinstalled.validPkgName second hsecond) heq
  have hnew : ∀ fmri, new = some fmri → ∀ other ∈ installed,
      other.getFmri true false ≠ fmri.getFmri true false := by
    intro fmri hfmri other hother heq
    obtain ⟨hvalid, honly⟩ := hpair.added fmri hfmri
    have hname := PkgFmri.pkgName_eq_of_getFmri (hinstalled.validPkgName other hother) hvalid heq
    have hold : old = some other := honly other hother hname
    exact hdiffer ⟨fmri, other, by rw [hfmri, hold], heq.symm⟩
  unfold UpdateLog.updatePair
  cases hn : new with
  | none =>
    cases ho : old with
    | none => exact ⟨log, rfl, by simpa [executed] using h⟩
    | some removed =>
      subst hn ho
      have hmem := hpair.removed removed rfl
      obtain ⟨log', hlog, htracks⟩ := h.removeFmri hmem fun other hother ↦
        hsame other hother removed hmem
      refine ⟨log', hlog, ?_⟩
      have hexecuted : executed installed (none, some removed) = installed.filter (· ≠ removed) :=
        List.filter_congr fun other _ ↦ by simp [eq_comm]
      rw [hexecuted]
      exact htracks
  | some added =>
    obtain ⟨middle, hmiddle, htracks⟩ := h.addFmri (hnew added hn)
    cases ho : old with
    | none =>
      refine ⟨middle, ?_, by simpa [executed] using htracks⟩
      simp only [hmiddle]
      rfl
    | some removed =>
      have hmem := hpair.removed removed ho
      have honly : ∀ other ∈ added :: installed,
          other.getFmri true false = removed.getFmri true false → other = removed := by
        intro other hother heq
        rcases List.mem_cons.mp hother with rfl | hother
        · exact absurd heq.symm (hnew other hn removed hmem)
        · exact hsame other hother removed hmem heq
      obtain ⟨log', hlog, hlast⟩ := htracks.removeFmri (List.mem_cons_of_mem _ hmem) honly
      refine ⟨log', ?_, ?_⟩
      · simp only [hmiddle]
        exact hlog
      · have hne : added ≠ removed := fun heq ↦ hnew added hn removed hmem (heq ▸ rfl)
        have hexecuted : executed installed (some added, some removed) =
            (added :: installed).filter (· ≠ removed) := by
          rw [List.filter_cons_of_pos (by simpa using hne)]
          exact congrArg (added :: ·) (List.filter_congr fun other _ ↦ by simp [eq_comm])
        rw [hexecuted]
        exact hlast

/-- Removing a package takes its text out of `full_fmri`. -/
theorem fullFmri_of_removeFmri {log' : UpdateLog} (h : log.removeFmri fmri = .ok log') :
    log'.fullFmri = log.fullFmri.erase (fmri.getFmri true true) := by
  unfold UpdateLog.removeFmri removeEntity at h
  by_cases hfull : fmri.getFmri true true ∈ log.fullFmri
  · simp only [if_pos hfull, bind, Except.bind] at h
    split_ifs at h with hremoved hadded
    · cases h
      rfl
    · cases h
      rfl
  · rw [if_neg hfull] at h
    cases h

/-- A plan that installs the text it removes leaves `full_fmri` without it, or fails. -/
theorem not_tracks_of_reinstalls (hreinstalls : Reinstalls pair) :
    ¬ ∃ log', log.updatePair pair = .ok log' ∧ Tracks indexed (executed installed pair) log' := by
  obtain ⟨new, old, rfl, heq⟩ := hreinstalls
  rintro ⟨log', hlog, htracks⟩
  have hfull : old.getFmri true true ∈ log'.fullFmri := by
    rw [htracks.fullFmri, getFmri_mem_texts]
    exact ⟨new, List.mem_append_left _ (by simp), heq⟩
  unfold UpdateLog.updatePair at hlog
  cases hmiddle : log.addFmri new with
  | error error =>
    simp only [hmiddle] at hlog
    cases hlog
  | ok middle =>
    simp only [hmiddle] at hlog
    rw [fullFmri_of_removeFmri hlog] at hfull
    exact Finset.notMem_erase _ _ hfull

end Step

/-! ### Runs -/

theorem fastUpdate_cons (log : UpdateLog) (pair : PlanPair) (rest : List PlanPair) :
    log.fastUpdate (pair :: rest) = (log.updatePair pair >>= fun log ↦ log.fastUpdate rest) :=
  rfl

/-- In every state of a run the update succeeds and the records are in line with the image. -/
def TracksThroughout (indexed : Finset String) (installed : List PkgFmri) (log : UpdateLog)
    (pairs : List PlanPair) : Prop :=
  ∀ done rest, pairs = done ++ rest → ∃ log', log.fastUpdate done = .ok log' ∧
    Tracks indexed (done.foldl executed installed) log'

theorem tracksThroughout_cons {indexed : Finset String} {log : UpdateLog}
    {rest : List PlanPair} (h : Tracks indexed installed log) :
    TracksThroughout indexed installed log (pair :: rest) ↔
      ∃ log', log.updatePair pair = .ok log' ∧ Tracks indexed (executed installed pair) log' ∧
        TracksThroughout indexed (executed installed pair) log' rest := by
  constructor
  · intro hall
    obtain ⟨log', hlog, htracks⟩ := hall [pair] rest rfl
    rw [fastUpdate_cons] at hlog
    have hupdate : log.updatePair pair = .ok log' := by
      cases hstep : log.updatePair pair with
      | error error =>
        rw [hstep] at hlog
        cases hlog
      | ok next =>
        rw [hstep] at hlog
        exact hlog
    refine ⟨log', hupdate, htracks, fun done rest' heq ↦ ?_⟩
    obtain ⟨last, hlast, hlastTracks⟩ := hall (pair :: done) rest' (by rw [heq]; rfl)
    rw [fastUpdate_cons, hupdate] at hlast
    exact ⟨last, hlast, hlastTracks⟩
  · rintro ⟨log', hupdate, -, hrest⟩ done rest' heq
    cases done with
    | nil => exact ⟨log, rfl, h⟩
    | cons first done =>
      obtain ⟨rfl, hdone⟩ := List.cons.inj heq
      obtain ⟨last, hlast, htracks⟩ := hrest done rest' hdone
      exact ⟨last, by rw [fastUpdate_cons, hupdate]; exact hlast, htracks⟩

theorem tracksThroughout_iff {indexed : Finset String} {log : UpdateLog}
    (h : Tracks indexed installed log) (hinstalled : InstalledSet installed) {pairs : List PlanPair}
    (hrun : ExecutableRun installed pairs) :
    TracksThroughout indexed installed log pairs ↔ ∀ pair ∈ pairs, ¬ Reinstalls pair := by
  induction pairs generalizing installed log with
  | nil =>
    refine iff_of_true (fun done rest heq ↦ ?_) (by simp)
    obtain ⟨rfl, -⟩ := List.append_eq_nil_iff.mp heq.symm
    exact ⟨log, rfl, h⟩
  | cons pair rest ih =>
    obtain ⟨hpair, hrest⟩ := hrun
    rw [tracksThroughout_cons h, List.forall_mem_cons]
    constructor
    · rintro ⟨log', hupdate, htracks, hthroughout⟩
      exact ⟨fun hreinstalls ↦ not_tracks_of_reinstalls hreinstalls ⟨log', hupdate, htracks⟩,
        (ih htracks (hinstalled.executed hpair) hrest).mp hthroughout⟩
    · rintro ⟨hdiffer, hothers⟩
      obtain ⟨log', hupdate, htracks⟩ := h.updatePair hinstalled hpair hdiffer
      exact ⟨log', hupdate, htracks,
        (ih htracks (hinstalled.executed hpair) hrest).mpr hothers⟩

/-- Assumes: an index built for installed packages, and plans that can be executed one after the
other. The records are in line with the image in every state exactly when no plan installs a package
with the text of the one it removes. -/
theorem fastUpdate_tracks_iff {installed : List PkgFmri} (hinstalled : InstalledSet installed)
    {pairs : List PlanPair} (hrun : ExecutableRun installed pairs) :
    TracksThroughout (texts false installed) installed (UpdateLog.built installed) pairs ↔
      ∀ pair ∈ pairs, ¬ Reinstalls pair :=
  tracksThroughout_iff (tracks_built installed) hinstalled hrun

/-- An upgrade of `app` is recorded. -/
theorem fastUpdate_tracks_upgrade :
    TracksThroughout (texts false [.plain "p" "app" 1]) [.plain "p" "app" 1]
      (UpdateLog.built [.plain "p" "app" 1]) [(some (.plain "p" "app" 2),
        some (.plain "p" "app" 1))] := by
  have hexecutable : Executable [.plain "p" "app" 1]
      (some (.plain "p" "app" 2), some (.plain "p" "app" 1)) := by
    constructor
    · rintro fmri hfmri
      obtain rfl : PkgFmri.plain "p" "app" 1 = fmri := Option.some_inj.mp hfmri
      exact List.mem_singleton.mpr rfl
    · rintro fmri hfmri
      obtain rfl : PkgFmri.plain "p" "app" 2 = fmri := Option.some_inj.mp hfmri
      exact ⟨by decide, fun other hother _ ↦ by rw [List.mem_singleton.mp hother]⟩
  have hrun : ExecutableRun [.plain "p" "app" 1]
      [(some (.plain "p" "app" 2), some (.plain "p" "app" 1))] := ⟨hexecutable, trivial⟩
  refine (fastUpdate_tracks_iff ⟨by decide, by decide⟩ hrun).mpr ?_
  rintro pair hpair ⟨new, old, rfl, heq⟩
  obtain ⟨hnew, hold⟩ := Prod.mk.inj (List.mem_singleton.mp hpair)
  rw [Option.some_inj.mp hnew, Option.some_inj.mp hold] at heq
  exact absurd heq (by decide)

/-- A change of variants executes a plan from `app` to `app`. Afterwards `full_fmri` is empty, and
when `app` was installed since the index was built, the update fails. -/
theorem fastUpdate_reinstall :
    InstalledSet [.plain "p" "app" 1] ∧
    ExecutableRun [.plain "p" "app" 1] [(some (.plain "p" "app" 1), some (.plain "p" "app" 1))] ∧
    (UpdateLog.built [.plain "p" "app" 1]).fastUpdate
        [(some (.plain "p" "app" 1), some (.plain "p" "app" 1))] = .ok ⟨∅, ∅, ∅⟩ ∧
      texts true [.plain "p" "app" 1] ≠ ∅ ∧
    ExecutableRun [] [(some (.plain "p" "app" 1), none),
      (some (.plain "p" "app" 1), some (.plain "p" "app" 1))] ∧
    (UpdateLog.built []).fastUpdate [(some (.plain "p" "app" 1), none),
      (some (.plain "p" "app" 1), some (.plain "p" "app" 1))] = .error .assertionError := by
  have hexecutable : Executable [.plain "p" "app" 1]
      (some (.plain "p" "app" 1), some (.plain "p" "app" 1)) := by
    constructor
    · rintro fmri hfmri
      obtain rfl : PkgFmri.plain "p" "app" 1 = fmri := Option.some_inj.mp hfmri
      exact List.mem_singleton.mpr rfl
    · rintro fmri hfmri
      obtain rfl : PkgFmri.plain "p" "app" 1 = fmri := Option.some_inj.mp hfmri
      exact ⟨by decide, fun other hother _ ↦ by rw [List.mem_singleton.mp hother]⟩
  refine ⟨⟨by decide, by decide⟩, ⟨hexecutable, trivial⟩, by decide, by decide, ?_, by decide⟩
  refine ⟨⟨by simp, ?_⟩, hexecutable, trivial⟩
  rintro fmri hfmri
  obtain rfl : PkgFmri.plain "p" "app" 1 = fmri := Option.some_inj.mp hfmri
  exact ⟨by decide, by simp⟩

/-! ### Rebuilding the index -/

/-- The packages an index was built for, and its log. -/
structure SearchIndex where
  indexed : Finset String
  log : UpdateLog

/-- `MAX_ADDED_NUMBER_PACKAGES`. -/
def maxAddedNumberPackages : ℕ := 20

/-- `client_update_index(pkgplan_list, image)`, where `installed` are the packages of the image:
when too many packages were added, the index is built again. The set of all packages is kept in
memory. -/
def SearchIndex.clientUpdateIndex (index : SearchIndex) (pkgplanList : List PlanPair)
    (installed : List PkgFmri) : Except IndexError SearchIndex := do
  let log ← index.log.fastUpdate pkgplanList
  if maxAddedNumberPackages < log.fastAdd.card then
    return ⟨texts false installed, ⟨log.fullFmri ∪ texts true installed, ∅, ∅⟩⟩
  return ⟨index.indexed, log⟩

/-- Plans are executed, and the index is updated after each of them. -/
def SearchIndex.afterPlans : SearchIndex → List PkgFmri → List (List PlanPair) →
    Except IndexError SearchIndex
  | index, _, [] => .ok index
  | index, installed, pairs :: plans =>
    (index.clientUpdateIndex pairs (pairs.foldl executed installed)).bind fun next ↦
      next.afterPlans (pairs.foldl executed installed) plans

theorem executableRun_append {pairs rest : List PlanPair} :
    ExecutableRun installed (pairs ++ rest) ↔
      ExecutableRun installed pairs ∧ ExecutableRun (pairs.foldl executed installed) rest := by
  induction pairs generalizing installed with
  | nil => exact iff_of_eq (true_and _).symm
  | cons pair pairs ih => exact (and_congr_right' ih).trans and_assoc.symm

theorem installedSet_foldl (h : InstalledSet installed) {pairs : List PlanPair}
    (hrun : ExecutableRun installed pairs) : InstalledSet (pairs.foldl executed installed) := by
  induction pairs generalizing installed with
  | nil => exact h
  | cons pair pairs ih => exact ih (h.executed hrun.1) hrun.2

theorem clientUpdateIndex_tracks {index : SearchIndex}
    (h : Tracks index.indexed installed index.log) (hinstalled : InstalledSet installed)
    {pairs : List PlanPair} (hrun : ExecutableRun installed pairs)
    (hdiffer : ∀ pair ∈ pairs, ¬ Reinstalls pair) :
    ∃ next, index.clientUpdateIndex pairs (pairs.foldl executed installed) = .ok next ∧
      Tracks next.indexed (pairs.foldl executed installed) next.log := by
  obtain ⟨log, hlog, htracks⟩ := (tracksThroughout_iff h hinstalled hrun).mpr hdiffer pairs []
    (List.append_nil pairs).symm
  unfold SearchIndex.clientUpdateIndex
  rw [hlog]
  by_cases hmany : maxAddedNumberPackages < log.fastAdd.card
  · refine ⟨_, if_pos hmany, ?_, DeltaLog.represents_empty _⟩
    rw [htracks.fullFmri, Finset.union_self]
  · exact ⟨_, if_neg hmany, htracks⟩

/-- Assumes: an index in line with the image, and plans that can be executed, none of which installs
a package with the text of the one it removes. However often the index is built again on the way, it
is in line with the image in the end. -/
theorem afterPlans_tracks {index : SearchIndex} {installed : List PkgFmri}
    (h : Tracks index.indexed installed index.log) (hinstalled : InstalledSet installed)
    {plans : List (List PlanPair)} (hrun : ExecutableRun installed plans.flatten)
    (hdiffer : ∀ pair ∈ plans.flatten, ¬ Reinstalls pair) :
    ∃ last, index.afterPlans installed plans = .ok last ∧
      Tracks last.indexed (plans.flatten.foldl executed installed) last.log := by
  induction plans generalizing index installed with
  | nil => exact ⟨index, rfl, h⟩
  | cons pairs plans ih =>
    rw [List.flatten_cons] at hrun hdiffer ⊢
    obtain ⟨hpairs, hplans⟩ := executableRun_append.mp hrun
    rw [List.forall_mem_append] at hdiffer
    obtain ⟨next, hnext, htracks⟩ := clientUpdateIndex_tracks h hinstalled hpairs hdiffer.1
    obtain ⟨last, hlast, hends⟩ :=
      ih htracks (installedSet_foldl hinstalled hpairs) hplans hdiffer.2
    rw [List.foldl_append]
    exact ⟨last, by rw [SearchIndex.afterPlans, hnext]; exact hlast, hends⟩

/-- `app` is installed, and then replaced by another version. -/
theorem afterPlans_tracks_upgrade : ∃ last,
    (⟨∅, UpdateLog.built []⟩ : SearchIndex).afterPlans [] [[(some (.plain "p" "app" 1), none)],
      [(some (.plain "p" "app" 2), some (.plain "p" "app" 1))]] = .ok last ∧
    Tracks last.indexed [.plain "p" "app" 2] last.log := by
  have hempty : InstalledSet [] := ⟨by simp, by simp⟩
  refine afterPlans_tracks (tracks_built []) hempty ⟨⟨by simp, ?_⟩, ⟨?_, ?_⟩, trivial⟩ ?_
  · rintro fmri hfmri
    obtain rfl : PkgFmri.plain "p" "app" 1 = fmri := Option.some_inj.mp hfmri
    exact ⟨by decide, by simp⟩
  · rintro fmri hfmri
    obtain rfl : PkgFmri.plain "p" "app" 1 = fmri := Option.some_inj.mp hfmri
    exact List.mem_singleton.mpr rfl
  · rintro fmri hfmri
    obtain rfl : PkgFmri.plain "p" "app" 2 = fmri := Option.some_inj.mp hfmri
    exact ⟨by decide, fun other hother _ ↦ by rw [List.mem_singleton.mp hother]⟩
  · rintro pair hpair ⟨new, old, rfl, heq⟩
    rcases List.mem_cons.mp hpair with hpair | hpair
    · cases (Prod.mk.inj hpair).2
    · obtain ⟨hnew, hold⟩ := Prod.mk.inj (List.mem_singleton.mp hpair)
      rw [Option.some_inj.mp hnew, Option.some_inj.mp hold] at heq
      exact absurd heq (by decide)

end Userland.Pkg.Search
