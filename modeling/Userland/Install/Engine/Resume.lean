import Mathlib.Logic.Relation
import Userland.Install.Engine.Checkpoints

/-!
# Resuming the install engine

The flags of the checkpoints, the snapshot files and the list in the engine's node record one
history. In every run of registrations and executions, the node lists exactly the completed
checkpoints, and an execution that starts from a completed one first restores the cache as it was
before its last execution (`run_accounts`), when no execution goes on after a checkpoint that
raises, and none executes a checkpoint whose second snapshot has the file name of a completed one. A
checkpoint that raises without stopping the execution is listed as if it were completed
(`failed_is_listed`).
-/

set_option autoImplicit false
set_option relaxedAutoImplicit false

namespace Userland.Install.Engine

open Userland.Library

variable {α δ : Type}

/-! ### Snapshots -/

/-- The file of a snapshot, in the directory for them. -/
def getCacheFilename (cpName : Text) : Text :=
  ".data_cache.".toList ++ cpName

def getCompletedName (cpName : Text) : Text :=
  cpName ++ "-completed".toList

theorem getCacheFilename_injective : Function.Injective getCacheFilename := fun _ _ h ↦
  List.append_cancel_left h

/-- `snapshot(snapname)`. -/
def InstallEngine.snapshot (engine : InstallEngine α δ) (snapname : Text) : InstallEngine α δ :=
  { engine with files := Dict.set engine.files (getCacheFilename snapname) engine.doc }

/-- The list with the data of one checkpoint changed. -/
def updateCpData (name : Text) (change : CheckpointData α → CheckpointData α) :
    List (CheckpointData α) → List (CheckpointData α)
  | [] => []
  | cp :: rest => if cp.name = name then change cp :: rest else cp :: updateCpData name change rest

/-- `snapshot(cp_data=cp_data)`. -/
def InstallEngine.snapshotCpData (engine : InstallEngine α δ) (name : Text) : InstallEngine α δ :=
  { engine.snapshot name with
    checkpoints := updateCpData name (fun cp ↦
      { cp with dataCachePath := some (getCacheFilename name) })
      engine.checkpoints }

variable {cp : CheckpointData α}

theorem updateCpData_append_cons {name : Text} {change : CheckpointData α → CheckpointData α}
    {before after : List (CheckpointData α)}
    (h : name ∉ before.map CheckpointData.name) (hname : cp.name = name) :
    updateCpData name change (before ++ cp :: after) = before ++ change cp :: after := by
  induction before with
  | nil => rw [List.nil_append, updateCpData, if_pos hname, List.nil_append]
  | cons first rest ih =>
    rw [List.map_cons, List.mem_cons, not_or] at h
    rw [List.cons_append, updateCpData, if_neg fun heq ↦ h.1 heq.symm, ih h.2, List.cons_append]

/-! ### Execution -/

/-- The arguments of `execute_checkpoints` with the engine's `stop_on_error`. For each checkpoint,
whether it can be loaded, whether its execution returns rather than raises, and what it leaves of a
cache. -/
structure Execution (α δ : Type) where
  startFrom : Option Text
  pauseBefore : Option Text
  stopOnError : Bool
  loads : Text → Bool
  succeeds : Text → Bool
  change : Text → Doc α δ → δ

inductive Status
  | execSuccess
  | execFailed
  | cpInitFailed
deriving DecidableEq

/-- `checkpoint.execute(dry_run)`. -/
def InstallEngine.executeCheckpoint (engine : InstallEngine α δ) (call : Execution α δ)
    (name : Text) :
    InstallEngine α δ :=
  { engine with
    doc := { engine.doc with rest := call.change name engine.doc }
    history := (name, engine.doc) :: engine.history }

/-- The registration data of an executed checkpoint goes to the engine's node, and its flag is set.
-/
def InstallEngine.recordCheckpoint (engine : InstallEngine α δ) (cpInfo : RegistrationData α)
    (completed : Bool) : InstallEngine α δ :=
  { engine with
    doc := engine.doc.insertChild cpInfo
    checkpoints := updateCpData cpInfo.cpName (fun cp ↦ { cp with completed }) engine.checkpoints }

/-- The loop of `_execute_checkpoints`, with its status and the names of the checkpoints that
failed. -/
def runCheckpoints (call : Execution α δ) :
    Status → List (CheckpointData α) → InstallEngine α δ → InstallEngine α δ × Status × List Text
  | status, [], engine => (engine, status, [])
  | status, cp :: rest, engine =>
    let engine := if status = .execSuccess then engine.snapshotCpData cp.name else engine
    let engine := engine.executeCheckpoint call cp.name
    let completed := call.succeeds cp.name
    if !completed && call.stopOnError then (engine, .execFailed, [cp.name])
    else
      let status := if completed then status else .execFailed
      let engine := engine.recordCheckpoint cp.cpInfo completed
      let engine :=
        if status = .execSuccess then engine.snapshot (getCompletedName cp.name) else engine
      let (engine, status, failed) := runCheckpoints call status rest engine
      (engine, status, if completed then failed else cp.name :: failed)

/-- `_execute_checkpoints`, with `_load_checkpoints`. -/
def InstallEngine.executeLoaded (engine : InstallEngine α δ) (call : Execution α δ)
    (cps : List (CheckpointData α)) : InstallEngine α δ × Status × List Text :=
  match cps.find? fun cp ↦ !call.loads cp.name with
  | some cp => (engine, .cpInitFailed, [cp.name])
  | none => runCheckpoints call .execSuccess cps engine

/-! ### Going back -/

/-- The flags as `_rollback` sets them. -/
def resetCompleted (beforeCp : Text) : Bool → List (CheckpointData α) → List (CheckpointData α)
  | _, [] => []
  | completed, cp :: rest =>
    let completed := if cp.name = beforeCp then false else completed
    { cp with completed } :: resetCompleted beforeCp completed rest

/-- `_rollback`. -/
def InstallEngine.rollback (engine : InstallEngine α δ) (beforeCp : Text) :
    Except Raise (InstallEngine α δ) := do
  let cp ← engine.getCpData beforeCp
  if !cp.completed then
    throw (.rollbackError beforeCp
      "A ZFS dataset is required to rollback to this checkpoint".toList)
  match cp.dataCachePath with
  | none => throw (.rollbackError beforeCp "Checkpoint has no data cache".toList)
  | some cacheFile =>
    match engine.files.lookup cacheFile with
    | none => throw (.noCacheError beforeCp cacheFile)
    | some doc => return { engine with
        doc
        checkpoints := resetCompleted beforeCp true engine.checkpoints }

/-- The first part of `execute_checkpoints`: it goes back to a checkpoint to start from, unless this
is the first that is not completed. -/
def InstallEngine.prepare (engine : InstallEngine α δ) (startFrom : Option Text) :
    Except Raise (InstallEngine α δ) :=
  match startFrom with
  | none => .ok engine
  | some start =>
    if start = [] then .ok engine
    else do
      let cp ← engine.getCpData start
      if engine.getFirstIncomplete.map CheckpointData.name = some cp.name then return engine
      engine.rollback start

/-- The rest of `execute_checkpoints`. -/
def InstallEngine.executeSelected (engine : InstallEngine α δ) (call : Execution α δ) :
    Except Raise (Status × List Text) × InstallEngine α δ :=
  match engine.getExecList call.startFrom call.pauseBefore with
  | .error raised => (.error raised, engine)
  | .ok [] => (.ok (.execSuccess, []), engine)
  | .ok (cp :: rest) =>
    let (engine, result) := engine.executeLoaded call (cp :: rest)
    (.ok result, engine)

/-- `execute_checkpoints`. -/
def InstallEngine.executeCheckpoints (engine : InstallEngine α δ) (call : Execution α δ) :
    Except Raise (Status × List Text) × InstallEngine α δ :=
  match engine.prepare call.startFrom with
  | .error raised => (.error raised, engine)
  | .ok engine => engine.executeSelected call

/-! ### What the records have in common -/

def CheckpointData.incomplete (cp : CheckpointData α) : CheckpointData α :=
  { cp with completed := false }

/-- Of a completed checkpoint that follows `before`, the snapshot is the cache before its last
execution, whose list has the checkpoints of `before`. -/
structure Recorded (engine : InstallEngine α δ) (before : List (CheckpointData α))
    (cp : CheckpointData α) : Prop where
  path : cp.dataCachePath = some (getCacheFilename cp.name)
  snapshot : ∃ doc, engine.history.lookup cp.name = some doc ∧
    engine.files.lookup (getCacheFilename cp.name) = some doc ∧
    doc.listed = before.map CheckpointData.cpInfo

/-- The checkpoints are the completed ones `done` and the others `todo`, and the records agree on
them. -/
structure InstallEngine.Sound (engine : InstallEngine α δ) (done todo : List (CheckpointData α)) :
    Prop where
  split : engine.checkpoints = done ++ todo
  names : (engine.checkpoints.map CheckpointData.name).Nodup
  nonempty : ∀ cp ∈ engine.checkpoints, cp.name ≠ []
  completed : ∀ cp ∈ done, cp.completed = true
  incomplete : ∀ cp ∈ todo, cp.completed = false
  listed : engine.doc.listed = done.map CheckpointData.cpInfo
  recorded : ∀ before cp after, done = before ++ cp :: after → Recorded engine before cp

theorem Recorded.frame {engine engine' : InstallEngine α δ} {before : List (CheckpointData α)}
    (h : Recorded engine before cp)
    (hhistory : engine'.history.lookup cp.name = engine.history.lookup cp.name)
    (hfiles : engine'.files.lookup (getCacheFilename cp.name) =
      engine.files.lookup (getCacheFilename cp.name)) : Recorded engine' before cp := by
  refine ⟨h.path, ?_⟩
  obtain ⟨doc, hlast, hfile, hlisted⟩ := h.snapshot
  exact ⟨doc, hhistory.trans hlast, hfiles.trans hfile, hlisted⟩

namespace InstallEngine.Sound

variable {engine : InstallEngine α δ} {done todo : List (CheckpointData α)} {cp : CheckpointData α}

theorem name_notMem_done (h : engine.Sound done (cp :: todo)) :
    cp.name ∉ done.map CheckpointData.name := by
  have hnames := h.names
  rw [h.split, List.map_append, List.map_cons] at hnames
  exact fun hmem ↦ (List.nodup_append.mp hnames).2.2 _ hmem _ List.mem_cons_self rfl

theorem name_ne_of_mem_done (h : engine.Sound done (cp :: todo)) {other : CheckpointData α}
    (hother : other ∈ done) : other.name ≠ cp.name := fun heq ↦
  h.name_notMem_done (heq ▸ List.mem_map_of_mem hother)

/-- A change of the next checkpoint's data that keeps its name and its flag. -/
theorem updateNext (h : engine.Sound done (cp :: todo)) {engine' : InstallEngine α δ}
    {cp' : CheckpointData α} (hcps : engine'.checkpoints = done ++ cp' :: todo)
    (hname : cp'.name = cp.name) (hcompleted : cp'.completed = false)
    (hlisted : engine'.doc.listed = engine.doc.listed)
    (hrecorded : ∀ before other, other ∈ done → Recorded engine before other →
      Recorded engine' before other) : engine'.Sound done (cp' :: todo) where
  split := hcps
  names := by
    have hnames := h.names
    rw [h.split, List.map_append, List.map_cons] at hnames
    rw [hcps, List.map_append, List.map_cons, hname]
    exact hnames
  nonempty := by
    intro other hother
    have hold := h.nonempty
    rw [h.split] at hold
    rw [hcps] at hother
    rcases List.mem_append.mp hother with hother | hother
    · exact hold other (List.mem_append_left _ hother)
    · rcases List.mem_cons.mp hother with rfl | hother
      · rw [hname]
        exact hold cp (List.mem_append_right _ List.mem_cons_self)
      · exact hold other (List.mem_append_right _ (List.mem_cons_of_mem _ hother))
  completed := h.completed
  incomplete := by
    intro other hother
    rcases List.mem_cons.mp hother with rfl | hother
    · exact hcompleted
    · exact h.incomplete other (List.mem_cons_of_mem _ hother)
  listed := hlisted.trans h.listed
  recorded := by
    intro before other after hsplit
    exact hrecorded before other (hsplit ▸ List.mem_append_right _ List.mem_cons_self)
      (h.recorded before other after hsplit)

/-- The snapshot before an execution, and the execution: the next checkpoint is recorded. -/
theorem attempt (h : engine.Sound done (cp :: todo)) (call : Execution α δ) :
    ∃ cp', cp'.cpInfo = cp.cpInfo ∧
      ((engine.snapshotCpData cp.name).executeCheckpoint call cp.name).Sound done (cp' :: todo) ∧
      Recorded ((engine.snapshotCpData cp.name).executeCheckpoint call cp.name) done cp' := by
  refine ⟨{ cp with dataCachePath := some (getCacheFilename cp.name) }, rfl, ?_, rfl,
    engine.doc, ?_, ?_, h.listed⟩
  · refine h.updateNext ?_ rfl (h.incomplete cp List.mem_cons_self) rfl fun before other
      hother hold ↦ ?_
    · have hcps : (engine.snapshotCpData cp.name).checkpoints = updateCpData cp.name
          (fun cp' ↦ { cp' with dataCachePath := some (getCacheFilename cp.name) })
          (done ++ cp :: todo) := by rw [← h.split]; rfl
      exact hcps.trans (updateCpData_append_cons h.name_notMem_done rfl)
    · have hne := h.name_ne_of_mem_done hother
      refine hold.frame ?_ ?_
      · have hhead : (other.name == cp.name) = false := beq_eq_false_iff_ne.mpr hne
        exact List.lookup_cons.trans (by rw [hhead]; rfl)
      · exact Dict.lookup_set_of_ne _ (fun heq ↦ hne (getCacheFilename_injective heq)) _
  · exact List.lookup_cons_self
  · exact Dict.lookup_set_self _ _ _

/-- The records of a completed checkpoint: its flag, and its place in the list of the engine's node.
-/
theorem record (h : engine.Sound done (cp :: todo)) (hrecorded : Recorded engine done cp) :
    ∃ cp', cp'.cpInfo = cp.cpInfo ∧
      (engine.recordCheckpoint cp.cpInfo true).Sound (done ++ [cp']) todo := by
  refine ⟨{ cp with completed := true }, rfl, ?_⟩
  have hcps : (engine.recordCheckpoint cp.cpInfo true).checkpoints =
      done ++ { cp with completed := true } :: todo := by
    have hupdate : updateCpData cp.name (fun cp' ↦ { cp' with completed := true })
        (done ++ cp :: todo) =
        done ++ { cp with completed := true } :: todo :=
      updateCpData_append_cons h.name_notMem_done rfl
    rw [← hupdate, ← h.split]
    rfl
  have hold := h.names
  rw [h.split, List.map_append, List.map_cons] at hold
  refine ⟨?_, ?_, ?_, ?_, ?_, ?_, ?_⟩
  · rw [hcps, List.append_assoc, List.singleton_append]
  · rw [hcps, List.map_append, List.map_cons]
    exact hold
  · intro other hother
    have hnonempty := h.nonempty
    rw [h.split] at hnonempty
    rw [hcps] at hother
    rcases List.mem_append.mp hother with hother | hother
    · exact hnonempty other (List.mem_append_left _ hother)
    · rcases List.mem_cons.mp hother with rfl | hother
      · exact hnonempty cp (List.mem_append_right _ List.mem_cons_self)
      · exact hnonempty other (List.mem_append_right _ (List.mem_cons_of_mem _ hother))
  · intro other hother
    rcases List.mem_append.mp hother with hother | hother
    · exact h.completed other hother
    · rw [List.mem_singleton.mp hother]
  · exact fun other hother ↦ h.incomplete other (List.mem_cons_of_mem _ hother)
  · have hlisted : (engine.recordCheckpoint cp.cpInfo true).doc.listed =
        engine.doc.listed ++ [cp.cpInfo] := rfl
    rw [hlisted, h.listed, List.map_append]
    rfl
  · intro before other after hsplit
    rcases List.eq_nil_or_concat after with rfl | ⟨after, last, rfl⟩
    · obtain ⟨rfl, hlast⟩ := List.append_inj' hsplit rfl
      obtain rfl := (List.cons.inj hlast).1
      exact ⟨hrecorded.path, hrecorded.snapshot⟩
    · rw [List.concat_eq_append, ← List.cons_append, ← List.append_assoc] at hsplit
      obtain ⟨hdone, -⟩ := List.append_inj' hsplit rfl
      exact (h.recorded before other after hdone).frame rfl rfl

/-- A snapshot in a file that is not one of the completed checkpoints. -/
theorem snapshot (h : engine.Sound done todo) {snapname : Text}
    (hfresh : snapname ∉ done.map CheckpointData.name) :
    (engine.snapshot snapname).Sound done todo where
  split := h.split
  names := h.names
  nonempty := h.nonempty
  completed := h.completed
  incomplete := h.incomplete
  listed := h.listed
  recorded := by
    intro before other after hsplit
    refine (h.recorded before other after hsplit).frame rfl ?_
    have hmem : other ∈ done := hsplit ▸ List.mem_append_right _ List.mem_cons_self
    refine Dict.lookup_set_of_ne _ (fun heq ↦ hfresh ?_) _
    exact getCacheFilename_injective heq ▸ List.mem_map_of_mem hmem

end InstallEngine.Sound

theorem getCompletedName_ne (name : Text) : getCompletedName name ≠ name := by
  intro h
  have hlength := congrArg List.length h
  rw [getCompletedName, List.length_append, Nat.add_eq_left] at hlength
  exact absurd (List.eq_nil_of_length_eq_zero hlength) (by decide)

/-- No checkpoint of a list has the name of the second snapshot of a later one. -/
def SnapshotsApart (names : List Text) : Prop :=
  names.Pairwise fun earlier later ↦ earlier ≠ getCompletedName later

variable {engine : InstallEngine α δ} {call : Execution α δ}

theorem runCheckpoints_of_succeeds {rest : List (CheckpointData α)}
    (h : call.succeeds cp.name = true) :
    runCheckpoints call .execSuccess (cp :: rest) engine = runCheckpoints call .execSuccess rest
      ((((engine.snapshotCpData cp.name).executeCheckpoint call cp.name).recordCheckpoint cp.cpInfo
        true).snapshot (getCompletedName cp.name)) := by
  rw [runCheckpoints]
  simp only [h, Bool.not_true, Bool.false_and, if_true, Bool.false_eq_true, if_false]

theorem runCheckpoints_of_stop {rest : List (CheckpointData α)} (h : call.succeeds cp.name = false)
    (hstop : call.stopOnError = true) :
    runCheckpoints call .execSuccess (cp :: rest) engine =
      ((engine.snapshotCpData cp.name).executeCheckpoint call cp.name, .execFailed, [cp.name]) := by
  rw [runCheckpoints]
  simp only [h, hstop, Bool.not_false, Bool.true_and, if_true]

/-- Assumes: none of the checkpoints raises unless the execution stops there, and those up to the
first that raises have snapshots apart from the ones of the completed checkpoints. The records agree
after the loop. -/
theorem InstallEngine.Sound.runCheckpoints
    {done cps after : List (CheckpointData α)} (h : engine.Sound done (cps ++ after))
    (hstop : call.stopOnError = true ∨ ∀ cp ∈ cps, call.succeeds cp.name = true)
    (hapart : SnapshotsApart ((done ++ cps.takeWhile fun cp ↦ call.succeeds cp.name).map
      CheckpointData.name)) :
    ∃ done' todo', (Engine.runCheckpoints call .execSuccess cps engine).1.Sound done' todo' := by
  induction cps generalizing engine done with
  | nil => exact ⟨done, _, h⟩
  | cons cp rest ih =>
    obtain ⟨cp', hinfo, hattempt, hrecorded⟩ := InstallEngine.Sound.attempt h call
    have hname : cp'.name = cp.name := congrArg RegistrationData.cpName hinfo
    by_cases hsucceeds : call.succeeds cp.name = true
    · obtain ⟨cp'', hinfo', hrecord⟩ := hattempt.record hrecorded
      have hname' : cp''.name = cp.name := (congrArg RegistrationData.cpName hinfo').trans hname
      have hnames : (done ++ [cp'']).map CheckpointData.name =
          (done ++ [cp]).map CheckpointData.name := by
        rw [List.map_append, List.map_append, List.map_singleton, List.map_singleton, hname']
      rw [List.takeWhile_cons, if_pos hsucceeds, List.append_cons] at hapart
      have hfresh : getCompletedName cp.name ∉ (done ++ [cp'']).map CheckpointData.name := by
        rw [hnames, List.map_append, List.mem_append, not_or]
        refine ⟨fun hmem ↦ ?_, fun hmem ↦ getCompletedName_ne _ (List.mem_singleton.mp hmem)⟩
        rw [SnapshotsApart, List.map_append, List.map_append] at hapart
        have hpairs := (List.pairwise_append.mp (List.pairwise_append.mp hapart).1).2.2
        exact hpairs _ hmem cp.name (List.mem_singleton_self _) rfl
      rw [runCheckpoints_of_succeeds hsucceeds]
      refine ih ((hinfo ▸ hrecord).snapshot hfresh)
        (hstop.imp_right fun hall other hother ↦ hall other (List.mem_cons_of_mem _ hother)) ?_
      rw [List.map_append, hnames, ← List.map_append]
      exact hapart
    · have hstops : call.stopOnError = true :=
        hstop.resolve_right fun hall ↦ hsucceeds (hall cp List.mem_cons_self)
      rw [runCheckpoints_of_stop (Bool.eq_false_iff.mpr hsucceeds) hstops]
      exact ⟨done, _, hattempt⟩

/-! ### Going back to a completed checkpoint -/

theorem resetCompleted_false (beforeCp : Text) (cps : List (CheckpointData α)) :
    resetCompleted beforeCp false cps = cps.map CheckpointData.incomplete := by
  induction cps with
  | nil => rfl
  | cons cp rest ih =>
    rw [resetCompleted, ite_self, ih, List.map_cons]
    rfl

theorem resetCompleted_append {before after : List (CheckpointData α)}
    (hcompleted : ∀ other ∈ before, other.completed = true)
    (hnames : cp.name ∉ before.map CheckpointData.name) :
    resetCompleted cp.name true (before ++ cp :: after) =
      before ++ (cp :: after).map CheckpointData.incomplete := by
  induction before with
  | nil =>
    rw [List.nil_append, resetCompleted, if_pos rfl, resetCompleted_false, List.map_cons]
    rfl
  | cons first rest ih =>
    rw [List.map_cons, List.mem_cons, not_or] at hnames
    have hfirst : { first with completed := true } = first := by
      rw [← hcompleted first List.mem_cons_self]
    rw [List.cons_append, resetCompleted, if_neg fun heq ↦ hnames.1 heq.symm, hfirst,
      ih (fun other hother ↦ hcompleted other (List.mem_cons_of_mem _ hother)) hnames.2,
        List.cons_append]

theorem getCpData_eq_ok {before after : List (CheckpointData α)}
    (hsplit : engine.checkpoints = before ++ cp :: after)
    (hnames : cp.name ∉ before.map CheckpointData.name) : engine.getCpData cp.name = .ok cp := by
  have hfind : (engine.checkpoints.find? fun other ↦ other.name = cp.name) = some cp := by
    rw [List.find?_eq_some_iff_append]
    refine ⟨decide_eq_true rfl, before, after, hsplit, fun other hother ↦ ?_⟩
    have hne : other.name ≠ cp.name := fun heq ↦ hnames (heq ▸ List.mem_map_of_mem hother)
    rw [decide_eq_false hne, Bool.not_false]
  unfold InstallEngine.getCpData
  rw [hfind]

theorem getCpData_ok {name : Text}
    (h : engine.getCpData name = .ok cp) : cp ∈ engine.checkpoints ∧ cp.name = name := by
  unfold InstallEngine.getCpData at h
  cases hfind : engine.checkpoints.find? fun other ↦ other.name = name with
  | none =>
    rw [hfind] at h
    cases h
  | some found =>
    rw [hfind] at h
    obtain rfl : found = cp := Except.ok.inj h
    have hname := List.find?_some hfind
    exact ⟨List.mem_of_find?_eq_some hfind, of_decide_eq_true hname⟩

/-- The engine after it went back. -/
def InstallEngine.restored (engine : InstallEngine α δ) (doc : Doc α δ)
    (before after : List (CheckpointData α)) : InstallEngine α δ :=
  { engine with doc, checkpoints := before ++ after.map CheckpointData.incomplete }

namespace InstallEngine.Sound

variable {engine : InstallEngine α δ} {done todo before after : List (CheckpointData α)}
  {cp : CheckpointData α}

theorem split_of_done (h : engine.Sound done todo) (hdone : done = before ++ cp :: after) :
    engine.checkpoints = before ++ cp :: (after ++ todo) := by
  rw [h.split, hdone, List.append_assoc, List.cons_append]

theorem name_notMem_before (h : engine.Sound done todo) (hdone : done = before ++ cp :: after) :
    cp.name ∉ before.map CheckpointData.name := by
  have hnames := h.names
  rw [h.split_of_done hdone, List.map_append, List.map_cons] at hnames
  exact fun hmem ↦ (List.nodup_append.mp hnames).2.2 _ hmem _ List.mem_cons_self rfl

/-- Going back to a completed checkpoint succeeds: the cache is the one before its last execution,
and it and all later checkpoints are not completed. -/
theorem rollback (h : engine.Sound done todo) (hdone : done = before ++ cp :: after) :
    ∃ doc, engine.history.lookup cp.name = some doc ∧
      engine.rollback cp.name = .ok (engine.restored doc before (cp :: (after ++ todo))) ∧
      (engine.restored doc before (cp :: (after ++ todo))).Sound before
        ((cp :: (after ++ todo)).map CheckpointData.incomplete) := by
  have hrecorded := h.recorded before cp after hdone
  obtain ⟨doc, hlast, hfile, hlisted⟩ := hrecorded.snapshot
  have hmem : cp ∈ done := hdone ▸ List.mem_append_right _ List.mem_cons_self
  have hcompleted : ∀ other ∈ before, other.completed = true := fun other hother ↦
    h.completed other (hdone ▸ List.mem_append_left _ hother)
  refine ⟨doc, hlast, ?_, ?_⟩
  · unfold InstallEngine.rollback
    simp only [getCpData_eq_ok (h.split_of_done hdone) (h.name_notMem_before hdone),
      h.completed cp hmem, hrecorded.path, hfile, Bool.not_true, Bool.false_eq_true, if_false, bind,
      Except.bind, pure, Except.pure, InstallEngine.restored]
    rw [h.split_of_done hdone, resetCompleted_append hcompleted (h.name_notMem_before hdone)]
  · have hnames : (engine.restored doc before (cp :: (after ++ todo))).checkpoints.map
        CheckpointData.name = engine.checkpoints.map CheckpointData.name := by
      rw [h.split_of_done hdone, InstallEngine.restored, List.map_append, List.map_append,
        List.map_map]
      rfl
    refine ⟨rfl, hnames ▸ h.names, fun other hother ↦ ?_, hcompleted, fun other hother ↦
      ?_, hlisted,
      fun first other rest hsplit ↦ ?_⟩
    · have hname : other.name ∈ engine.checkpoints.map CheckpointData.name :=
        hnames ▸ List.mem_map_of_mem hother
      obtain ⟨old, hold, heq⟩ := List.mem_map.mp hname
      exact heq ▸ h.nonempty old hold
    · obtain ⟨old, -, rfl⟩ := List.mem_map.mp hother
      rfl
    · refine (h.recorded first other (rest ++ cp :: after) ?_).frame rfl rfl
      rw [hdone, hsplit, List.append_assoc, List.cons_append]

/-- The first checkpoint that is not completed is the next one. -/
theorem getFirstIncomplete_eq (h : engine.Sound done todo) :
    engine.getFirstIncomplete = todo.head? := by
  have hdone : done.find? (fun other ↦ !other.completed) = none :=
    List.find?_eq_none.mpr fun other hother ↦ by
      rw [h.completed other hother, Bool.not_true]
      exact Bool.false_ne_true
  unfold InstallEngine.getFirstIncomplete
  rw [h.split, List.find?_append, hdone, Option.none_or]
  cases todo with
  | nil => rfl
  | cons next rest =>
    rw [List.find?_cons_of_pos, List.head?_cons]
    rw [h.incomplete next List.mem_cons_self, Bool.not_false]

/-- An execution that starts from a completed checkpoint first goes back to it. -/
theorem prepare_eq_rollback (h : engine.Sound done todo) (hdone : done = before ++ cp :: after) :
    engine.prepare (some cp.name) = engine.rollback cp.name := by
  have hmem : cp ∈ engine.checkpoints := by
    rw [h.split_of_done hdone]
    exact List.mem_append_right _ List.mem_cons_self
  have hnext : todo.head?.map CheckpointData.name ≠ some cp.name := by
    intro heq
    obtain ⟨next, hnext, hname⟩ := Option.map_eq_some_iff.mp heq
    have hnames := h.names
    rw [h.split, List.map_append] at hnames
    refine (List.nodup_append.mp hnames).2.2 cp.name ?_ next.name ?_ hname.symm
    · exact List.mem_map_of_mem (hdone ▸ List.mem_append_right _ List.mem_cons_self)
    · exact List.mem_map_of_mem (List.mem_of_mem_head? hnext)
  unfold InstallEngine.prepare
  simp only [h.nonempty cp hmem, if_false, h.getFirstIncomplete_eq, bind, Except.bind,
    getCpData_eq_ok (h.split_of_done hdone) (h.name_notMem_before hdone), hnext]

end InstallEngine.Sound

/-! ### Calls -/

/-- A call to the engine. -/
inductive Call (α δ : Type)
  | register (reg : Registration α)
  | execute (call : Execution α δ)

/-- The engine after a call. A registration that raises leaves it as it was. -/
def InstallEngine.after (engine : InstallEngine α δ) : Call α δ → InstallEngine α δ
  | .register reg => (engine.registerCheckpoint reg).toOption.getD engine
  | .execute call => (engine.executeCheckpoints call).2

theorem after_register_of_error {reg : Registration α} {raised : Raise}
    (h : engine.registerCheckpoint reg = .error raised) :
    engine.after (.register reg) = engine := by
  simp only [InstallEngine.after, h, Except.toOption, Option.getD_none]

theorem after_register_of_ok {engine engine' : InstallEngine α δ} {reg : Registration α}
    (h : engine.registerCheckpoint reg = .ok engine') : engine.after (.register reg) = engine' := by
  simp only [InstallEngine.after, h, Except.toOption, Option.getD_some]

theorem InstallEngine.Sound.init (rest : δ) :
    (InstallEngine.init rest : InstallEngine α δ).Sound [] [] :=
  ⟨rfl, List.nodup_nil, fun _ h ↦ absurd h List.not_mem_nil, fun _ h ↦ absurd h List.not_mem_nil,
    fun _ h ↦ absurd h List.not_mem_nil, rfl, fun before cp after h ↦ by
      cases before <;> cases h⟩

variable {done todo : List (CheckpointData α)}

/-- The completed checkpoints stay where they are when another one is inserted. -/
theorem InstallEngine.Sound.register (h : engine.Sound done todo) (reg : Registration α) :
    ∃ todo', (engine.after (.register reg)).Sound done todo' := by
  cases hregister : engine.registerCheckpoint reg with
  | error raised =>
    rw [after_register_of_error hregister]
    exact ⟨todo, h⟩
  | ok engine' =>
    rw [after_register_of_ok hregister]
    obtain ⟨before, cp, after, hsplit, rfl, hincomplete, hnonempty, hnew, hnext⟩ :=
      registerCheckpoint_ok hregister
    obtain ⟨skipped, rfl, rfl⟩ : ∃ skipped, before = done ++ skipped ∧ todo = skipped ++ after := by
      rcases List.append_eq_append_iff.mp (h.split.symm.trans hsplit) with
        ⟨skipped, hbefore, htodo⟩ | ⟨moved, hdone, hafter⟩
      · exact ⟨skipped, hbefore, htodo⟩
      · cases moved with
        | nil => exact ⟨[], by simpa using hdone.symm, by simpa using hafter.symm⟩
        | cons first rest =>
          have hcompleted : first.completed = true := h.completed first (by simp [hdone])
          have hfirst : first.completed = false := hnext first (by simp [hafter])
          exact absurd (hcompleted.symm.trans hfirst) (by decide)
    refine ⟨skipped ++ cp :: after, List.append_assoc .., ?_, ?_, h.completed, ?_, h.listed,
      fun first other rest hdone ↦ (h.recorded first other rest hdone).frame rfl rfl⟩
    · have hnames := h.names
      rw [hsplit, List.map_append] at hnames
      rw [hsplit, List.map_append, List.mem_append] at hnew
      show ((done ++ skipped ++ cp :: after).map CheckpointData.name).Nodup
      rw [List.map_append, List.map_cons, List.nodup_middle, List.nodup_cons, List.mem_append]
      exact ⟨hnew, hnames⟩
    · intro other hother
      have hold := h.nonempty
      rw [hsplit] at hold
      rcases List.mem_append.mp hother with hother | hother
      · exact hold other (List.mem_append_left _ hother)
      · rcases List.mem_cons.mp hother with rfl | hother
        · exact hnonempty
        · exact hold other (List.mem_append_right _ hother)
    · intro other hother
      rcases List.mem_append.mp hother with hother | hother
      · exact h.incomplete other (List.mem_append_left _ hother)
      · rcases List.mem_cons.mp hother with rfl | hother
        · exact hincomplete
        · exact h.incomplete other (List.mem_append_right _ hother)

theorem eq_of_split {done todo before rest : List (CheckpointData α)}
    (h : done ++ todo = before ++ rest)
    (hdone : ∀ cp ∈ done, cp.completed = true) (htodo : ∀ cp ∈ todo, cp.completed = false)
    (hbefore : ∀ cp ∈ before, cp.completed = true) {next : CheckpointData α}
    (hnext : next ∈ rest.head?) (hincomplete : next.completed = false) :
    before = done ∧ rest = todo := by
  rcases List.append_eq_append_iff.mp h with ⟨skipped, rfl, rfl⟩ | ⟨moved, rfl, rfl⟩
  · cases skipped with
    | nil => exact ⟨List.append_nil _, rfl⟩
    | cons first others =>
      have htrue : first.completed = true :=
        hbefore first (List.mem_append_right _ List.mem_cons_self)
      have hfalse : first.completed = false :=
        htodo first (List.mem_append_left _ List.mem_cons_self)
      exact absurd (htrue.symm.trans hfalse) (by decide)
  · cases moved with
    | nil => exact ⟨(List.append_nil _).symm, rfl⟩
    | cons first others =>
      obtain rfl : first = next := Option.some.inj hnext
      have htrue : first.completed = true :=
        hdone first (List.mem_append_right _ List.mem_cons_self)
      exact absurd (htrue.symm.trans hincomplete) (by decide)

/-- The condition on an execution. `cps` are any checkpoints that the call asks for and that load.
Unless it stops on an error, none of them raises. Those up to the first that raises, and the
completed ones before, have second snapshots that are not the snapshot of an earlier one. -/
def Execution.Admissible (call : Execution α δ) (engine : InstallEngine α δ) : Prop :=
  ∀ before cps after, engine.checkpoints = before ++ cps ++ after →
    Requested call.startFrom call.pauseBefore before cps after →
    (∀ cp ∈ cps, call.loads cp.name = true) →
    (call.stopOnError = true ∨ ∀ cp ∈ cps, call.succeeds cp.name = true) ∧
      SnapshotsApart ((before ++ cps.takeWhile fun cp ↦
        call.succeeds cp.name).map CheckpointData.name)

/-- An execution starts where the engine is, or the engine goes back to the checkpoint to start
from. -/
theorem InstallEngine.Sound.prepare_ok {engine engine' : InstallEngine α δ}
    {startFrom : Option Text} (h : engine.Sound done todo)
    (hprepare : engine.prepare startFrom = .ok engine') :
    (engine' = engine ∧
      ∀ start, startFrom = some start → start = [] ∨
      todo.head?.map CheckpointData.name = some start) ∨
    ∃ before cp after doc, done = before ++ cp :: after ∧ startFrom = some cp.name ∧
      engine' = engine.restored doc before (cp :: (after ++ todo)) ∧
      engine'.Sound before ((cp :: (after ++ todo)).map CheckpointData.incomplete) := by
  cases startFrom with
  | none => exact Or.inl ⟨(Except.ok.inj hprepare).symm, fun start hstart ↦ nomatch hstart⟩
  | some start =>
    by_cases hempty : start = []
    · rw [InstallEngine.prepare, if_pos hempty] at hprepare
      refine Or.inl ⟨(Except.ok.inj hprepare).symm, fun start' hstart ↦ Or.inl ?_⟩
      exact (Option.some.inj hstart).symm.trans hempty
    rw [InstallEngine.prepare, if_neg hempty] at hprepare
    cases hget : engine.getCpData start with
    | error raised =>
      rw [hget] at hprepare
      cases hprepare
    | ok cp =>
      obtain ⟨hmem, rfl⟩ := getCpData_ok hget
      simp only [hget, bind, Except.bind, h.getFirstIncomplete_eq] at hprepare
      by_cases hnext : todo.head?.map CheckpointData.name = some cp.name
      · rw [if_pos hnext] at hprepare
        refine Or.inl ⟨(Except.ok.inj hprepare).symm, fun start hstart ↦ Or.inr ?_⟩
        rw [hnext, hstart]
      rw [if_neg hnext] at hprepare
      rw [h.split] at hmem
      rcases List.mem_append.mp hmem with hdone | htodo
      · obtain ⟨before, after, hsplit⟩ := List.append_of_mem hdone
        obtain ⟨doc, -, hrollback, hsound⟩ := h.rollback hsplit
        rw [hrollback] at hprepare
        obtain rfl := Except.ok.inj hprepare
        exact Or.inr ⟨before, cp, after, doc, hsplit, rfl, rfl, hsound⟩
      · rw [InstallEngine.rollback, hget] at hprepare
        simp only [bind, Except.bind, h.incomplete cp htodo, Bool.not_false, if_true] at hprepare
        cases hprepare

/-- What is asked of an engine that starts where it is begins with its next checkpoint. -/
theorem InstallEngine.Sound.eq_of_requested
    {startFrom pauseBefore : Option Text} {done todo before cps after : List (CheckpointData α)}
    (h : engine.Sound done todo)
    (hstart : ∀ start, startFrom = some start →
      start = [] ∨ todo.head?.map CheckpointData.name = some start)
    (hsplit : engine.checkpoints = before ++ cps ++ after) (hne : cps ≠ [])
    (hrequested : Requested startFrom pauseBefore before cps after) :
    before = done ∧ cps ++ after = todo := by
  obtain ⟨next, rest, rfl⟩ := List.exists_cons_of_ne_nil hne
  have hmem : next ∈ engine.checkpoints := by
    rw [hsplit]
    exact List.mem_append_left _ (List.mem_append_right _ List.mem_cons_self)
  have hincomplete : next.completed = false := by
    have hhead := hrequested.start next rfl
    cases startFrom with
    | none => exact hhead
    | some start =>
      rcases hstart start rfl with hempty | hnext
      · exact absurd (hhead.trans hempty) (h.nonempty next hmem)
      · obtain ⟨first, hfirst, hname⟩ := Option.map_eq_some_iff.mp hnext
        have hfirstMem : first ∈ todo := List.mem_of_mem_head? hfirst
        obtain rfl : next = first := List.inj_on_of_nodup_map h.names hmem
          (h.split ▸ List.mem_append_right _ hfirstMem) (hhead.trans hname.symm)
        exact h.incomplete next hfirstMem
  rw [List.append_assoc] at hsplit
  exact eq_of_split (h.split.symm.trans hsplit) h.completed h.incomplete hrequested.completed rfl
    hincomplete

/-- Assumes: the engine starts where it is, and the condition holds of what is asked of it. The
records agree after the execution. -/
theorem InstallEngine.Sound.executeSelected (h : engine.Sound done todo)
    (hstart : ∀ start, call.startFrom = some start →
      start = [] ∨ todo.head?.map CheckpointData.name = some start)
    (hadmissible : ∀ cps after, cps ++ after = todo →
      Requested call.startFrom call.pauseBefore done cps after →
      (∀ cp ∈ cps, call.loads cp.name = true) →
      (call.stopOnError = true ∨ ∀ cp ∈ cps, call.succeeds cp.name = true) ∧
        SnapshotsApart ((done ++ cps.takeWhile fun cp ↦ call.succeeds cp.name).map
          CheckpointData.name)) :
    ∃ done' todo', (engine.executeSelected call).2.Sound done' todo' := by
  unfold InstallEngine.executeSelected
  cases hlist : engine.getExecList call.startFrom call.pauseBefore with
  | error raised => exact ⟨done, todo, h⟩
  | ok cps =>
    cases cps with
    | nil => exact ⟨done, todo, h⟩
    | cons cp rest =>
      obtain ⟨before, after, hsplit, hrequested⟩ :=
        getExecList_ok h.names hlist (List.cons_ne_nil cp rest)
      obtain ⟨rfl, rfl⟩ := h.eq_of_requested hstart hsplit (List.cons_ne_nil cp rest) hrequested
      simp only [InstallEngine.executeLoaded]
      cases hload : (cp :: rest).find? fun cp ↦ !call.loads cp.name with
      | some failed => exact ⟨before, _, h⟩
      | none =>
        have hloads : ∀ other ∈ cp :: rest, call.loads other.name = true := fun other hother ↦ by
          have hnot := List.find?_eq_none.mp hload other hother
          rwa [Bool.not_eq_true, Bool.not_eq_false'] at hnot
        obtain ⟨hstop, hapart⟩ := hadmissible (cp :: rest) after rfl hrequested hloads
        exact h.runCheckpoints hstop hapart

theorem executeCheckpoints_of_error {raised : Raise}
    (h : engine.prepare call.startFrom = .error raised) :
    engine.executeCheckpoints call = (.error raised, engine) := by
  unfold InstallEngine.executeCheckpoints
  rw [h]

theorem executeCheckpoints_of_ok {engine engine' : InstallEngine α δ}
    (h : engine.prepare call.startFrom = .ok engine') :
    engine.executeCheckpoints call = engine'.executeSelected call := by
  unfold InstallEngine.executeCheckpoints
  rw [h]

/-- Assumes: the condition on the execution. The records agree after it. -/
theorem InstallEngine.Sound.execute (h : engine.Sound done todo)
    (hadmissible : call.Admissible engine) :
    ∃ done' todo', (engine.after (.execute call)).Sound done' todo' := by
  have hafter : engine.after (.execute call) = (engine.executeCheckpoints call).2 := rfl
  rw [hafter]
  cases hprepare : engine.prepare call.startFrom with
  | error raised =>
    rw [executeCheckpoints_of_error hprepare]
    exact ⟨done, todo, h⟩
  | ok engine' =>
    rw [executeCheckpoints_of_ok hprepare]
    rcases h.prepare_ok hprepare with ⟨rfl, hstart⟩ | ⟨before, cp, after, doc, hdone, hfrom,
      rfl, hsound⟩
    · refine h.executeSelected hstart fun cps after htodo hrequested hloads ↦ ?_
      refine hadmissible done cps after ?_ hrequested hloads
      rw [h.split, ← htodo, List.append_assoc]
    · refine hsound.executeSelected (fun start hstart ↦
        Or.inr ?_) fun cps rest htodo hrequested hloads ↦ ?_
      · rw [← hstart, hfrom]
        rfl
      · obtain ⟨cps₀, rest₀, hsplit, rfl, rfl⟩ := List.map_eq_append_iff.mp htodo.symm
        have hsplit₀ : engine.checkpoints = before ++ cps₀ ++ rest₀ := by
          rw [h.split_of_done hdone, hsplit, List.append_assoc]
        have hrequested₀ : Requested call.startFrom call.pauseBefore before cps₀ rest₀ := by
          refine ⟨hrequested.completed, fun next hnext ↦ ?_, ?_⟩
          · rw [hfrom]
            have hhead := congrArg List.head? hsplit
            rw [List.head?_append, Option.mem_def.mp hnext] at hhead
            exact congrArg CheckpointData.name (Option.some.inj hhead).symm
          · rw [← hrequested.pause, List.head?_map, Option.map_map]
            rfl
        obtain ⟨hstop, hapart⟩ := hadmissible before cps₀ rest₀ hsplit₀ hrequested₀
          fun other hother ↦ hloads other.incomplete (List.mem_map_of_mem hother)
        refine ⟨hstop.imp_right fun hall other hother ↦ ?_, ?_⟩
        · obtain ⟨old, hold, rfl⟩ := List.mem_map.mp hother
          exact hall old hold
        · rw [List.takeWhile_map, List.map_append, List.map_map]
          rw [List.map_append] at hapart
          exact hapart

/-! ### Runs -/

/-- The engine's node lists the registration data of the completed checkpoints, each once, in their
order. An execution that starts from a completed checkpoint first restores the cache as it was
before the last execution of this checkpoint, which with all later ones is then not completed. -/
structure InstallEngine.Accounts (engine : InstallEngine α δ) : Prop where
  listed : engine.doc.listed =
    (engine.checkpoints.filter CheckpointData.completed).map CheckpointData.cpInfo
  once : engine.doc.listed.Nodup
  resumes : ∀ before cp after, engine.checkpoints = before ++ cp :: after → cp.completed = true →
    ∃ doc, engine.history.lookup cp.name = some doc ∧ ∀ call : Execution α δ,
      call.startFrom = some cp.name →
      engine.executeCheckpoints call =
        (engine.restored doc before (cp :: after)).executeSelected call

theorem InstallEngine.Sound.accounts (h : engine.Sound done todo) : engine.Accounts where
  listed := by
    have hdone : done.filter CheckpointData.completed = done :=
      List.filter_eq_self.mpr h.completed
    have htodo : todo.filter CheckpointData.completed = [] :=
      List.filter_eq_nil_iff.mpr fun cp hcp ↦ by
        rw [h.incomplete cp hcp]
        exact Bool.false_ne_true
    rw [h.listed, h.split, List.filter_append, hdone, htodo, List.append_nil]
  once := by
    have hnames := h.names
    rw [h.split, List.map_append] at hnames
    have hdone : ((done.map CheckpointData.cpInfo).map RegistrationData.cpName).Nodup := by
      rw [List.map_map]
      exact (List.nodup_append.mp hnames).1
    rw [h.listed]
    exact hdone.of_map _
  resumes := by
    intro before cp after hsplit hcompleted
    have hmem : cp ∈ done := by
      have hall : cp ∈ done ++ todo := by
        rw [← h.split, hsplit]
        exact List.mem_append_right _ List.mem_cons_self
      refine (List.mem_append.mp hall).resolve_right fun htodo ↦ ?_
      exact absurd (hcompleted.symm.trans (h.incomplete cp htodo)) (by decide)
    obtain ⟨before', after', hdone⟩ := List.append_of_mem hmem
    have hnodup : engine.checkpoints.Nodup := h.names.of_map _
    have hbefore : cp ∉ before ∧ cp ∉ after := by
      rw [hsplit, List.nodup_middle, List.nodup_cons, List.mem_append, not_or] at hnodup
      exact hnodup.1
    obtain ⟨rfl, -, rfl⟩ := (List.append_cons_inj_of_notMem hbefore.1 hbefore.2).mp
      (hsplit.symm.trans (h.split_of_done hdone))
    obtain ⟨doc, hlast, hrollback, -⟩ := h.rollback hdone
    refine ⟨doc, hlast, fun call hfrom ↦ executeCheckpoints_of_ok ?_⟩
    rw [hfrom, h.prepare_eq_rollback hdone, hrollback]

/-- A call, which meets the condition if it is an execution. -/
def Step (engine engine' : InstallEngine α δ) : Prop :=
  ∃ call : Call α δ, (∀ execution, call = .execute execution → execution.Admissible engine) ∧
    engine' = engine.after call

theorem step_register (engine : InstallEngine α δ) (reg : Registration α) :
    Step engine (engine.after (.register reg)) :=
  ⟨.register reg, fun _ h ↦ (nomatch h), rfl⟩

theorem step_execute (h : call.Admissible engine) : Step engine (engine.after (.execute call)) :=
  ⟨.execute call, fun _ hcall ↦ Call.execute.inj hcall ▸ h, rfl⟩

theorem InstallEngine.Sound.step {engine engine' : InstallEngine α δ}
    (h : engine.Sound done todo) (hstep : Step engine engine') :
    ∃ done' todo', engine'.Sound done' todo' := by
  obtain ⟨call, hcall, rfl⟩ := hstep
  cases call with
  | register reg =>
    obtain ⟨todo', hsound⟩ := h.register reg
    exact ⟨done, todo', hsound⟩
  | execute call => exact h.execute (hcall call rfl)

/-- In every run whose executions meet the condition, the records agree. -/
theorem run_accounts (rest : δ) {engine : InstallEngine α δ}
    (hrun : Relation.ReflTransGen Step (InstallEngine.init rest) engine) : engine.Accounts := by
  have hsound : ∃ done todo, engine.Sound done todo := by
    induction hrun with
    | refl => exact ⟨[], [], InstallEngine.Sound.init rest⟩
    | tail _ hstep ih =>
      obtain ⟨done, todo, h⟩ := ih
      exact h.step hstep
  obtain ⟨done, todo, h⟩ := hsound
  exact h.accounts

/-- An execution that stops on errors meets the condition when all names are apart. -/
theorem Execution.admissible_of_apart
    (hstop : call.stopOnError = true)
    (hapart : SnapshotsApart (engine.checkpoints.map CheckpointData.name)) :
    call.Admissible engine := by
  intro before cps after hsplit _ _
  refine ⟨Or.inl hstop, hapart.sublist (List.Sublist.map _ ?_)⟩
  rw [hsplit, List.append_assoc]
  exact ((List.takeWhile_sublist _).trans (List.sublist_append_left _ _)).append_left before

/-! ### Examples -/

/-- A checkpoint of the module `transfer`. -/
def transfer (name : Text) : Registration ℕ where
  checkpointName := some name
  modulePath := some "transfer".toList
  checkpointClassName := some "Transfer".toList
  insertBefore := none
  loglevel := none
  args := []
  kwargs := none
  valid := true

/-- An execution whose checkpoints count in the rest of the cache. -/
def counting (startFrom : Option Text) (stopOnError : Bool) (succeeds : Text → Bool) :
    Execution ℕ ℕ where
  startFrom := startFrom
  pauseBefore := none
  stopOnError := stopOnError
  loads := fun _ ↦ true
  succeeds := succeeds
  change := fun _ doc ↦ doc.rest + 1

/-- Two checkpoints, of which the second fails at first, and then the first one again. -/
def resumedCalls : List (Call ℕ ℕ) :=
  [.register (transfer ['a']), .register (transfer ['b']),
    .execute (counting none true (· = ['a'])), .execute (counting (some ['a']) true fun _ ↦ true)]

theorem resumed_accounts :
    (resumedCalls.foldl InstallEngine.after (InstallEngine.init 0)).Accounts := by
  have hapart : SnapshotsApart [['a'], ['b']] := by
    unfold SnapshotsApart
    decide
  refine run_accounts 0 ((((Relation.ReflTransGen.refl.tail (step_register _ (transfer ['a']))).tail
    (step_register _ (transfer ['b']))).tail (step_execute ?_)).tail (step_execute ?_))
  · exact Execution.admissible_of_apart rfl hapart
  · exact Execution.admissible_of_apart rfl hapart

example : (resumedCalls.foldl InstallEngine.after (InstallEngine.init 0)).doc.rest = 2 := by
  decide +kernel

/-- Without stopping on errors, a checkpoint that raises is listed and not completed. -/
theorem failed_is_listed : ¬ ∀ calls : List (Call ℕ ℕ),
    (calls.foldl InstallEngine.after (InstallEngine.init 0)).Accounts := by
  intro h
  have hlisted :=
    (h [.register (transfer ['a']), .execute (counting none false fun _ ↦ false)]).listed
  revert hlisted
  decide +kernel

end Userland.Install.Engine
