import Userland.Library.Decimal

/-!
# Progress of the install engine

`_load_checkpoints` gives every checkpoint a share of the progress, and `normalize_progress` turns
what a checkpoint reports into the progress of the whole execution. All numbers are decimals of
eight digits that are rounded down. `Promised` says what the reports of a successful execution
should be.

Scope. The values of the engine while it loads are computed in binary floating point; they are a
parameter. A checkpoint is a value with what it does in an execution: its estimate, or none if it
fails to initialise, and its reports. Checkpoints that fail to execute and cancelled executions are
left out.
-/

set_option autoImplicit false
set_option relaxedAutoImplicit false

namespace Userland.Install.Engine

open Userland.Library Decimal

/-- The context for decimals, with eight digits. -/
def context (x : ℚ) : ℚ :=
  roundDown 8 x

/-- `int((loaded / to_load) * EXEC_PREP_RATIO * 100)`. -/
structure Preparation where
  loadProg : ℕ → ℕ → ℤ
  nonneg : ∀ loaded toLoad, 0 ≤ loadProg loaded toLoad
  mono : ∀ {loaded loaded'} toLoad, loaded ≤ loaded' →
    loadProg loaded toLoad ≤ loadProg loaded' toLoad
  le_five : ∀ {loaded toLoad}, loaded < toLoad → loadProg loaded toLoad ≤ 5

/-- What the engine keeps about the progress of a checkpoint. -/
structure CpProgress where
  progEst : ℚ
  progEstRatio : ℚ
  progReported : ℚ

/-- A checkpoint in an execution. -/
structure Checkpoint where
  data : CpProgress
  estimate : Option ℤ
  reports : List ℤ

/-- What the engine keeps about the progress of the execution. -/
structure Progress where
  execPrep : Bool
  currentCompleted : ℚ

/-- `EXEC_PREP_RATIO_DECIMAL`. -/
def execPrepRatioDecimal : ℚ := 5 / 100

/-- `adjusted_ratio`. -/
def adjustedRatio : ℚ := 95 / 100

/-- `normalize_progress`. -/
def normalizeProgress (engine : Progress) (cpData : CpProgress) (cpProg : ℤ) : ℤ × CpProgress :=
  if engine.execPrep then (cpProg, cpData)
  else
    let normalizedProg := trunc (context (cpProg * cpData.progEstRatio))
    (trunc (context (engine.currentCompleted + normalizedProg)),
      { cpData with progReported := cpProg })

/-! ### Loading -/

/-- What comes of loading: the values that were reported, the total estimate unless a checkpoint
failed, and the checkpoints. -/
structure Loaded where
  values : List ℤ
  totalEstimate : Option ℚ
  checkpoints : List Checkpoint

/-- The loop over the checkpoints to load. -/
def loadEach (prep : Preparation) (engine : Progress) (toLoad : ℕ) :
    ℕ → ℚ → List Checkpoint → Loaded
  | _, totalEstimate, [] => ⟨[], some totalEstimate, []⟩
  | loaded, totalEstimate, cp :: rest =>
    let value := (normalizeProgress engine cp.data (prep.loadProg loaded toLoad)).1
    match cp.estimate with
    | none => ⟨[value], none, cp :: rest⟩
    | some estimate =>
      let progEst : ℚ := if estimate ≤ 0 then 1 else estimate
      let others := loadEach prep engine toLoad (loaded + 1)
        (context (totalEstimate + progEst)) rest
      ⟨value :: others.values, others.totalEstimate,
        { cp with data := { cp.data with progEst := progEst } } :: others.checkpoints⟩

/-- `_load_checkpoints` up to the shares. -/
def loadCheckpoints (prep : Preparation) (engine : Progress) (checkpoints : List Checkpoint) :
    Loaded :=
  if checkpoints.isEmpty then ⟨[], none, []⟩
  else loadEach prep engine checkpoints.length 0 0 checkpoints

/-- The share of a checkpoint. -/
def progEstRatio (totalEstimate progEst : ℚ) : ℚ :=
  context (context (progEst / totalEstimate) * adjustedRatio)

/-- Every checkpoint gets its share. -/
def setRatios (totalEstimate : ℚ) (checkpoints : List Checkpoint) : List Checkpoint :=
  checkpoints.map fun cp ↦
    { cp with data := { cp.data with progEstRatio := progEstRatio totalEstimate cp.data.progEst } }

/-- `total_ratio`. -/
def totalRatio (checkpoints : List Checkpoint) : ℚ :=
  checkpoints.foldl (fun total cp ↦ context (total + cp.data.progEstRatio)) execPrepRatioDecimal

/-- The last checkpoint gets what is missing. -/
def adjustLast (missing : ℚ) : List Checkpoint → List Checkpoint
  | [] => []
  | [cp] => [{ cp with data := { cp.data with progEstRatio := context (cp.data.progEstRatio + missing) } }]
  | cp :: rest => cp :: adjustLast missing rest

/-- The checkpoints with their shares. -/
def shareOut (totalEstimate : ℚ) (checkpoints : List Checkpoint) : List Checkpoint :=
  let checkpoints := setRatios totalEstimate checkpoints
  adjustLast (context (1 - totalRatio checkpoints)) checkpoints

/-! ### Executing -/

/-- The reports of a checkpoint. -/
def reportEach (engine : Progress) (cpData : CpProgress) : List ℤ → List ℤ × CpProgress
  | [] => ([], cpData)
  | cpProg :: rest =>
    let first := normalizeProgress engine cpData cpProg
    let others := reportEach engine first.2 rest
    (first.1 :: others.1, others.2)

/-- What comes of an execution: the values that were reported, the engine and the checkpoints. -/
structure Run where
  values : List ℤ
  engine : Progress
  checkpoints : List Checkpoint

/-- One checkpoint, with the report of the engine that it has completed. -/
def executeCheckpoint (engine : Progress) (cp : Checkpoint) : List ℤ × Progress × Checkpoint :=
  let own := reportEach engine cp.data cp.reports
  let last := if own.2.progReported < 100 then reportEach engine own.2 [100] else ([], own.2)
  (own.1 ++ last.1,
    { engine with currentCompleted := context (engine.currentCompleted + context (last.2.progEstRatio * 100)) },
    { cp with data := last.2 })

/-- The loop over the checkpoints. -/
def executeEach (engine : Progress) : List Checkpoint → Run
  | [] => ⟨[], engine, []⟩
  | cp :: rest =>
    let (values, engine, cp) := executeCheckpoint engine cp
    let others := executeEach engine rest
    ⟨values ++ others.values, others.engine, cp :: others.checkpoints⟩

/-- `_execute_checkpoints`, where no checkpoint fails to execute. -/
def executeCheckpoints (prep : Preparation) (engine : Progress) (checkpoints : List Checkpoint) :
    Run :=
  let engine := { engine with execPrep := true, currentCompleted := 0 }
  let loaded := loadCheckpoints prep engine checkpoints
  match loaded.totalEstimate with
  | none => ⟨loaded.values, engine, loaded.checkpoints⟩
  | some totalEstimate =>
    let completed := context (engine.currentCompleted + context (execPrepRatioDecimal * 100))
    let run := executeEach ⟨false, completed⟩ (shareOut totalEstimate loaded.checkpoints)
    ⟨loaded.values ++ run.values, run.engine, run.checkpoints⟩

/-! ### What is promised -/

/-- The values never decrease, stay between 0 and 100, and the last one is 100. -/
structure Promised (values : List ℤ) : Prop where
  sorted : values.Pairwise (· ≤ ·)
  within : ∀ value ∈ values, 0 ≤ value ∧ value ≤ 100
  last : values.getLast? = some 100

/-- A checkpoint that can be loaded, and whose reports never decrease and stay between 0 and 100. -/
structure Reports (cp : Checkpoint) : Prop where
  loads : cp.estimate ≠ none
  sorted : cp.reports.Pairwise (· ≤ ·)
  within : ∀ cpProg ∈ cp.reports, 0 ≤ cpProg ∧ cpProg ≤ 100

/-- The reports that are made for a checkpoint: its own, and that of the engine unless the last
report, which may be from an execution before, is 100. -/
def made (cp : Checkpoint) : List ℤ :=
  cp.reports ++ if (cp.reports.getLast?.elim cp.data.progReported fun cpProg ↦ (cpProg : ℚ)) <
    100 then [100] else []

/-- The estimate of a checkpoint, which is no less than 1. -/
def estimateOf (cp : Checkpoint) : ℚ :=
  if cp.estimate.getD 0 ≤ 0 then 1 else cp.estimate.getD 0

/-- The total of the estimates. -/
def totalEstimate (estimates : List ℚ) : ℚ :=
  estimates.foldl (fun total estimate ↦ context (total + estimate)) 0

/-- The last number and what is missing. -/
def addLast (missing : ℚ) : List ℚ → List ℚ
  | [] => []
  | [ratio] => [context (ratio + missing)]
  | ratio :: rest => ratio :: addLast missing rest

/-- The shares for the estimates. -/
def shares (estimates : List ℚ) : List ℚ :=
  let ratios := estimates.map (progEstRatio (totalEstimate estimates))
  addLast (context (1 - ratios.foldl (fun total ratio ↦
    context (total + ratio)) execPrepRatioDecimal)) ratios

/-- The shares of the checkpoints with the reports that are made for them. -/
def entries (checkpoints : List Checkpoint) : List (ℚ × List ℤ) :=
  (shares (checkpoints.map estimateOf)).zip (checkpoints.map made)

end Userland.Install.Engine
