import Mathlib.Data.List.DropRight
import Mathlib.Data.List.InsertIdx
import Mathlib.Data.List.Nodup
import Userland.Library.Dict

/-!
# Checkpoints of the install engine

The engine keeps a list of checkpoints. `registerCheckpoint` adds one, `executeCheckpoints` executes
those that `getExecList` selects, and `rollback` goes back to the cache as it was before a completed
one. The cache of data objects is a value with the engine's own node beside its other contents, a
snapshot file holds one such value, and the files are a dictionary.

Scope: calls that wait for the execution, in one process without a ZFS dataset and without
debugging. A checkpoint changes the contents of the cache other than the engine's node. The import
of a checkpoint's class, its construction, its outcome and what it does to the cache are given with
each call. Progress reports, and the error service are left out.
-/

set_option autoImplicit false
set_option relaxedAutoImplicit false

namespace Userland.Install.Engine

open Userland.Library

abbrev Text := List Char

variable {α δ : Type}

/-! ### Data -/

/-- `CheckpointRegistrationData`. -/
structure RegistrationData (α : Type) where
  cpName : Text
  modName : Text
  modulePath : Option Text
  checkpointClassName : Text
  loglevel : Option ℕ
  regArgs : List α
  regKwargs : List (Text × α)
deriving DecidableEq

/-- `CheckpointData`. -/
structure CheckpointData (α : Type) where
  cpInfo : RegistrationData α
  completed : Bool
  dataCachePath : Option Text
deriving DecidableEq

def CheckpointData.name (cp : CheckpointData α) : Text :=
  cp.cpInfo.cpName

/-- The persistent part of the cache: the children of the engine's node, once there is one, and the
rest. -/
structure Doc (α δ : Type) where
  engineDocRoot : Option (List (RegistrationData α))
  rest : δ
deriving DecidableEq

/-- The registration data that the engine's node lists. -/
def Doc.listed (doc : Doc α δ) : List (RegistrationData α) :=
  doc.engineDocRoot.getD []

/-- `_engine_doc_root.insert_children(cp_info)`. -/
def Doc.insertChild (doc : Doc α δ) (cpInfo : RegistrationData α) : Doc α δ :=
  { doc with engineDocRoot := some (doc.listed ++ [cpInfo]) }

/-- The engine, with the files of its snapshots. The engine does not keep `history`: every
checkpoint that was executed, the last first, with the cache just before. -/
structure InstallEngine (α δ : Type) where
  checkpoints : List (CheckpointData α)
  doc : Doc α δ
  files : List (Text × Doc α δ)
  history : List (Text × Doc α δ)

/-- The engine before any call, with a cache that has no node of the engine. -/
def InstallEngine.init (rest : δ) : InstallEngine α δ where
  checkpoints := []
  doc := ⟨none, rest⟩
  files := []
  history := []

/-- The exceptions that the calls raise, with their texts. -/
inductive Raise
  | chkptRegistrationError (message : Text)
  | unknownChkptError (message : Text)
  | usageError (message : Text)
  | rollbackError (checkpoint : Text) (reason : Text)
  | noCacheError (checkpoint : Text) (cachePath : Text)
  | invalidCheckpoint
deriving DecidableEq

/-! ### Registration -/

/-- The arguments of `register_checkpoint`, and whether `validate_checkpoint_info` finds the class
and accepts the arguments for its constructor. -/
structure Registration (α : Type) where
  checkpointName : Option Text
  modulePath : Option Text
  checkpointClassName : Option Text
  insertBefore : Option Text
  loglevel : Option ℕ
  args : List α
  kwargs : Option (List (Text × α))
  valid : Bool

/-- The characters that a name should have. -/
def allowed : Text :=
  "abcdefghijklmnopqrstuvwxyzABCDEFGHIJKLMNOPQRSTUVWXYZ0123456789.-_".toList

/-- `set(name) > allowed`: a name with every allowed character and another one. -/
def exceedsAllowed (name : Text) : Bool :=
  allowed.all name.contains && name.any fun c ↦ !allowed.contains c

/-- `str` of an optional text. -/
def strOf (text : Option Text) : Text :=
  text.getD "None".toList

/-- The checks of `register_checkpoint` on its arguments, with the name, the path and the class. -/
def checkArguments (reg : Registration α) : Except Raise (Text × Text × Text) :=
  match reg.checkpointName with
  | none => .error (.chkptRegistrationError "checkpoint_name must be specified.".toList)
  | some name =>
    if name.length < 1 ∨ 256 < name.length then
      .error (.chkptRegistrationError
        "Length of checkpoint_name must be between 1-256 characters.".toList)
    else if exceedsAllowed name then
      .error (.chkptRegistrationError
        ("checkpoint_name is restricted to have only ASCII letters, numbers, dots, dashes and " ++
          "underscore.").toList)
    else if (reg.modulePath.getD []).isEmpty then
      .error (.chkptRegistrationError ("module_path must not be ".toList ++ strOf reg.modulePath))
    else if (reg.checkpointClassName.getD []).isEmpty then
      .error (.chkptRegistrationError
        ("checkpoint_class_name must not be ".toList ++ strOf reg.checkpointClassName))
    else .ok (name, reg.modulePath.getD [], reg.checkpointClassName.getD [])

theorem checkArguments_ok {reg : Registration α} {name path className : Text}
    (h : checkArguments reg = .ok (name, path, className)) : name ≠ [] := by
  unfold checkArguments at h
  cases hname : reg.checkpointName with
  | none =>
    rw [hname] at h
    cases h
  | some text =>
    rw [hname] at h
    simp only at h
    split_ifs at h with hlength
    obtain rfl : text = name := congrArg Prod.fst (Except.ok.inj h)
    rintro rfl
    exact hlength (Or.inl Nat.zero_lt_one)

/-- The loop over the registered checkpoints: the index of the one to insert before. -/
def findInsertIndex (name : Text) (insertBefore : Option Text) :
    ℕ → List (CheckpointData α) → Except Raise (Option ℕ)
  | _, [] => .ok none
  | index, cp :: rest =>
    if cp.name = name then
      .error (.chkptRegistrationError (name ++ " has already been used.".toList))
    else if insertBefore = some cp.name then
      if cp.completed then
        .error (.chkptRegistrationError (cp.name ++ " has been executed.".toList))
      else (findInsertIndex name insertBefore (index + 1) rest).map fun later ↦ later <|> some index
    else findInsertIndex name insertBefore (index + 1) rest

/-- A checkpoint to insert before is not completed, and a new name is not in the list. -/
theorem findInsertIndex_ok {name : Text} {insertBefore : Option Text} {index : ℕ}
    {cps : List (CheckpointData α)} {found : Option ℕ}
    (h : findInsertIndex name insertBefore index cps = .ok found) :
    name ∉ cps.map CheckpointData.name ∧ ∀ i, found = some i → ∃ before cp after,
      cps = before ++ cp :: after ∧ i = index + before.length ∧ cp.completed = false := by
  induction cps generalizing index found with
  | nil =>
    obtain rfl : none = found := Except.ok.inj h
    exact ⟨List.not_mem_nil, fun i hi ↦ nomatch hi⟩
  | cons cp rest ih =>
    rw [findInsertIndex] at h
    by_cases hname : cp.name = name
    · rw [if_pos hname] at h
      cases h
    rw [if_neg hname] at h
    have hlater : ∀ {found : Option ℕ},
        findInsertIndex name insertBefore (index + 1) rest = .ok found →
        name ∉ (cp :: rest).map CheckpointData.name ∧ ∀ i, found = some i → ∃ before cp' after,
          cp :: rest = before ++ cp' :: after ∧ i = index + before.length ∧
              cp'.completed = false := by
      intro found hfound
      obtain ⟨hnew, hsplit⟩ := ih hfound
      refine ⟨?_, fun i hi ↦ ?_⟩
      · rw [List.map_cons, List.mem_cons, not_or]
        exact ⟨fun heq ↦ hname heq.symm, hnew⟩
      · obtain ⟨before, cp', after, rfl, rfl, hcompleted⟩ := hsplit i hi
        refine ⟨cp :: before, cp', after, rfl, ?_, hcompleted⟩
        rw [List.length_cons]
        omega
    by_cases hbefore : insertBefore = some cp.name
    · rw [if_pos hbefore] at h
      by_cases hcompleted : cp.completed = true
      · rw [if_pos hcompleted] at h
        cases h
      rw [if_neg hcompleted] at h
      cases hrest : findInsertIndex name insertBefore (index + 1) rest with
      | error raised =>
        rw [hrest] at h
        cases h
      | ok later =>
        rw [hrest] at h
        obtain rfl : (later <|> some index) = found := Except.ok.inj h
        refine ⟨(hlater hrest).1, fun i hi ↦ ?_⟩
        cases later with
        | some j => exact (hlater hrest).2 i hi
        | none =>
          obtain rfl : index = i := Option.some.inj hi
          exact ⟨[], cp, rest, rfl, rfl, Bool.eq_false_iff.mpr hcompleted⟩
    · rw [if_neg hbefore] at h
      exact hlater h

/-- The name and the directory of a module: of a path, the parts after and before the last slash. -/
def splitModulePath (path : Text) : Text × Option Text :=
  if path.head? = some '/' then
    let head := path.rdropWhile (· ≠ '/')
    let dir := head.rdropWhile (· = '/')
    (path.rtakeWhile (· ≠ '/'), some (if dir.isEmpty then head else dir))
  else (path, none)

/-- `CheckpointData(...)`. -/
def newCheckpoint (name path className : Text) (reg : Registration α) : CheckpointData α where
  cpInfo :=
    { cpName := name
      modName := (splitModulePath path).1
      modulePath := (splitModulePath path).2
      checkpointClassName := className
      loglevel := reg.loglevel
      regArgs := reg.args
      regKwargs := reg.kwargs.getD [] }
  completed := false
  dataCachePath := none

/-- `register_checkpoint`. -/
def InstallEngine.registerCheckpoint (engine : InstallEngine α δ) (reg : Registration α) :
    Except Raise (InstallEngine α δ) := do
  let (name, path, className) ← checkArguments reg
  let found ← findInsertIndex name reg.insertBefore 0 engine.checkpoints
  if reg.insertBefore.isSome && found.isNone then
    throw (.chkptRegistrationError ("insert_before checkpoint: ".toList ++
      strOf reg.insertBefore ++ "is not a valid checkpoint".toList))
  if !reg.valid then throw .invalidCheckpoint
  return { engine with
    checkpoints := engine.checkpoints.insertIdx (found.getD engine.checkpoints.length)
      (newCheckpoint name path className reg) }

theorem insertIdx_length_append {β : Type} (before after : List β) (element : β) :
    (before ++ after).insertIdx before.length element = before ++ element :: after := by
  induction before with
  | nil => exact List.insertIdx_zero
  | cons first rest ih => rw [List.cons_append, List.length_cons, List.insertIdx_succ_cons, ih,
      List.cons_append]

/-- What a registration does: it inserts a checkpoint that is not completed, under a new name, at
the end or before another one that is not completed. -/
theorem registerCheckpoint_ok {engine engine' : InstallEngine α δ} {reg : Registration α}
    (h : engine.registerCheckpoint reg = .ok engine') :
    ∃ before cp after, engine.checkpoints = before ++ after ∧
      engine' = { engine with checkpoints := before ++ cp :: after } ∧
      cp.completed = false ∧ cp.name ≠ [] ∧ cp.name ∉ engine.checkpoints.map CheckpointData.name ∧
      ∀ next ∈ after.head?, next.completed = false := by
  unfold InstallEngine.registerCheckpoint at h
  cases hchecked : checkArguments reg with
  | error raised =>
    rw [hchecked] at h
    cases h
  | ok arguments =>
  obtain ⟨name, path, className⟩ := arguments
  cases hfound : findInsertIndex name reg.insertBefore 0 engine.checkpoints with
  | error raised =>
    simp only [hchecked, hfound, bind, Except.bind] at h
    cases h
  | ok found =>
  simp only [hchecked, hfound, bind, Except.bind] at h
  split_ifs at h
  obtain ⟨hnew, hsplit⟩ := findInsertIndex_ok hfound
  have h' := (Except.ok.inj h).symm
  cases found with
  | none =>
    refine ⟨engine.checkpoints, newCheckpoint name path className reg, [], (List.append_nil _).symm,
      ?_, rfl, checkArguments_ok hchecked, hnew, fun next hnext ↦ ?_⟩
    · rw [h', Option.getD_none, List.insertIdx_length_self]
    · cases hnext
  | some index =>
    obtain ⟨before, cp, after, hcps, hindex, hcompleted⟩ := hsplit index rfl
    refine ⟨before, newCheckpoint name path className reg, cp :: after, hcps, ?_, rfl,
      checkArguments_ok hchecked, hnew, fun next hnext ↦ ?_⟩
    · rw [h', Option.getD_some, hcps, hindex, Nat.zero_add, insertIdx_length_append]
    · obtain rfl : cp = next := Option.some.inj hnext
      exact hcompleted

/-! ### The list to execute -/

/-- `get_cp_data`. -/
def InstallEngine.getCpData (engine : InstallEngine α δ) (name : Text) :
    Except Raise (CheckpointData α) :=
  match engine.checkpoints.find? fun cp ↦ cp.name = name with
  | some cp => .ok cp
  | none => .error (.unknownChkptError
      ("'".toList ++ name ++ "' is not a registered checkpoint".toList))

/-- `get_first_incomplete`. -/
def InstallEngine.getFirstIncomplete (engine : InstallEngine α δ) : Option (CheckpointData α) :=
  engine.checkpoints.find? fun cp ↦ !cp.completed

/-- The loop of `get_exec_list`. -/
def collectExecList (startFrom : Text) (pauseBefore : Option Text) :
    Bool → List (CheckpointData α) → Except Raise (List (CheckpointData α))
  | foundStart, [] =>
    if foundStart then
      match pauseBefore with
      | none => .ok []
      | some pause => .error (.unknownChkptError
          ("'".toList ++ pause ++ "' is not a valid checkpoint to pause execution at.".toList))
    else .error (.unknownChkptError
      ("'".toList ++ startFrom ++ "' is not a valid checkpoint to start execution from.".toList))
  | foundStart, cp :: rest =>
    let foundStart := foundStart || cp.name = startFrom
    if foundStart ∧ pauseBefore = some cp.name then .ok []
    else if foundStart then (collectExecList startFrom pauseBefore true rest).map (cp :: ·)
    else if !cp.completed then
      .error (.usageError ("Invalid start checkpoint. Previous checkpoint (".toList ++ cp.name ++
        ") not completed.".toList))
    else collectExecList startFrom pauseBefore false rest

/-- `get_exec_list`. -/
def InstallEngine.getExecList (engine : InstallEngine α δ) (startFrom pauseBefore : Option Text) :
    Except Raise (List (CheckpointData α)) :=
  match startFrom, engine.getFirstIncomplete with
  | none, none => .ok []
  | none, some first => collectExecList first.name pauseBefore false engine.checkpoints
  | some start, _ => collectExecList start pauseBefore false engine.checkpoints

/-- The checkpoints `cps` are the ones that a call asks for: the ones from `startFrom`, or from the
first that is not completed, to `pauseBefore`, or to the end. All before them are completed. -/
structure Requested (startFrom pauseBefore : Option Text)
    (before cps after : List (CheckpointData α)) : Prop where
  completed : ∀ cp ∈ before, cp.completed = true
  start : ∀ cp ∈ cps.head?, startFrom.elim (cp.completed = false) (cp.name = ·)
  pause : after.head?.map CheckpointData.name = pauseBefore

theorem collectExecList_true {startFrom : Text} {pauseBefore : Option Text}
    {all cps : List (CheckpointData α)}
    (h : collectExecList startFrom pauseBefore true all = .ok cps) :
    ∃ after, all = cps ++ after ∧ after.head?.map CheckpointData.name = pauseBefore := by
  induction all generalizing cps with
  | nil =>
    cases pauseBefore with
    | none =>
      obtain rfl : [] = cps := Except.ok.inj h
      exact ⟨[], rfl, rfl⟩
    | some pause => cases h
  | cons cp rest ih =>
    rw [collectExecList, Bool.true_or] at h
    by_cases hpause : pauseBefore = some cp.name
    · rw [if_pos ⟨rfl, hpause⟩] at h
      obtain rfl : [] = cps := Except.ok.inj h
      exact ⟨cp :: rest, rfl, hpause.symm⟩
    · rw [if_neg fun hand ↦ hpause hand.2, if_pos rfl] at h
      cases hrest : collectExecList startFrom pauseBefore true rest with
      | error raised =>
        rw [hrest] at h
        cases h
      | ok later =>
        rw [hrest] at h
        obtain rfl : cp :: later = cps := Except.ok.inj h
        obtain ⟨after, rfl, hafter⟩ := ih hrest
        exact ⟨after, rfl, hafter⟩

theorem collectExecList_false {startFrom : Text} {pauseBefore : Option Text}
    {all cps : List (CheckpointData α)}
    (h : collectExecList startFrom pauseBefore false all = .ok cps) :
    ∃ before after, all = before ++ cps ++ after ∧ (∀ cp ∈ before, cp.completed = true) ∧
      (cps ++ after).head?.map CheckpointData.name = some startFrom ∧
      after.head?.map CheckpointData.name = pauseBefore := by
  induction all with
  | nil => cases h
  | cons cp rest ih =>
    rw [collectExecList, Bool.false_or] at h
    by_cases hname : cp.name = startFrom
    · have hfound : collectExecList startFrom pauseBefore true (cp :: rest) = .ok cps := by
        rw [collectExecList, Bool.true_or, ← h, decide_eq_true hname]
      obtain ⟨after, hall, hafter⟩ := collectExecList_true hfound
      refine ⟨[], after, hall, fun _ hcp ↦ absurd hcp List.not_mem_nil, ?_, hafter⟩
      rw [← hall, List.head?_cons, Option.map_some, hname]
    · rw [decide_eq_false hname, if_neg fun hand ↦ Bool.noConfusion hand.1,
        if_neg Bool.false_ne_true] at h
      by_cases hcompleted : cp.completed = true
      · rw [hcompleted, Bool.not_true, if_neg Bool.false_ne_true] at h
        obtain ⟨before, after, rfl, hbefore, hhead, hafter⟩ := ih h
        refine ⟨cp :: before, after, rfl, fun other hother ↦ ?_, hhead, hafter⟩
        rcases List.mem_cons.mp hother with rfl | hother
        · exact hcompleted
        · exact hbefore other hother
      · rw [Bool.eq_false_iff.mpr hcompleted, Bool.not_false, if_pos rfl] at h
        cases h

/-- Assumes: no two checkpoints have one name. `get_exec_list` selects what is asked for. -/
theorem getExecList_ok {engine : InstallEngine α δ} {startFrom pauseBefore : Option Text}
    {cps : List (CheckpointData α)} (hnames : (engine.checkpoints.map CheckpointData.name).Nodup)
    (h : engine.getExecList startFrom pauseBefore = .ok cps) (hne : cps ≠ []) :
    ∃ before after, engine.checkpoints = before ++ cps ++ after ∧
      Requested startFrom pauseBefore before cps after := by
  have hcollected : ∀ start, collectExecList start pauseBefore false engine.checkpoints = .ok cps →
      ∃ before after, engine.checkpoints = before ++ cps ++ after ∧
        (∀ cp ∈ before, cp.completed = true) ∧ (∀ cp ∈ cps.head?, cp.name = start) ∧
          after.head?.map CheckpointData.name = pauseBefore := by
    intro start hstart
    obtain ⟨before, after, hsplit, hcompleted, hhead, hafter⟩ := collectExecList_false hstart
    refine ⟨before, after, hsplit, hcompleted, fun cp hcp ↦ ?_, hafter⟩
    rw [List.head?_append, Option.mem_def.mp hcp] at hhead
    exact Option.some.inj hhead
  unfold InstallEngine.getExecList at h
  cases startFrom with
  | some start =>
    obtain ⟨before, after, hsplit, hcompleted, hhead, hafter⟩ := hcollected start h
    exact ⟨before, after, hsplit, hcompleted, hhead, hafter⟩
  | none =>
    cases hfirst : engine.getFirstIncomplete with
    | none =>
      rw [hfirst] at h
      exact absurd (Except.ok.inj h).symm hne
    | some first =>
      rw [hfirst] at h
      obtain ⟨before, after, hsplit, hcompleted, hhead, hafter⟩ := hcollected first.name h
      refine ⟨before, after, hsplit, hcompleted, fun cp hcp ↦ ?_, hafter⟩
      have hmem : cp ∈ engine.checkpoints := by
        rw [hsplit]
        exact List.mem_append_left _ (List.mem_append_right _ (List.mem_of_mem_head? hcp))
      have hfirstMem : first ∈ engine.checkpoints := List.mem_of_find?_eq_some hfirst
      obtain rfl : cp = first := List.inj_on_of_nodup_map hnames hmem hfirstMem (hhead cp hcp)
      have hincomplete := List.find?_some hfirst
      exact (Bool.not_eq_true' _).mp hincomplete

end Userland.Install.Engine
