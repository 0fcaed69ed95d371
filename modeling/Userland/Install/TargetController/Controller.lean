import Userland.Install.TargetController.Disk
import Userland.Library.Program

/-!
# The target controller

`selectDisk`, `addDisk` and `resetLayout` move disks between the discovered targets, the desired
targets and the backups. All of them insert disks with `addDisks`, and `exists_addDisks` says what
it changes, also where the code for layouts raises.

Scope: the disks of the desired targets stand before its logical element, and only they are
modelled.
-/

set_option autoImplicit false
set_option relaxedAutoImplicit false

namespace Userland.Install.TargetController

open Userland.Library Userland.Library.Program

/-! ### State -/

/-- The exceptions of the operations. The last one is any that the code for layouts raises. -/
inductive Raise
  | badDiskError (message : Text)
  | subSizeDiskError (message : Text)
  | objectNotFoundError
  | layoutError
deriving DecidableEq

/-- `BadDiskError`, or its sub-class `SubSizeDiskError`. -/
def Raise.isBadDisk : Raise → Bool
  | .badDiskError _ => true
  | .subSizeDiskError _ => true
  | _ => false

inductive Redundancy
  | none
  | mirror
deriving DecidableEq

/-- The disks of the desired targets, the entries of the backup area, once there is one,
`_need_backup`, and the redundancy of the vdev. -/
structure Controller where
  desired : List Disk
  backupArea : Option (List (List Disk))
  needBackup : Bool
  redundancy : Redundancy

abbrev TC := Program Controller Raise

def ofOption {α : Type} : Option α → TC α
  | some value => pure value
  | none => throw .layoutError

/-- A disk that is passed to an operation: its identifiers, and its place among the discovered disks
where it is one of these objects. -/
structure DiskRef where
  identity : Identity
  object : Option ℕ

/-! ### Operations -/

/-- The loop of `_get_corresponding_discovered_disks` over the discovered disks. -/
def findDiscovered (ref : DiskRef) : ℕ → List Disk → Option Disk
  | _, [] => none
  | index, disk :: rest =>
    if ref.object = some index ∨ ref.identity.nameMatches disk.identity then some disk
    else findDiscovered ref (index + 1) rest

/-- `_get_corresponding_discovered_disks`. -/
def Config.getCorrespondingDiscoveredDisks (config : Config) (refs : List DiskRef) :
    Except Raise (List Disk) :=
  refs.mapM fun ref ↦ match findDiscovered ref 0 config.discovered with
    | some disk => .ok disk
    | none => .error (.badDiskError "No equivalent Disk in discovered targets!".toList)

/-- `_check_disks_are_suitable`. -/
def Config.checkDisksAreSuitable (config : Config) : List Disk → Except Raise Unit
  | [] => .ok ()
  | disk :: rest =>
    if !config.discovered.contains disk then
      .error (.badDiskError "Disk is not in discovered targets!".toList)
    else if !config.isBigEnough disk then
      .error (.subSizeDiskError "Disk is not big enough for install".toList)
    else config.checkDisksAreSuitable rest

/-- `contains_same_disks`. -/
def containsSameDisks (entry disks : List Disk) : Bool :=
  entry.length == disks.length &&
    disks.all fun disk ↦ entry.any fun backup ↦ disk.identity.nameMatches backup.identity

/-- `_backup_disks`. -/
def backupDisks (disks : List Disk) (area : Option (List (List Disk))) : List (List Disk) :=
  (area.getD []).filter (fun entry ↦ !containsSameDisks entry disks) ++ [disks]

/-- `_fetch_from_backup`. -/
def fetchFromBackup (area : Option (List (List Disk))) (disks : List Disk) : Option (List Disk) :=
  (area.getD []).find? fun entry ↦ containsSameDisks entry disks

/-- The loops of `_add_disks`: each disk is laid out, fixed up, and inserted if it could be set up.
-/
def Config.insertDisks (config : Config) (useWholeDisk : Bool) (layOut : Disk → Option Body) :
    List Disk → TC (List (Bool × Disk))
  | [] => pure []
  | disk :: rest => do
    let body ← ofOption (layOut disk)
    let (kept, body) ← ofOption (config.fixupDisk ⟨disk.identity, body⟩ useWholeDisk)
    modify fun s ↦ if kept then { s with desired := s.desired ++ [⟨disk.identity, body⟩] } else s
    let others ← config.insertDisks useWholeDisk layOut rest
    pure ((kept, ⟨disk.identity, body⟩) :: others)

/-- The vdev is a mirror unless there is one desired disk. -/
def Config.setRedundancy (config : Config) : TC Unit :=
  match config.vdev with
  | none => throw .layoutError
  | some _ => modify fun s ↦
    { s with redundancy := if s.desired.length = 1 then .none else .mirror }

/-- `_add_disks`. -/
def Config.addDisks (config : Config) (disks : List Disk) (useWholeDisk : Bool) :
    TC (List Disk) := do
  let s ← get
  match if useWholeDisk then none else fetchFromBackup s.backupArea disks with
  | some entry =>
    modify fun s ↦ { s with
      backupArea := s.backupArea.map fun area ↦ area.eraseP fun entry ↦
        containsSameDisks entry disks }
    let fixed ← config.insertDisks useWholeDisk (fun disk ↦ some disk.body) entry
    config.setRedundancy
    pure (if fixed.any Prod.fst then fixed.map Prod.snd else [])
  | none =>
    let fixed ← config.insertDisks useWholeDisk (fun disk ↦ config.layOut disk useWholeDisk) disks
    config.setRedundancy
    pure ((fixed.filter Prod.fst).map Prod.snd)

/-- The desired disks are cleared, and backed up if they have to be. -/
def Controller.deselect (s : Controller) : Controller :=
  { s with
    desired := []
    backupArea := if s.needBackup then some (backupDisks s.desired s.backupArea) else s.backupArea }

/-- The discovered disks for the ones that are passed, if these are suitable. -/
def Config.suitableDisks (config : Config) (refs : List DiskRef) : Except Raise (List Disk) :=
  match config.getCorrespondingDiscoveredDisks refs with
  | .error raised => .error raised
  | .ok disks => match config.checkDisksAreSuitable disks with
    | .error raised => .error raised
    | .ok () => .ok disks

/-- `select_disk`. -/
def Config.selectDisk (config : Config) (refs : List DiskRef) (useWholeDisk : Bool) :
    TC (List Disk) := do
  let disks ← lift (config.suitableDisks refs)
  modify Controller.deselect
  let returned ← config.addDisks disks useWholeDisk
  modify fun s ↦ { s with needBackup := !useWholeDisk }
  pure returned

/-- `add_disk`. -/
def Config.addDisk (config : Config) (refs : List DiskRef) (useWholeDisk : Bool) :
    TC (List Disk) := do
  let disks ← lift (config.suitableDisks refs)
  let s ← get
  if s.desired.any fun current ↦ disks.any fun new ↦ current.identity.nameMatches new.identity then
    throw (.badDiskError "Attempt to add same disk twice!".toList)
  else config.addDisks disks useWholeDisk

/-- The loop of `reset_layout` over the desired disks: each that the disk matches is removed, where
the flag says whether it is still there. -/
def removeMatching (disk : Identity) : List (Disk × Bool) → Except Raise Bool × List (Disk × Bool)
  | [] => (.ok false, [])
  | (current, present) :: rest =>
    if disk.nameMatches current.identity then
      if present then
        let (found, rest) := removeMatching disk rest
        (found.map fun _ ↦ true, (current, false) :: rest)
      else (.error .objectNotFoundError, (current, present) :: rest)
    else
      let (found, rest) := removeMatching disk rest
      (found, (current, present) :: rest)

/-- The disks that are still there. -/
def remaining (current : List (Disk × Bool)) : List Disk :=
  (current.filter Prod.snd).map Prod.fst

/-- The discovered disk with the name of a disk to reset. -/
def Config.findByCtd (config : Config) (disk : Identity) : Option Disk :=
  config.discovered.find? fun discovered ↦ discovered.identity.ctd = disk.ctd

/-- The loop of `reset_layout` over the disks to reset. -/
def Config.resetDisks (config : Config) (useWholeDisk : Bool) :
    List Identity → List (Disk × Bool) → List Disk → TC (List Disk)
  | [], _, _ => pure []
  | disk :: rest, current, inserted =>
    match config.findByCtd disk with
    | none => throw (.badDiskError "Trying to reset a disk not in discovered targets!".toList)
    | some discovered => do
      let (found, current) := removeMatching disk current
      modify fun s ↦ { s with desired := remaining current ++ inserted }
      let found ← lift found
      if found then do
        let body ← ofOption (config.layOut discovered useWholeDisk)
        let (kept, body) ← ofOption (config.fixupDisk ⟨discovered.identity, body⟩ useWholeDisk)
        let copy : Disk := ⟨discovered.identity, body⟩
        let inserted := if kept then inserted ++ [copy] else inserted
        modify fun s ↦ { s with desired := remaining current ++ inserted }
        let others ← config.resetDisks useWholeDisk rest current inserted
        pure (copy :: others)
      else throw (.badDiskError "Trying to reset an unselected disk!".toList)

/-- `reset_layout`. -/
def Config.resetLayout (config : Config) (ref : Option DiskRef) (useWholeDisk : Bool) :
    TC (List Disk) := do
  let s ← get
  let disks := match ref with
    | some ref => [ref.identity]
    | none => s.desired.flatMap fun current ↦
      (config.discovered.map Disk.identity).filter current.identity.nameMatches
  config.resetDisks useWholeDisk disks (s.desired.map fun current ↦ (current, true)) []

/-- `select_initial_disk`. -/
def Config.selectInitialDisk (config : Config) : Except Raise Disk :=
  match config.discovered.find? fun disk ↦ disk.body.bootDisk && config.isBigEnough disk with
  | some disk => .ok disk
  | none => match config.discovered.find? config.isBigEnough with
    | some disk => .ok disk
    | none => .error
      (.badDiskError "None of the available disks are big enough for install!".toList)

/-- A controller whose desired targets have no disk yet. -/
def Controller.empty : Controller where
  desired := []
  backupArea := none
  needBackup := false
  redundancy := .none

/-- `initialize`, from the desired targets with a logical element and without disks. -/
def Config.selectInitial (config : Config) : TC (List Disk) := do
  let disk ← lift config.selectInitialDisk
  let returned ← config.addDisks [disk] false
  modify fun s ↦ { s with needBackup := true }
  pure returned

/-! ### Insertion -/

def identities (disks : List Disk) : List Identity :=
  disks.map Disk.identity

@[simp] theorem identities_append (first second : List Disk) :
    identities (first ++ second) = identities first ++ identities second :=
  List.map_append

theorem mem_identities {disk : Disk} {disks : List Disk} (h : disk ∈ disks) :
    disk.identity ∈ identities disks :=
  List.mem_map_of_mem h

variable (config : Config)

@[simp] theorem exec_ofOption_some {α : Type} (value : α) (s : Controller) :
    exec (ofOption (some value)) s = (.ok value, s) := rfl

/-- The inserted disks are some of the given ones, by their identifiers, and nothing else changes,
also where the code for layouts raises. -/
theorem exists_insertDisks (useWholeDisk : Bool) (layOut : Disk → Option Body) (disks : List Disk)
    (s : Controller) : ∃ result added,
      exec (config.insertDisks useWholeDisk layOut disks) s =
        (result, { s with desired := s.desired ++ added }) ∧
      (identities added).Sublist (identities disks) ∧ ∀ raised, result = .error raised →
          raised = .layoutError := by
  induction disks generalizing s with
  | nil =>
    refine ⟨.ok [], [], ?_, List.Sublist.refl _, fun raised h ↦ nomatch h⟩
    rw [Config.insertDisks, exec_pure, List.append_nil]
  | cons disk rest ih =>
    have hfails : ∃ added, s = { s with desired := s.desired ++ added } ∧
        (identities added).Sublist (identities (disk :: rest)) :=
      ⟨[], by rw [List.append_nil], List.nil_sublist _⟩
    rw [Config.insertDisks, exec_bind]
    cases hlayout : layOut disk with
    | none =>
      obtain ⟨added, hadded, hsub⟩ := hfails
      refine ⟨_, added, ?_, hsub, fun raised h ↦ (Except.error.inj h).symm⟩
      rw [← hadded]
      rfl
    | some body =>
      rw [exec_ofOption_some]
      simp only
      rw [exec_bind]
      cases hfixup : config.fixupDisk ⟨disk.identity, body⟩ useWholeDisk with
      | none =>
        obtain ⟨added, hadded, hsub⟩ := hfails
        refine ⟨_, added, ?_, hsub, fun raised h ↦ (Except.error.inj h).symm⟩
        rw [← hadded]
        rfl
      | some fixed =>
        obtain ⟨kept, body⟩ := fixed
        rw [exec_ofOption_some]
        simp only
        rw [exec_bind, exec_modify]
        simp only
        rw [exec_bind]
        cases kept with
        | true =>
          obtain ⟨result, added, hexec, hsub, herror⟩ :=
            ih { s with desired := s.desired ++ [⟨disk.identity, body⟩] }
          rw [if_pos rfl, hexec]
          refine ⟨result.map ((true, ⟨disk.identity, body⟩) :: ·),
            ⟨disk.identity, body⟩ :: added, ?_, hsub.cons_cons _, fun raised h ↦ ?_⟩
          · rw [List.append_assoc, List.singleton_append]
            cases result <;> rfl
          · cases result with
            | ok others => cases h
            | error raised' => exact herror raised h
        | false =>
          obtain ⟨result, added, hexec, hsub, herror⟩ := ih s
          rw [if_neg Bool.false_ne_true, hexec]
          refine ⟨result.map ((false, ⟨disk.identity, body⟩) :: ·), added, ?_, hsub.cons _,
            fun raised h ↦ ?_⟩
          · cases result <;> rfl
          · cases result with
            | ok others => cases h
            | error raised' => exact herror raised h

variable {config} in
/-- Disks whose layouts are left as they are are inserted as they are. -/
theorem exec_insertDisks_of_kept {useWholeDisk : Bool} {layOut : Disk → Option Body}
    {disks : List Disk} (h : ∀ disk ∈ disks, layOut disk = some disk.body ∧
      config.fixupDisk disk useWholeDisk = some (true, disk.body)) (s : Controller) :
    exec (config.insertDisks useWholeDisk layOut disks) s =
      (.ok (disks.map fun disk ↦ (true, disk)), { s with desired := s.desired ++ disks }) := by
  induction disks generalizing s with
  | nil => rw [Config.insertDisks, exec_pure, List.append_nil, List.map_nil]
  | cons disk rest ih =>
    obtain ⟨hlayout, hfixup⟩ := h disk List.mem_cons_self
    have hrest := ih (fun other hother ↦ h other (List.mem_cons_of_mem _ hother))
      { s with desired := s.desired ++ [disk] }
    rw [Config.insertDisks, exec_bind, hlayout, exec_ofOption_some]
    simp only
    rw [exec_bind, hfixup, exec_ofOption_some]
    simp only
    rw [exec_bind, exec_modify]
    simp only
    rw [exec_bind, if_pos trivial, hrest]
    simp only [exec_pure, List.append_assoc, List.singleton_append, List.map_cons]

theorem exec_setRedundancy (s : Controller) : ∃ result redundancy,
    exec config.setRedundancy s = (result, { s with redundancy }) ∧
      ∀ raised, result = .error raised → raised = .layoutError := by
  unfold Config.setRedundancy
  cases config.vdev with
  | none => exact ⟨_, s.redundancy, rfl, fun raised h ↦ (Except.error.inj h).symm⟩
  | some vdev => exact ⟨_, _, rfl, fun raised h ↦ nomatch h⟩

/-! ### What `_add_disks` does -/

/-- The backup area without the entry of the same disks, if there is one. -/
def withoutEntry (disks : List Disk) (area : Option (List (List Disk))) :
    Option (List (List Disk)) :=
  area.map fun area ↦ area.eraseP fun entry ↦ containsSameDisks entry disks

theorem withoutEntry_of_fetch_eq_none {disks : List Disk} {area : Option (List (List Disk))}
    (h : fetchFromBackup area disks = none) : withoutEntry disks area = area := by
  cases area with
  | none => rfl
  | some area =>
    refine congrArg some (List.eraseP_of_forall_not fun entry hentry ↦ ?_)
    exact List.find?_eq_none.mp h entry hentry

/-- What a call of `_add_disks` changes. The disks that it adds are some of the passed ones, by
their identifiers, or of the backup of these. -/
structure Added (disks : List Disk) (useWholeDisk : Bool) (before after : Controller) : Prop where
  needBackup : after.needBackup = before.needBackup
  backupArea : after.backupArea =
    if useWholeDisk then before.backupArea else withoutEntry disks before.backupArea
  desired : ∃ added source, after.desired = before.desired ++ added ∧
    (identities added).Sublist (identities source) ∧
    (source = disks ∨ useWholeDisk = false ∧ fetchFromBackup before.backupArea disks = some source)

theorem exec_insertDisks_setRedundancy {β : Type} (useWholeDisk : Bool)
    (layOut : Disk → Option Body)
    (disks : List Disk) (returned : List (Bool × Disk) → β) (s : Controller) :
    ∃ result added redundancy, exec (do
        let fixed ← config.insertDisks useWholeDisk layOut disks
        config.setRedundancy
        pure (returned fixed)) s =
      (result, { s with desired := s.desired ++ added, redundancy }) ∧
      (identities added).Sublist (identities disks) ∧
      (∀ raised, result = .error raised → raised = .layoutError) ∧
      ((∀ disk ∈ disks, layOut disk = some disk.body ∧
        config.fixupDisk disk useWholeDisk = some (true, disk.body)) → added = disks) := by
  obtain ⟨result, added, hexec, hsub, herror⟩ :=
    exists_insertDisks config useWholeDisk layOut disks s
  have hkept : (∀ disk ∈ disks, layOut disk = some disk.body ∧
      config.fixupDisk disk useWholeDisk = some (true, disk.body)) → added = disks := by
    intro h
    have hall := (exec_insertDisks_of_kept h s).symm.trans hexec
    have hdesired := congrArg Controller.desired (Prod.mk.inj hall).2
    exact (List.append_cancel_left hdesired).symm
  rw [exec_bind, hexec]
  cases result with
  | error raised => exact ⟨_, added, s.redundancy, rfl, hsub, fun raised' h ↦ herror raised' (by
      rw [← Except.error.inj h]), hkept⟩
  | ok fixed =>
    obtain ⟨result, redundancy, hset, hraise⟩ :=
      exec_setRedundancy config { s with desired := s.desired ++ added }
    simp only
    rw [exec_bind, hset]
    cases result with
    | error raised =>
      refine ⟨_, added, redundancy, rfl, hsub, fun raised' h ↦ ?_, hkept⟩
      exact hraise raised' (by rw [← Except.error.inj h])
    | ok _ => exact ⟨_, added, redundancy, rfl, hsub, fun raised h ↦ (nomatch h), hkept⟩

theorem exists_addDisks (disks : List Disk) (useWholeDisk : Bool) (s : Controller) :
    ∃ result after, exec (config.addDisks disks useWholeDisk) s = (result, after) ∧
      Added disks useWholeDisk s after ∧ (∀ raised, result = .error raised →
        raised = .layoutError) ∧
      ∀ entry, useWholeDisk = false → fetchFromBackup s.backupArea disks = some entry →
        (∀ disk ∈ entry, config.fixupDisk disk false = some (true, disk.body)) →
        after.desired = s.desired ++ entry := by
  unfold Config.addDisks
  rw [exec_bind, exec_get]
  simp only
  cases hfetch : if useWholeDisk then none else fetchFromBackup s.backupArea disks with
  | none =>
    obtain ⟨result, added, redundancy, hexec, hsub, herror, -⟩ :=
      exec_insertDisks_setRedundancy config
      useWholeDisk (fun disk ↦ config.layOut disk useWholeDisk) disks
      (fun fixed ↦ (fixed.filter Prod.fst).map Prod.snd) s
    refine ⟨result, _, hexec, ⟨rfl, ?_, added, disks, rfl, hsub, .inl rfl⟩, herror, ?_⟩
    · cases useWholeDisk with
      | true => rfl
      | false => exact (withoutEntry_of_fetch_eq_none hfetch).symm
    · rintro entry rfl hentry -
      rw [if_neg Bool.false_ne_true, hentry] at hfetch
      cases hfetch
  | some entry =>
    have hwhole : useWholeDisk = false := by
      by_contra h
      rw [if_pos (Bool.not_eq_false _ ▸ h)] at hfetch
      cases hfetch
    subst hwhole
    rw [if_neg Bool.false_ne_true] at hfetch
    simp only
    rw [exec_bind, exec_modify]
    simp only
    obtain ⟨result, added, redundancy, hexec, hsub, herror, hkept⟩ :=
      exec_insertDisks_setRedundancy config
      false (fun disk ↦ some disk.body) entry
      (fun fixed ↦ if fixed.any Prod.fst then fixed.map Prod.snd else [])
      { s with backupArea := withoutEntry disks s.backupArea }
    refine ⟨result, _, hexec, ⟨rfl, rfl, added, entry, rfl, hsub, .inr ⟨rfl, hfetch⟩⟩, herror, ?_⟩
    rintro entry' - hentry hfixup
    obtain rfl : entry = entry' := Option.some.inj (hfetch.symm.trans hentry)
    rw [hkept fun disk hdisk ↦ ⟨rfl, hfixup disk hdisk⟩]

end Userland.Install.TargetController
