import Userland.Install.Target.Gaps

/-!
# Merging the partitions of a disk

`__handle_disk` copies the partitions of a discovered disk that the manifest does not name to a new
disk, in the order of their names, and `__handle_partition` inserts those of the manifest after
them. `UnnamedSurvive` and `CopiesQuiet` say what becomes of the partitions that the manifest does
not name.

Scope. The disk is a discovered one of known size with partitions only, and it is found; the
manifest gives partitions for it. What is done with the slices that the manifest gives for a
partition is a parameter, as is the geometry of a disk that gets a VTOC label. The processor is an
i386. Warnings are left out.
-/

set_option autoImplicit false
set_option relaxedAutoImplicit false

namespace Userland.Install.Target

/-- The action of an object that stays as it is. -/
def Action.preserve : Action := some ['p', 'r', 'e', 's', 'e', 'r', 'v', 'e']

/-- The action of a Solaris partition that is used as it is. -/
def Action.useExistingSolaris2 : Action :=
  some ['u', 's', 'e', '_', 'e', 'x', 'i', 's', 't', 'i', 'n', 'g', '_', 's', 'o', 'l', 'a', 'r',
    'i', 's', '2']

/-- The number of the type `Solaris2`. -/
def Partition.solaris2 : ℤ := 191

/-- The number of the types `Solaris/Linux swap`. -/
def Partition.solarisLinuxSwap : ℤ := 130

/-- `is_solaris`, of a type and whether it is one of Linux. -/
def isSolaris (partType : Option ℤ) (isLinuxSwap : Bool) : Bool :=
  partType = some Partition.solarisLinuxSwap ∧ !isLinuxSwap ∨ partType = some Partition.solaris2

end Userland.Install.Target

namespace Userland.Install.TargetSelection.HandleDisk

open Library Library.Program Userland.Pkg Target

/-! ### What is given -/

/-- The errors of the selection. -/
inductive SelectionError
  | cannot (action : Action) (name : Option Name)
  | unexpectedAction (name : Option Name) (action : Action)
  | noGap (name : Option Name)
  | unknownSize (name : Option Name)
  | largerThanDisk (name : Option Name)
  | processing (error : ShadowError)
  | noSolaris
  | noPartitions
  | severalExtended
  | slices (reason : List Char)
  | finalValidation

/-- How the selection fails. -/
inductive Failure
  | selection (error : SelectionError)
  | target (error : TargetError)

/-- A partition that is to be processed. One of the manifest may have no name or no start. -/
structure MfPartition where
  name : Option Name
  action : Action
  startSector : Option ℤ
  size : Size
  inZpool : Option (List Char)
  inVdev : Option (List Char)
  partType : Option ℤ
  bootid : ℤ
  isLinuxSwap : Bool
  slices : List Target.Slice

/-- A disk of the manifest. Only partitions that are used as they are have no name. -/
structure MfDisk where
  wholeDisk : Bool
  partitions : List MfPartition
  named : ∀ mf ∈ partitions, mf.name = none → mf.action = .useExistingSolaris2

/-- The text of a name. -/
def nameText (p : Target.Partition) : List Char :=
  match p.name.raw with
  | .text name => name
  | .number name => Text.strInt name

/-- A disk of the discovered tree, whose partitions have texts as names, no two the same. -/
structure DiscoveredDisk where
  device : Target.Disk
  partitions : List Target.Partition
  texts : ∀ p ∈ partitions, p.name.raw = .text (nameText p)
  distinct : (partitions.map nameText).Nodup
  preserved : ∀ p ∈ partitions, p.action = .preserve

/-- What becomes of the slices of a new partition. -/
structure Sliced where
  slices : List Target.Slice
  inZpool : Option (List Char)
  inVdev : Option (List Char)
  errors : List ShadowError

/-- What the selection knows. -/
structure Selection where
  floats : Floats
  rootPool : Option (List Char)
  rootVdev : Option (List Char)
  isGeneratedRootPool : Bool
  vdevMap : List (List Char)
  setVtoc : Target.Disk → Target.Disk
  handleSlices : List Target.Slice → Target.Partition → Option Target.Partition → List ShadowError →
    Except Failure Sliced

namespace MfPartition

/-- `is_primary`. -/
def isPrimary (v : MfPartition) : Bool :=
  v.name.any fun name ↦ name.number ≤ fdNumpart

/-- `is_logical`. -/
def isLogical (v : MfPartition) : Bool :=
  v.name.any fun name ↦ !(name.number ≤ fdNumpart)

/-- `is_extended`. -/
def isExtended (v : MfPartition) : Bool :=
  v.isPrimary && v.partType.any fun partType ↦ Partition.extendedIdList.contains partType

/-- `is_solaris`. -/
def isSolaris (v : MfPartition) : Bool :=
  Target.isSolaris v.partType v.isLinuxSwap

/-- `copy.copy(existing_partition)`. The copy has no slices. -/
def ofPartition (p : Target.Partition) : MfPartition where
  name := some p.name
  action := p.action
  startSector := some p.extent.startSector
  size := p.extent.size
  inZpool := p.inZpool
  inVdev := p.inVdev
  partType := p.partType
  bootid := p.bootid
  isLinuxSwap := p.isLinuxSwap
  slices := []

/-- The partition that is inserted, which needs a name and a start. -/
def toPartition (v : MfPartition) : Except Failure Target.Partition :=
  match v.name, v.startSector with
  | some name, some startSector => .ok {
      name := name
      action := v.action
      extent := ⟨startSector, v.size⟩
      inZpool := v.inZpool
      inVdev := v.inVdev
      partType := v.partType
      bootid := v.bootid
      isLinuxSwap := v.isLinuxSwap
      slices := [] }
  | _, _ => .error (.target .typeError)

end MfPartition

section Handle

variable (sel : Selection)

/-- `insert_children` of the new disk. -/
def insertChildren (device : Target.Disk) (s : Shadow) (v : Target.Partition) :
    Except Failure Shadow :=
  match exec (insert sel.floats (.disk device) true s.children.length (.partition v)) s with
  | (.ok (), s) => .ok s
  | (.error error, _) => .error (.target error)

/-! ### One partition of the manifest -/

/-- `new_partition` before it has a place, or nothing if there is nothing to delete. -/
def newPartition (existing : Option Target.Partition) (partition : MfPartition) :
    Except Failure (Option MfPartition) :=
  if partition.action = .preserve ∨ partition.action = .delete ∨
      partition.action = .useExistingSolaris2 then
    match existing with
    | none =>
      if partition.action = .delete then .ok none
      else .error (.selection (.cannot partition.action partition.name))
    | some existing =>
      let copied := { MfPartition.ofPartition existing with action := partition.action }
      .ok (some (if partition.action = .delete then { copied with inZpool := none, inVdev := none }
        else copied))
  else if partition.action = .create then .ok (some { partition with slices := [] })
  else .error (.selection (.unexpectedAction partition.name partition.action))

/-- The loop over the gaps: the first one for a size without a start, else the largest one, if that
is enough. -/
def findGap (size : Size) (noStart : Bool) : Option Extent → List Extent → Option Extent
  | largest, [] => largest.bind fun gap ↦ if gap.size.byteValue < size.byteValue then none
  else some gap
  | largest, gap :: rest =>
    if noStart ∧ size.sectors ≠ 0 ∧ size.byteValue ≤ gap.size.byteValue then some
      ⟨gap.startSector, size⟩
    else findGap size noStart (match largest with
      | none => some gap
      | some largest => if largest.size.sectors < gap.size.sectors then some gap
        else some largest) rest

/-- The place of a partition that has none. -/
def placed (device : Target.Disk) (s : Shadow) (partition newPartition : MfPartition) :
    Except Failure MfPartition :=
  if newPartition.size.sectors = 0 ∨ newPartition.startSector = none then
    if partition.action = .create then
      match (if partition.isLogical then getLogicalPartitionGaps sel.floats s.children
        else getGaps sel.floats device s.children) with
      | .error error => .error (.target error)
      | .ok gaps =>
        match findGap newPartition.size newPartition.startSector.isNone none gaps with
        | none => .error (.selection (.noGap newPartition.name))
        | some gap =>
          .ok { newPartition with startSector := some gap.startSector, size := gap.size }
    else .error (.selection (.unknownSize newPartition.name))
  else .ok newPartition

/-- `__check_in_root_pool`. -/
def checkInRootPool (inZpool inVdev : Option (List Char)) : Except Failure Bool :=
  match sel.rootPool with
  | none => .error (.target .attributeError)
  | some rootPool =>
    .ok (inZpool = some rootPool ∨
      inZpool = none ∧ sel.vdevMap.contains (rootPool ++ ':' :: inVdev.getD ['N', 'o', 'n', 'e']))

/-- The slice that is added for the root pool. -/
def rootSlice (sectors : ℕ) : Target.Slice where
  name := ⟨.text ['0'], 0, rfl⟩
  action := .create
  extent := ⟨1, Size.secs sectors⟩
  inZpool := none
  inVdev := none
  tag := 0
  flag := 0
  force := true
  isSwap := false

/-- `add_slice` for the root pool. The pool and the vdev are set afterwards. -/
def addRootSlice (device : Target.Disk) (partition : MfPartition) (v : Target.Partition)
    (errors : List ShadowError) :
    Except Failure Sliced :=
  match exec (insert sel.floats (.partition ⟨v.extent.size, v.inZpool, v.inVdev⟩ device) true 0
      (.slice (rootSlice v.extent.size.sectors))) ⟨[], errors⟩ with
  | (.error error, _) => .error (.target error)
  | (.ok (), s) =>
    let slices := s.children.filterMap fun child ↦ match child with
      | .slice slc => some slc
      | .partition _ => none
    if partition.inZpool = none ∧ partition.inVdev = none then
      .ok ⟨slices.map fun slc ↦ { slc with inZpool := sel.rootPool, inVdev := sel.rootVdev },
        v.inZpool, v.inVdev, s.errors⟩
    else .ok ⟨slices.map fun slc ↦ { slc with inZpool := v.inZpool, inVdev := v.inVdev }, none,
      none, s.errors⟩

/-- The slices of a Solaris partition. -/
def sliced (device : Target.Disk) (existing : Option Target.Partition) (partition : MfPartition)
    (v : Target.Partition) (errors : List ShadowError) : Except Failure Sliced :=
  if partition.isSolaris then
    if partition.slices.isEmpty then
      match checkInRootPool sel partition.inZpool partition.inVdev with
      | .error error => .error error
      | .ok inRootPool =>
        if inRootPool ∨ partition.inZpool = none ∧ partition.inVdev = none ∧
            sel.rootPool.isSome then
          addRootSlice sel device partition v errors
        else .ok ⟨v.slices, v.inZpool, v.inVdev, errors⟩
    else sel.handleSlices partition.slices v existing errors
  else .ok ⟨v.slices, v.inZpool, v.inVdev, errors⟩

/-- The slices of the partition that was inserted last. -/
def sliceLast (device : Target.Disk) (existing : Option Target.Partition) (partition : MfPartition)
    (s : Shadow) :
    Except Failure Shadow :=
  match s.children.getLast? with
  | some (.partition v) =>
    (sliced sel device existing partition v s.errors).map fun result ↦
      ⟨s.children.dropLast ++
        [.partition
          { v with slices := result.slices, inZpool := result.inZpool, inVdev := result.inVdev }],
          result.errors⟩
  | _ => .ok s

/-- The discovered partition that a partition of the manifest is about. -/
def existingPartition (discovered : DiscoveredDisk) (partition : MfPartition) :
    Option Target.Partition :=
  match partition.name with
  | some name => discovered.partitions.find? fun p ↦ p.name = name
  | none => discovered.partitions.head?

/-- A partition that is made or used gets a place and its slices. -/
def makeOrUse (discovered : DiscoveredDisk) (device : Target.Disk) (s : Shadow)
    (existing : Option Target.Partition) (partition v : MfPartition) : Except Failure Shadow :=
  (placed sel device s partition
    (if v.isSolaris ∧ partition.isPrimary then { v with bootid := Partition.active }
        else v)).bind fun v ↦
      if discovered.device.devSize.byteValue < v.size.byteValue then .error
        (.selection (.largerThanDisk v.name))
      else v.toPartition.bind fun v ↦ (insertChildren sel device s v).bind fun s ↦
        match s.errors with
        | error :: _ => .error (.selection (.processing error))
        | [] => sliceLast sel device existing partition s

/-- `__handle_partition`, for the children of the new disk. -/
def handlePartition (discovered : DiscoveredDisk) (device : Target.Disk) (s : Shadow)
    (partition : MfPartition) :
    Except Failure Shadow :=
  (newPartition (existingPartition discovered partition) partition).bind fun result ↦
    match result with
    | none => .ok s
    | some v =>
      if partition.action = .useExistingSolaris2 ∨ partition.action = .create then
        makeOrUse sel discovered device s (existingPartition discovered partition) partition v
      else v.toPartition.bind (insertChildren sel device s)

/-! ### The disk -/

/-- The partition that stands for one that is used as it is and has no name: a copy of a discovered
one, with the slices of the manifest and those that it does not name, or with one for the root pool.
-/
def substitute (wipeDisk : Bool) (solaris : Target.Partition) (partition : MfPartition) :
    Except Failure MfPartition :=
  let copied := { MfPartition.ofPartition solaris with action := partition.action }
  if partition.slices.isEmpty then
    match sel.rootPool with
    | none => .error (.target .attributeError)
    | some rootPool =>
      .ok { copied with slices := [{ rootSlice 0 with inZpool := some rootPool, inVdev := sel.rootVdev }] }
  else
    let kept := if wipeDisk then [] else solaris.slices.filter fun slc ↦
      partition.slices.all fun mf ↦ mf.name ≠ slc.name
    .ok { copied with slices := partition.slices ++ kept.map fun slc ↦ { slc with inZpool := none, inVdev := none } }

/-- A partition without a name that is used as it is. -/
def isNameless (v : MfPartition) : Bool :=
  v.name.isNone ∧ v.action = .useExistingSolaris2

/-- The Solaris partition that stands for one without a name: the last one. -/
def solarisPartition (discovered : DiscoveredDisk) : Option Target.Partition :=
  (discovered.partitions.filter fun p ↦ isSolaris p.partType p.isLinuxSwap).getLast?

/-- The search for the first partition without a name, which is replaced. -/
def substituted (discovered : DiscoveredDisk) (disk : MfDisk) : Except Failure (List MfPartition) :=
  match disk.partitions.find? isNameless with
  | none => .ok disk.partitions
  | some partition =>
    match solarisPartition discovered with
    | none => .error (.selection .noSolaris)
    | some solaris =>
      (substitute sel disk.wholeDisk solaris partition).map fun copied ↦
        let others := disk.partitions.eraseP isNameless
        others.insertIdx (insertPlace others.length solaris.name.number) copied

/-- The order of the texts of the names. -/
def NameLE (p q : Target.Partition) : Prop :=
  List.le (nameText p) (nameText q)

instance : DecidableRel NameLE :=
  fun p q ↦ inferInstanceAs (Decidable (¬ List.lt (nameText q) (nameText p)))

/-- The partitions to process, the new disk and whether logical partitions are left out. -/
structure Merge where
  skipExistingLogicals : Bool
  partitions : List MfPartition
  shadow : Shadow

/-- A discovered partition is copied, unless the manifest names it or it is left out. -/
def copyExisting (device : Target.Disk) (merge : Merge) (existing : Target.Partition) :
    Except Failure Merge :=
  match merge.partitions.find? fun mf ↦ mf.name = some existing.name with
  | some mf =>
    .ok (if existing.isExtended ∧ (mf.action = .create ∨ mf.action = .delete) then
      { merge with skipExistingLogicals := true } else merge)
  | none =>
    if existing.isLogical ∧ merge.skipExistingLogicals then .ok merge
    else
      (insertChildren sel device merge.shadow { existing with slices := [] }).map fun s ↦
        { merge with partitions := merge.partitions ++ [MfPartition.ofPartition existing], shadow := s }

/-- The partitions of the disk in the order in which they are copied. -/
def DiscoveredDisk.sorted (discovered : DiscoveredDisk) : List Target.Partition :=
  discovered.partitions.insertionSort NameLE

/-- The loop over the discovered partitions. -/
def mergeExisting (discovered : DiscoveredDisk) (device : Target.Disk)
    (partitions : List MfPartition) :
    Except Failure Merge :=
  discovered.sorted.foldlM (copyExisting sel device) ⟨false, partitions, ⟨[], []⟩⟩

/-- A partition without a pool is given the temporary one. -/
def inTemporaryPool (partition : MfPartition) : MfPartition :=
  if partition.isSolaris ∧ sel.isGeneratedRootPool ∧ partition.slices.isEmpty ∧
    partition.action = .create ∧
    partition.inZpool = none ∧ partition.inVdev = none then
    { partition with inZpool := sel.rootPool, inVdev := sel.rootVdev }
  else partition

/-- `get_first_child(name)` is not none. -/
def hasChild (s : Shadow) (name : Option Name) : Bool :=
  match name with
  | some name => s.children.any fun child ↦ child.physical.name = name
  | none => !s.children.isEmpty

/-- The loop over the partitions to process. -/
def handleEach (discovered : DiscoveredDisk) (device : Target.Disk) (wipeDisk : Bool) (s : Shadow)
    (partition : MfPartition) : Except Failure Shadow :=
  if !wipeDisk ∧ hasChild s partition.name then .ok s
  else handlePartition sel discovered device s (inTemporaryPool sel partition)

/-- The new disk: a copy of the discovered one, with a VTOC label. -/
def newDevice (discovered : DiscoveredDisk) : Target.Disk :=
  if discovered.device.label = vtoc then discovered.device else sel.setVtoc discovered.device

/-- `__handle_disk`, for the children of the new disk. -/
def handleDisk (discovered : DiscoveredDisk) (disk : MfDisk) : Except Failure Shadow :=
  if disk.partitions.isEmpty then .error (.selection .noPartitions)
  else
    (substituted sel discovered disk).bind fun partitions ↦
      (if disk.wholeDisk then .ok ⟨false, partitions, ⟨[], []⟩⟩
        else mergeExisting sel discovered (newDevice sel discovered) partitions).bind fun merge ↦
          if 1 < (merge.partitions.filter MfPartition.isExtended).length then .error
            (.selection .severalExtended)
          else
            (merge.partitions.foldlM (handleEach sel discovered
              (newDevice sel discovered) disk.wholeDisk)
              merge.shadow).bind fun s ↦ if s.errors.isEmpty then .ok s
                else .error (.selection .finalValidation)

end Handle

/-! ### What is promised -/

/-- The manifest does not name a partition. -/
def Unnamed (disk : MfDisk) (p : Target.Partition) : Prop :=
  ∀ mf ∈ disk.partitions, mf.name ≠ some p.name

/-- The manifest creates or deletes an extended partition. -/
def Replaced (disk : MfDisk) (p : Target.Partition) : Prop :=
  p.isExtended ∧ ∃ mf, (disk.partitions.find? fun mf ↦ mf.name = some p.name) = some mf ∧
    (mf.action = .create ∨ mf.action = .delete)

/-- A partition is left as it is. -/
structure Left (p v : Target.Partition) : Prop where
  name : v.name = p.name
  extent : v.extent = p.extent
  partType : v.partType = p.partType
  notCreated : v.action ≠ .create
  notDeleted : v.action ≠ .delete

/-- No two partitions of the disk have one name, and the partitions that the manifest does not name
are left as they are, but no logical one is if the manifest creates or deletes the extended
partition. -/
structure UnnamedSurvive (discovered : DiscoveredDisk) (disk : MfDisk) (children : List Child) :
    Prop where
  distinct : (children.map fun child ↦ child.physical.name).Nodup
  left : ∀ p ∈ discovered.partitions, Unnamed disk p →
    (p.isLogical → ∀ e ∈ discovered.partitions, ¬ Replaced disk e) →
      ∃ v ∈ partitionsOf children, Left p v
  dropped : ∀ e ∈ discovered.partitions, Replaced disk e → ∀ p ∈ discovered.partitions,
    Unnamed disk p → p.isLogical →
    ∀ child ∈ children, child.physical.name ≠ p.name

/-- No error is posted by any of the steps. -/
def Silent (sel : Selection) (device : Target.Disk) : Merge → List Target.Partition → Prop
  | _, [] => True
  | merge, existing :: rest =>
    ∀ next, copyExisting sel device merge existing = .ok next →
      next.shadow.errors = [] ∧ Silent sel device next rest

/-- The copies of the unnamed partitions post no error. -/
def CopiesQuiet (sel : Selection) (discovered : DiscoveredDisk) (disk : MfDisk) : Prop :=
  ∀ partitions, substituted sel discovered disk = .ok partitions →
    Silent sel (newDevice sel discovered) ⟨false, partitions, ⟨[], []⟩⟩ discovered.sorted

end Userland.Install.TargetSelection.HandleDisk
