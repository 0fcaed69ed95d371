import Mathlib.Data.List.Sort
import Userland.Install.Target.Cylinder
import Userland.Library.Program

/-!
# Shadow lists of partitions and slices

The children of a disk are partitions or slices, and those of a partition are slices. `insert`
validates a child and posts an error for each check that it does not pass; the child is inserted
anyway, unless an exception is raised.

Scope. Names are numbers or texts of numbers, sizes of disks are known, and the statistics of
`libdiskmgt` on the use of slices are empty. A child is not changed after it was inserted.
-/

set_option autoImplicit false
set_option relaxedAutoImplicit false

namespace Userland.Install.Target

open Library Library.Program Userland.Pkg

/-! ### Partitions and slices -/

/-- A text or a number that is given as a name. -/
inductive RawName
  | text (name : List Char)
  | number (name : ℤ)
deriving DecidableEq

/-- `int(name)`. -/
def RawName.int : RawName → Option ℤ
  | .text name => Text.parseInt name
  | .number name => some name

theorem RawName.int_number (n : ℤ) : (RawName.number n).int = some n :=
  rfl

/-- A name and the number that it stands for. -/
structure Name where
  raw : RawName
  number : ℤ
  int_raw : raw.int = some number
deriving DecidableEq

/-- The action of an object that is to be deleted. -/
def Action.delete : Action := some ['d', 'e', 'l', 'e', 't', 'e']

/-- What partitions and slices have in common. -/
structure Physical where
  name : Name
  action : Action
  extent : Extent
  inZpool : Option (List Char)
  inVdev : Option (List Char)
deriving DecidableEq

/-- A `Slice`. -/
structure Slice extends Physical where
  tag : ℤ
  flag : ℤ
  force : Bool
  isSwap : Bool
deriving DecidableEq

/-- A `Partition`. -/
structure Partition extends Physical where
  partType : Option ℤ
  bootid : ℤ
  isLinuxSwap : Bool
  slices : List Slice
deriving DecidableEq

/-- A child of a disk or a partition. -/
inductive Child
  | slice (slc : Slice)
  | partition (part : Partition)
deriving DecidableEq

/-- What a child has of either kind. -/
def Child.physical : Child → Physical
  | .slice slc => slc.toPhysical
  | .partition part => part.toPhysical

/-- `V_NUMPAR`. -/
def KernelArch.vNumpar : KernelArch → ℕ
  | .x86 => 16
  | .sparc => 8

/-- `V_BOOT`. -/
def vBoot : ℤ := 1

/-- `V_BACKUP`. -/
def vBackup : ℤ := 5

/-- `FD_NUMPART`. -/
def fdNumpart : ℤ := 4

/-- `MAX_EXT_PARTS`. -/
def maxExtParts : ℤ := 32

/-- `LOGICAL_ADJUSTMENT`. -/
def logicalAdjustment : ℤ := 63

/-- The label of a disk with a table of sixteen or eight slices. -/
def vtoc : Option (List Char) := some ['V', 'T', 'O', 'C']

namespace Partition

/-- `ACTIVE`. -/
def active : ℤ := 128

/-- `EXTENDED_ID_LIST`. -/
def extendedIdList : List ℤ := [5, 12, 15]

/-- The numbers of the types of FAT16. -/
def fat16List : List ℤ := [4, 6, 14]

/-- `is_primary`. -/
def isPrimary (p : Partition) : Bool :=
  p.name.number ≤ fdNumpart

/-- `is_logical`. -/
def isLogical (p : Partition) : Bool :=
  !p.isPrimary

/-- `is_extended`. -/
def isExtended (p : Partition) : Bool :=
  p.isPrimary && p.partType.any fun partType ↦ extendedIdList.contains partType

end Partition

/-! ### What is posted -/

/-- The errors that are posted. -/
inductive ShadowError
  | wholeDiskIsTrue
  | invalidSliceStartSector
  | overlappingSlice (sliceName existingSlice : Name)
  | tooManySlices
  | duplicateSliceName (sliceName : Name)
  | overlappingSliceZpool
  | overlappingSliceVdev
  | partitionTypeMissing
  | invalidPartitionName (name : Name)
  | invalidPartitionStartSector
  | noExtPartitions
  | tooManyLogicalPartitions
  | multipleActivePartitions (partitionName : Name)
  | logicalPartitionOverlap
  | overlappingPartition (partitionName existingPartition : Name)
  | duplicatePartitionName (partitionName : Name)
  | tooManyExtPartitions
  | extPartitionTooSmall
  | fat16PartitionTooLarge
  | overlappingPartitionZpool
  | overlappingPartitionVdev
deriving DecidableEq

/-- A shadow list and the errors posted for it. -/
structure Shadow where
  children : List Child
  errors : List ShadowError
deriving DecidableEq

/-- A method of a shadow list. -/
abbrev ShadowMethod := Program Shadow TargetError

/-- `set_error`, if a check is not passed. -/
def postIf (failed : Bool) (error : ShadowError) : ShadowMethod Unit :=
  if failed then modify fun s ↦ { s with errors := s.errors ++ [error] } else pure ()

/-- The place of a Python index at which something is inserted. -/
def insertPlace (length : ℕ) (index : ℤ) : ℕ :=
  if index < 0 then (length + index).toNat else min index.toNat length

/-- `ShadowList.insert`. -/
def insertChild (index : ℤ) (child : Child) : ShadowMethod Unit :=
  modify fun s ↦
    { s with children := s.children.insertIdx (insertPlace s.children.length index) child }

/-- Two ranges of sectors, both with their last ones, in the words of the checks. -/
def overlapping (start stop cbStart cbEnd : ℤ) : Bool :=
  (start ≤ cbStart ∧ cbStart ≤ stop ∨ start ≤ cbEnd ∧ cbEnd ≤ stop) ∨
    (cbStart ≤ start ∧ start ≤ cbEnd ∨ cbStart ≤ stop ∧ stop ≤ cbEnd)

/-! ### Slices -/

namespace Container

/-- The size that the start of a slice is compared with. -/
def parentSize : Container → ℤ
  | .disk device => device.devSize.sectors
  | .partition outer _ => outer.size.sectors

/-- `whole_disk` is looked at for disks only. -/
def wholeDisk : Container → Bool
  | .disk device => device.wholeDisk
  | .partition _ _ => false

/-- `in_zpool` of the container, and of the disk of a partition. -/
def zpools : Container → List (Option (List Char))
  | .disk device => [device.inZpool]
  | .partition outer parent => [outer.inZpool, parent.inZpool]

/-- `in_vdev` of the container, and of the disk of a partition. -/
def vdevs : Container → List (Option (List Char))
  | .disk device => [device.inVdev]
  | .partition outer parent => [outer.inVdev, parent.inVdev]

end Container

section Slices

variable (floats : Floats) (container : Container)

/-- The slices that are moved to cylinders before they are checked. -/
def isRounded (v : Slice) : Bool :=
  container.drive.label = vtoc ∧ ¬ [vBackup, vBoot].contains v.tag

/-- The slice with its start and its size on cylinders, if it is one that is moved. -/
def rounded (v : Slice) : Except TargetError Slice :=
  if isRounded container v then
    (cylinderBoundaryAdjustment floats container .slice v.action v.extent).map fun extent ↦
      { v with extent := extent }
  else .ok v

/-- The check for overlaps. Slice 2 of a VTOC label is not compared with any other. -/
def checkOverlaps (v : Slice) : List Child → ShadowMethod Unit
  | [] => pure ()
  | child :: rest => do
    let slc := child.physical
    if container.drive.label = vtoc ∧ v.name.number = 2 then pure ()
    else if container.drive.label = vtoc ∧ slc.name.number = 2 then checkOverlaps v rest
    else do
      postIf (v.action ≠ .delete ∧ slc.action ≠ .delete ∧
        overlapping slc.extent.startSector (slc.extent.stop - 1) v.extent.startSector
          (v.extent.stop - 1))
        (.overlappingSlice v.name slc.name)
      checkOverlaps v rest

/-- The name is that of a child that is not to be deleted. -/
def hasName (s : Shadow) (name : Name) : Bool :=
  s.children.any fun child ↦ child.physical.action ≠ .delete ∧ child.physical.name = name

/-- `insert_slice`. -/
def insertSlice (index : ℤ) (v : Slice) : ShadowMethod Unit := do
  postIf container.wholeDisk .wholeDiskIsTrue
  postIf (!(0 ≤ v.extent.startSector ∧ v.extent.startSector ≤ container.parentSize))
    .invalidSliceStartSector
  let v ← lift (rounded floats container v)
  let s ← get
  checkOverlaps container v s.children
  postIf (container.drive.kernelArch.vNumpar ≤ s.children.length) .tooManySlices
  postIf (hasName s v.name) (.duplicateSliceName v.name)
  forEach (fun zpool ↦ postIf (v.inZpool.isSome ∧ zpool = v.inZpool) .overlappingSliceZpool)
    container.zpools
  forEach (fun vdev ↦ postIf (v.inVdev.isSome ∧ vdev = v.inVdev) .overlappingSliceVdev)
    container.vdevs
  insertChild index (.slice v)

end Slices

/-! ### Partitions -/

section Partitions

variable (floats : Floats) (disk : Disk)

/-- A primary partition with its start and its size on cylinders. -/
def roundedPartition (v : Partition) : Except TargetError Partition :=
  if v.isPrimary then
    (cylinderBoundaryAdjustment floats (.disk disk) .partition v.action v.extent).map fun extent ↦
      { v with extent := extent }
  else .ok v

/-- The children that are all partitions. A slice has no `is_primary`. -/
def asPartitions : List Child → Except TargetError (List Partition)
  | [] => .ok []
  | .slice _ :: _ => .error .attributeError
  | .partition part :: rest => (asPartitions rest).map (part :: ·)

/-- The last extended partition. -/
def extendedPart (others : List Partition) : Option Partition :=
  (others.filter Partition.isExtended).getLast?

/-- The logical partitions that are not to be deleted. -/
def logicalList (others : List Partition) : List Partition :=
  others.filter fun p ↦ p.isLogical ∧ p.action ≠ .delete

/-- The greatest end of a logical partition before a sector, or zero. -/
def closestEndpoint (logicals : List Partition) (startSector : ℤ) : ℤ :=
  (logicals.insertionSort fun p q ↦ p.extent.startSector ≤ q.extent.startSector).foldl
      (fun closest logical ↦
    if logical.extent.stop < startSector ∧ logical.extent.stop > closest then logical.extent.stop
    else closest) 0

/-- A logical partition that is too close to another one, or to the start of the extended one, is
moved. -/
def adjustedLogical (extended : Partition) (logicals : List Partition) (v : Partition) :
    Except TargetError Partition :=
  let closest := closestEndpoint logicals v.extent.startSector
  let start := if closest = 0 then extended.extent.startSector else closest
  if v.extent.startSector - start < logicalAdjustment ∧ v.action = .create then
    (Size.ofSectors floats (v.extent.size.sectors - logicalAdjustment)).map fun size ↦
      { v with extent := ⟨start + logicalAdjustment, size⟩ }
  else .ok v

/-- A logical partition is moved, if there is an extended one, and a primary one is not. -/
def movedLogical (others : List Partition) (v : Partition) : Except TargetError Partition :=
  if v.isLogical then
    match extendedPart others with
    | none => .ok v
    | some extended => adjustedLogical floats extended (logicalList others) v
  else .ok v

/-- The first sector of a partition for the checks, with the offset of a logical one. -/
def checkedStart (p : Partition) : ℤ :=
  if p.isPrimary then p.extent.startSector else p.extent.startSector - logicalAdjustment

/-- The last sector of a partition for the checks. -/
def checkedEnd (p : Partition) : ℤ :=
  if p.isPrimary then checkedStart p + p.extent.size.sectors - 1
  else checkedStart p + p.extent.size.sectors - 1 + logicalAdjustment

/-- A logical partition is not inside of an extended one. -/
def leavesExtended (v p : Partition) : Bool :=
  !v.isPrimary ∧ p.isExtended ∧ p.action ≠ .delete ∧
    (v.extent.startSector < checkedStart p ∨ v.extent.stop - 1 > checkedEnd p)

/-- Two primary or two logical partitions overlap. -/
def overlapsPartition (v p : Partition) : Bool :=
  v.isPrimary = p.isPrimary ∧ v.action ≠ .delete ∧ p.action ≠ .delete ∧
    overlapping (checkedStart p) (checkedEnd p) v.extent.startSector (v.extent.stop - 1)

/-- The checks of a partition against another one. -/
def checkPartition (v p : Partition) : ShadowMethod Unit := do
  postIf (leavesExtended v p) .logicalPartitionOverlap
  postIf (overlapsPartition v p) (.overlappingPartition p.name v.name)

/-- `insert_partition` up to where the place of the partition is known. -/
def placePartition (v : Partition) : ShadowMethod (List Partition × Partition) := do
  postIf v.partType.isNone .partitionTypeMissing
  postIf (!(1 ≤ v.name.number ∧ v.name.number ≤ fdNumpart + maxExtParts))
    (.invalidPartitionName v.name)
  let v ← lift (roundedPartition floats disk v)
  postIf (!(0 ≤ v.extent.startSector ∧ v.extent.startSector ≤ disk.devSize.sectors))
    .invalidPartitionStartSector
  postIf disk.wholeDisk .wholeDiskIsTrue
  let s ← get
  let others ← lift (asPartitions s.children)
  postIf (v.isLogical ∧ (extendedPart others).isNone) .noExtPartitions
  postIf (v.isLogical ∧ (extendedPart others).isSome ∧ maxExtParts ≤ (logicalList others).length)
    .tooManyLogicalPartitions
  let v ← lift (movedLogical floats others v)
  pure (others, v)

/-- The checks of a partition that is in its place, and its insertion. -/
def checkAndInsert (index : ℤ) (others : List Partition) (v : Partition) : ShadowMethod Unit := do
  forEach (fun p ↦ postIf (v.isPrimary ∧ v.bootid = Partition.active ∧ !p.isLogical ∧
    p.bootid = Partition.active)
    (.multipleActivePartitions p.name)) others
  forEach (checkPartition v) others
  let s ← get
  postIf (hasName s v.name) (.duplicatePartitionName v.name)
  forEach (fun p ↦ postIf (v.isExtended ∧ p.isExtended ∧ p.action ≠ .delete) .tooManyExtPartitions)
    others
  postIf (v.isExtended ∧ (v.extent.size.sectors : ℤ) < logicalAdjustment) .extPartitionTooSmall
  postIf (v.partType.any (Partition.fat16List.contains ·) ∧ v.action = .create ∧
    2 ^ 30 * 4 < v.extent.size.byteValue) .fat16PartitionTooLarge
  postIf (v.inZpool.isSome ∧ disk.inZpool = v.inZpool) .overlappingPartitionZpool
  postIf (v.inVdev.isSome ∧ disk.inVdev = v.inVdev) .overlappingPartitionVdev
  insertChild index (.partition v)

/-- `insert_partition`. -/
def insertPartition (index : ℤ) (v : Partition) : ShadowMethod Unit := do
  let placed ← placePartition floats disk v
  checkAndInsert disk index placed.1 placed.2

end Partitions

/-! ### The methods -/

/-- `insert`. A container with `validate_children` not set takes any child. -/
def insert (floats : Floats) (container : Container) (validateChildren : Bool) (index : ℤ)
    (child : Child) :
    ShadowMethod Unit :=
  if !validateChildren then insertChild index child
  else do
    modify fun s ↦ { s with errors := [] }
    match container, child with
    | _, .slice slc => insertSlice floats container index slc
    | .disk device, .partition part => insertPartition floats device index part
    | .partition _ _, .partition _ => throw .attributeError

/-- `remove`, for the child at a place of the list. -/
def remove (place : ℕ) : ShadowMethod Unit :=
  modify fun s ↦ ⟨s.children.eraseIdx place, []⟩

end Userland.Install.Target
