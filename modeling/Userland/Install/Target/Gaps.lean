import Userland.Install.Target.Slices
import Userland.Library.Sweep

/-!
# Gaps between partitions and slices

`get_gaps` of a disk lists the cylinders that no primary partition and no slice uses, and
`get_logical_partition_gaps` the sectors of the extended partition between the logical ones.
`gaps_usable_iff` says when the holes are real and can be filled: there are no gaps before logical
partitions (the hole reaches into the offset of the next one), a disk without children has whole
cylinders, no empty partition is where a hole ends, and the children are not all to be deleted,
since that disk is taken for one with children.

Scope. The children of a disk are all partitions or all slices. A disk with slices takes no
partitions (`AttributeError`).
-/

set_option autoImplicit false
set_option relaxedAutoImplicit false

namespace Userland.Install.Target

open Library Library.Program

/-! ### The holes -/

/-- The start of an object and the first sector after it. -/
def Extent.range (v : Extent) : ℤ × ℤ :=
  (v.startSector, v.stop)

/-- Backup slices and logical partitions. -/
def Child.isSkipped : Child → Bool
  | .slice slc => slc.tag = vBackup
  | .partition part => part.isLogical

/-- The children whose sectors are in use. -/
def used (children : List Child) : List Child :=
  (live children).filter fun child ↦ !child.isSkipped

/-- The ranges of the children whose sectors are in use. -/
def usedRanges (children : List Child) : List (ℤ × ℤ) :=
  (used children).map fun child ↦ child.physical.extent.range

section Gaps

variable (floats : Floats)

/-- The hole of a step, which starts after the sector where the step does, unless that is the first
one. -/
def rawHole (p : ℤ × ℤ) : Except TargetError Extent :=
  (Size.ofSectors floats (p.2 - p.1 - 1)).map fun size ↦ ⟨if p.1 = 0 then p.1 else p.1 + 1, size⟩

/-- The loop over every second step of the list of sectors. -/
def rawHoles (cylsize : ℤ) (usage : List ℤ) : Except TargetError (List Extent) :=
  ((Sweep.pairs usage).filter fun p ↦ p.2 - p.1 ≠ 0 ∧ p.2 - p.1 ≠ 1 ∧ p.2 - p.1 > cylsize).mapM
    (rawHole floats)

/-- A hole is moved to cylinders, as partitions and slices are. -/
def adjustedHole (cylsize : ℤ) (hole : Extent) : Except TargetError Extent :=
  ((startUp floats cylsize hole).bind (startNotZero floats cylsize)).bind (sizeDown floats cylsize)

/-- `Disk.get_gaps`. -/
def getGaps (disk : Disk) (children : List Child) : Except TargetError (List Extent) :=
  if children.isEmpty then .ok [⟨0, disk.devSize⟩]
  else do
    let holes ← rawHoles floats disk.cylsize
      (Sweep.usage 0 (disk.devSize.sectors : ℤ) (usedRanges children))
    let holes ← holes.mapM (adjustedHole floats disk.cylsize)
    pure (holes.filter fun hole ↦ hole.size.sectors > disk.cylsize)

/-- The partition that a child is. -/
def Child.partition? : Child → Option Partition
  | .slice _ => none
  | .partition part => some part

/-- The children that are partitions. -/
def partitionsOf (children : List Child) : List Partition :=
  children.filterMap Child.partition?

/-- The hole of a step between logical partitions, which starts after the offset. -/
def logicalHole (p : ℤ × ℤ) : Except TargetError Extent :=
  (Size.ofSectors floats (p.2 - p.1 - 1 - logicalAdjustment)).map fun size ↦
    ⟨p.1 + logicalAdjustment, size⟩

/-- The sectors around the logical partitions. -/
def logicalUsage (extended : Partition) (logicals : List Partition) : List ℤ :=
  Sweep.usage extended.extent.startSector extended.extent.stop (logicals.map fun part ↦
    part.extent.range)

/-- `get_logical_partition_gaps`. Logical partitions that are to be deleted are in use, too. -/
def getLogicalPartitionGaps (children : List Child) : Except TargetError (List Extent) :=
  match (partitionsOf children).find? fun part ↦ part.isExtended ∧ part.action ≠ .delete with
  | none => .ok []
  | some extended =>
    let logicals := (partitionsOf children).filter Partition.isLogical
    if logicals.isEmpty then .ok [extended.extent]
    else
      ((Sweep.pairs (logicalUsage extended logicals)).filter fun p ↦
        p.2 - p.1 > logicalAdjustment).mapM
        (logicalHole floats)

end Gaps

/-! ### What is asked of the holes -/

/-- The sectors of an object. -/
def Extent.sectors (v : Extent) : Set ℤ :=
  Set.Ico v.startSector v.stop

/-- A backup slice. -/
def Child.IsBackup : Child → Prop
  | .slice slc => slc.tag = vBackup
  | .partition _ => False

/-- The errors about overlaps and bounds. -/
def ShadowError.IsClash : ShadowError → Prop
  | .overlappingPartition _ _ => True
  | .logicalPartitionOverlap => True
  | .invalidPartitionStartSector => True
  | _ => False

/-- A partition that is inserted finds no size that cannot be made, and no error about overlaps or
bounds is posted. -/
def Taken (floats : Floats) (disk : Disk) (children : List Child) (v : Partition) : Prop :=
  ∀ (errors : List ShadowError) (index : ℤ) (result : Except TargetError Unit) (s : Shadow),
    exec (insert floats (.disk disk) true index (.partition v)) ⟨children, errors⟩ = (result, s) →
      result ≠ .error .valueError ∧ ∀ error ∈ s.errors, ¬ error.IsClash

/-- A hole of `get_gaps` is on cylinders and on the disk, nothing but backup slices is in it, and a
primary partition can be put there. -/
structure Hole (floats : Floats) (disk : Disk) (children : List Child) (hole : Extent) : Prop where
  start_dvd : (disk.cylsize : ℤ) ∣ hole.startSector
  size_dvd : disk.cylsize ∣ hole.size.sectors
  onDisk : hole.sectors ⊆ Set.Ico 0 (disk.devSize.sectors : ℤ)
  free : ∀ child ∈ live children, ¬ child.IsBackup → Disjoint hole.sectors child.sectors
  taken : ∀ v : Partition, v.isPrimary → v.action = .create → v.extent = hole →
    Taken floats disk children v

/-- A hole of `get_logical_partition_gaps` is in the extended partition and in no logical one, and a
logical partition can be put there. -/
structure LogicalHole (floats : Floats) (disk : Disk) (children : List Child) (hole : Extent) :
    Prop where
  inside : ∃ part ∈ partitionsOf (live children), part.isExtended ∧
    hole.sectors ⊆ part.extent.sectors
  free : ∀ part ∈ partitionsOf (live children), part.isLogical →
    Disjoint hole.sectors part.extent.sectors
  taken : ∀ v : Partition, v.isLogical → v.action = .create → v.extent = hole →
    Taken floats disk children v

/-- Holes that are all as they should be, apart from each other, and hold what is free without the
children that are to be deleted. -/
structure Reported (gaps : List Child → Except TargetError (List Extent)) (IsHole : Extent → Prop)
    (children : List Child) (holes : List Extent) : Prop where
  gaps_eq : gaps children = .ok holes
  each : ∀ hole ∈ holes, IsHole hole
  disjoint : holes.Pairwise fun a b ↦ Disjoint a.sectors b.sectors
  kept : ∃ others, gaps (live children) = .ok others ∧
    ∀ other ∈ others, ∀ sector ∈ other.sectors, ∃ hole ∈ holes, sector ∈ hole.sectors

/-- Both lists of gaps are real and usable. -/
def GapsUsable (floats : Floats) (disk : Disk) (children : List Child) : Prop :=
  (∃ holes, Reported (getGaps floats disk) (Hole floats disk children) children holes) ∧
    ∃ holes, Reported (getLogicalPartitionGaps floats)
      (LogicalHole floats disk children) children holes

/-! ### The disks that are meant, and those on which it is so -/

/-- Two logical partitions with the offset between them. -/
def Spaced (p q : Partition) : Prop :=
  p.extent.stop + logicalAdjustment ≤ q.extent.startSector ∨
    q.extent.stop + logicalAdjustment ≤ p.extent.startSector

/-- A disk of partitions or of slices. What is in use is disjoint and on the disk, and the logical
partitions are in the one extended partition, with their offsets. -/
structure LaidOut (disk : Disk) (children : List Child) : Prop where
  uniform : (∀ child ∈ children, child.partition?.isSome) ∨ ∀ child ∈ children,
    child.partition? = none
  apart : Sweep.Apart (usedRanges children)
  onDisk : ∀ child ∈ used children, 0 ≤ child.physical.extent.startSector ∧
    child.physical.extent.stop ≤ disk.devSize.sectors
  extended : ∀ p ∈ partitionsOf (live children), p.isExtended → ∀ q ∈ partitionsOf (live children),
    q.isExtended → p = q
  logical : ∀ p ∈ partitionsOf (live children), p.isLogical → ∃ q ∈ partitionsOf (live children),
    q.isExtended ∧
    q.extent.startSector + logicalAdjustment ≤ p.extent.startSector ∧ p.extent.stop ≤ q.extent.stop
  spaced : (partitionsOf (live children)).Pairwise fun p q ↦ p.isLogical → q.isLogical → Spaced p q

/-- Where an extended partition is in use, no logical partition is to be deleted, and unless a
logical one follows its start by the offset, no extended partition that is to be deleted comes after
it in the list. -/
structure Plain (children : List Child) : Prop where
  logical : ∀ e ∈ partitionsOf (live children), e.isExtended → ∀ p ∈ partitionsOf children,
    p.isLogical →
    p.action ≠ .delete
  extended : ∀ e ∈ partitionsOf (live children), e.isExtended →
    (∀ q ∈ partitionsOf children, q.isLogical →
      e.extent.startSector + logicalAdjustment < q.extent.startSector) →
      extendedPart (partitionsOf children) = some e

/-- More than two free cylinders are between an object and a sector, the first of a cylinder. -/
def EndsGap (disk : Disk) (children : List Child) (sector : ℤ) : Prop :=
  (disk.cylsize : ℤ) ∣ sector ∧
    (∃ child ∈ used children, 0 < child.physical.extent.stop ∧
      child.physical.extent.stop + 2 * disk.cylsize < sector) ∧
    ∀ child ∈ used children, child.physical.extent.stop + 2 * disk.cylsize < sector ∨
      sector ≤ child.physical.extent.startSector

instance (disk : Disk) (children : List Child) (sector : ℤ) :
    Decidable (EndsGap disk children sector) :=
  inferInstanceAs (Decidable (_ ∧ _ ∧ _))

/-- A disk without children has whole cylinders, not all children are to be deleted, no empty
primary partition ends a gap, an extended partition without logical ones has the size of the offset,
and there is no more than the offset before a logical partition. -/
structure Filled (disk : Disk) (children : List Child) : Prop where
  whole : children = [] → 0 < disk.devSize.sectors ∧ disk.cylsize ∣ disk.devSize.sectors
  remains : live children = [] → children = [] ∨ disk.devSize.sectors = 0
  solid : ∀ p ∈ partitionsOf (live children), p.isPrimary → p.extent.size.sectors = 0 →
    ¬ EndsGap disk children p.extent.startSector
  offset : (∀ p ∈ partitionsOf children, p.isLogical = false) →
    ∀ p ∈ partitionsOf (live children), p.isExtended → logicalAdjustment ≤ p.extent.size.sectors
  before : ∀ q ∈ partitionsOf (live children), q.isLogical → ∃ p ∈ partitionsOf (live children),
    p.isExtended ∧ q.extent.startSector ≤ p.extent.startSector + logicalAdjustment ∨
      p.isLogical ∧ p ≠ q ∧ p.extent.stop ≤ q.extent.startSector ∧
        q.extent.startSector ≤ p.extent.stop + logicalAdjustment

end Userland.Install.Target
