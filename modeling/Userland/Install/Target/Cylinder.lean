import Mathlib
import Userland.Install.Target.Size

/-!
# Cylinder boundaries

`cylinder_boundary_adjustment` moves the start of a partition or a slice up and its end down to
cylinders. Its cap for x86 replaces the size and does not look at the start, there is no cap
otherwise, and a size that gets negative has no text. `adjustment_asPromised_iff` says when the
result is aligned, inside of what was asked for and of the disk, and stays as it is when the
adjustment is made again.
-/

set_option autoImplicit false
set_option relaxedAutoImplicit false

namespace Userland.Install.Target

open Userland.Pkg

/-- `kernel_arch`. -/
inductive KernelArch
  | x86
  | sparc
deriving DecidableEq

/-- What is read of a disk. -/
structure Disk where
  cylsize : ℕ
  cylsize_pos : 0 < cylsize
  devSize : Size
  kernelArch : KernelArch
  label : Option (List Char)
  wholeDisk : Bool
  inZpool : Option (List Char)
  inVdev : Option (List Char)

/-- What is read of a partition with slices. -/
structure Outer where
  size : Size
  inZpool : Option (List Char)
  inVdev : Option (List Char)
deriving DecidableEq

/-- The container of a shadow list. -/
inductive Container
  | disk (device : Disk)
  | partition (outer : Outer) (parent : Disk)

/-- The disk that a container is or is on. -/
def Container.drive : Container → Disk
  | .disk device => device
  | .partition _ parent => parent

/-- What `hasattr` tells of an object: `force` is an attribute of slices, and `part_type` of
partitions. -/
inductive Kind
  | slice
  | partition
deriving DecidableEq

/-- `max_cyl`. -/
def Kind.maxCyl : Kind → ℤ
  | .slice => 4
  | .partition => 1

/-- An `action`, which is none or any text. -/
abbrev Action := Option (List Char)

/-- The action of an object that is made. -/
def Action.create : Action := some ['c', 'r', 'e', 'a', 't', 'e']

/-- Where an object is on the disk. -/
@[ext]
structure Extent where
  startSector : ℤ
  size : Size
deriving DecidableEq

/-- The first sector after an object. -/
def Extent.stop (v : Extent) : ℤ :=
  v.startSector + v.size.sectors

section Adjustment

variable (floats : Floats)

/-- The start is moved up to the next cylinder. -/
def startUp (cylBoundary : ℤ) (v : Extent) : Except TargetError Extent :=
  if v.startSector % cylBoundary ≠ 0 then
    let newStartSector := v.startSector / cylBoundary * cylBoundary + cylBoundary
    let difference := newStartSector - v.startSector
    (Size.ofSectors floats (v.size.sectors - difference)).map fun size ↦ ⟨newStartSector, size⟩
  else .ok v

/-- The first cylinder is left to the label. -/
def startNotZero (cylBoundary : ℤ) (v : Extent) : Except TargetError Extent :=
  if v.startSector = 0 then
    (Size.ofSectors floats (v.size.sectors - cylBoundary)).map fun size ↦ ⟨cylBoundary, size⟩
  else .ok v

/-- The size is made one of whole cylinders. -/
def sizeDown (cylBoundary : ℤ) (v : Extent) : Except TargetError Extent :=
  if (v.size.sectors : ℤ) % cylBoundary ≠ 0 then
    (Size.ofSectors floats ((v.size.sectors : ℤ) / cylBoundary * cylBoundary)).map fun size ↦
      { v with size := size }
  else .ok v

/-- The size is made smaller if it leaves fewer than `maxCyl` cylinders of the disk. -/
def sizeCap (cylBoundary diskSize maxCyl : ℤ) (v : Extent) : Except TargetError Extent :=
  if (diskSize - v.size.sectors) / cylBoundary < maxCyl then
    let endCylinder := (diskSize / cylBoundary - maxCyl) * cylBoundary
    (Size.ofSectors floats endCylinder).map fun size ↦ { v with size := size }
  else .ok v

/-- The cap, which only x86 has. -/
def platformCap (disk : Disk) (kind : Kind) (v : Extent) : Except TargetError Extent :=
  match disk.kernelArch with
  | .x86 => sizeCap floats disk.cylsize disk.devSize.sectors kind.maxCyl v
  | .sparc => .ok v

/-- `cylinder_boundary_adjustment`. It posts no errors. -/
def cylinderBoundaryAdjustment (container : Container) (kind : Kind) (action : Action)
    (v : Extent) :
    Except TargetError Extent :=
  if action ≠ .create then .ok v
  else do
    let cylBoundary : ℤ := container.drive.cylsize
    let v ← startUp floats cylBoundary v
    let v ← startNotZero floats cylBoundary v
    let v ← sizeDown floats cylBoundary v
    platformCap floats container.drive kind v

end Adjustment

/-! ### What is asked of the adjustment -/

/-- An aligned object that is inside of what was asked for and of the disk. -/
structure Adjusted (disk : Disk) (before after : Extent) : Prop where
  start_dvd : (disk.cylsize : ℤ) ∣ after.startSector
  size_dvd : disk.cylsize ∣ after.size.sectors
  cylsize_le : (disk.cylsize : ℤ) ≤ after.startSector
  requested : Set.Ico after.startSector after.stop ⊆ Set.Ico before.startSector before.stop
  onDisk : Set.Ico after.startSector after.stop ⊆ Set.Ico 0 (disk.devSize.sectors : ℤ)

/-- An object that is made is adjusted without an exception, and a second adjustment changes
nothing. -/
def AsPromised (floats : Floats) (container : Container) (kind : Kind) (v : Extent) : Prop :=
  ∃ after, cylinderBoundaryAdjustment floats container kind .create v = .ok after ∧
    Adjusted container.drive v after ∧
    cylinderBoundaryAdjustment floats container kind .create after = .ok after

/-- The first cylinder at the start or after it, but not that of the label. -/
def firstCyl (c : ℤ) (v : Extent) : ℤ :=
  max 1 ((v.startSector + c - 1) / c)

/-- The cylinder in which the first sector after the object is. -/
def lastCyl (c : ℤ) (v : Extent) : ℤ :=
  v.stop / c

/-- The object reaches its first cylinder, the disk has the cylinders that are left to the label,
and what remains is nothing, ends on the disk, or is capped and starts in the first `maxCyl`
cylinders. -/
structure Suits (disk : Disk) (kind : Kind) (v : Extent) : Prop where
  reaches : firstCyl disk.cylsize v * disk.cylsize ≤ v.stop
  room : disk.kernelArch = .x86 → kind.maxCyl ≤ (disk.devSize.sectors : ℤ) / disk.cylsize
  ends : lastCyl disk.cylsize v ≤ firstCyl disk.cylsize v ∨
    lastCyl disk.cylsize v ≤ (disk.devSize.sectors : ℤ) / disk.cylsize ∨
    disk.kernelArch = .x86 ∧ (firstCyl disk.cylsize v ≤ kind.maxCyl ∨
      (disk.devSize.sectors : ℤ) / disk.cylsize = kind.maxCyl)

/-! ### The steps of the adjustment -/

variable {floats : Floats} {c : ℤ} {v : Extent}

/-- A size that is made of a number of sectors, if that is not negative. -/
theorem ofSectors_eq (n : ℤ) :
    Size.ofSectors floats n = if 0 ≤ n then .ok (Size.secs n.toNat) else .error .valueError := by
  split_ifs with h
  · have hn : n = (n.toNat : ℤ) := (Int.toNat_of_nonneg h).symm
    rw [hn, Size.ofSectors_natCast, Int.toNat_natCast]
  · exact Size.ofSectors_neg floats (not_le.mp h)

theorem firstCyl_of_emod_ne (hc : 0 < c) (hstart : 0 ≤ v.startSector) (h : v.startSector % c ≠ 0) :
    firstCyl c v = v.startSector / c + 1 := by
  have hdiv := Int.mul_ediv_add_emod v.startSector c
  have hlt := Int.emod_lt_of_pos v.startSector hc
  have hnonneg := Int.emod_nonneg v.startSector hc.ne'
  have hq : 0 ≤ v.startSector / c := Int.ediv_nonneg hstart hc.le
  have hceil : (v.startSector + c - 1) / c = v.startSector / c + 1 := by
    have heq : v.startSector + c - 1 = (v.startSector % c - 1) + (v.startSector / c + 1) * c := by
      linarith [mul_comm c (v.startSector / c)]
    rw [heq, Int.add_mul_ediv_right _ _ hc.ne',
      Int.ediv_eq_zero_of_lt (by omega) (by omega), zero_add]
  rw [firstCyl, hceil]
  exact max_eq_right (by omega)

theorem firstCyl_of_emod_eq (hc : 0 < c) (h : v.startSector % c = 0) :
    firstCyl c v = max 1 (v.startSector / c) := by
  have hdiv := Int.mul_ediv_add_emod v.startSector c
  have heq : v.startSector + c - 1 = (c - 1) + v.startSector / c * c := by
    linarith [mul_comm c (v.startSector / c)]
  rw [firstCyl, heq, Int.add_mul_ediv_right _ _ hc.ne',
    Int.ediv_eq_zero_of_lt (by omega) (by omega), zero_add]

/-- The start is moved to the first cylinder, unless the object does not reach it. -/
theorem start_spec (floats : Floats) (hc : 0 < c) (hstart : 0 ≤ v.startSector) :
    (firstCyl c v * c ≤ v.stop → ∃ moved,
      (startUp floats c v).bind (startNotZero floats c) = .ok moved ∧
      moved.startSector = firstCyl c v * c ∧ moved.stop = v.stop) ∧
    (v.stop < firstCyl c v * c → (startUp floats c v).bind (startNotZero floats c) =
      .error .valueError) := by
  by_cases h : v.startSector % c = 0
  · rw [startUp, if_neg (not_not_intro h)]
    show (_ → ∃ moved, startNotZero floats c v = _ ∧ _) ∧ (_ → startNotZero floats c v = _)
    have hdiv := Int.mul_ediv_add_emod v.startSector c
    rw [firstCyl_of_emod_eq hc h]
    by_cases hzero : v.startSector = 0
    · rw [startNotZero, if_pos hzero, hzero, Int.zero_ediv, max_eq_left zero_le_one, one_mul,
        ofSectors_eq]
      have hstop : v.stop = v.size.sectors := by rw [Extent.stop, hzero, zero_add]
      refine ⟨fun hle ↦ ?_, fun hlt ↦ ?_⟩
      · rw [if_pos (by omega)]
        refine ⟨_, rfl, rfl, ?_⟩
        rw [Extent.stop, Size.sectors_secs]
        dsimp only
        omega
      · rw [if_neg (by omega)]
        rfl
    · have hpos : 1 ≤ v.startSector / c := by
        by_contra hlt
        have hq : v.startSector / c = 0 := le_antisymm (by omega) (Int.ediv_nonneg hstart hc.le)
        rw [hq, h, mul_zero, add_zero] at hdiv
        exact hzero hdiv.symm
      have hmul : v.startSector / c * c = v.startSector :=
        Int.ediv_mul_cancel (Int.dvd_of_emod_eq_zero h)
      rw [startNotZero, if_neg hzero, max_eq_right hpos, hmul]
      refine ⟨fun _ ↦ ⟨v, rfl, rfl, rfl⟩, fun hlt ↦ ?_⟩
      rw [Extent.stop] at hlt
      omega
  · rw [startUp, if_pos h, firstCyl_of_emod_ne hc hstart h]
    dsimp only
    rw [ofSectors_eq]
    have hnew : (v.startSector / c + 1) * c = v.startSector / c * c + c := by ring
    have hq : 0 ≤ v.startSector / c * c := mul_nonneg (Int.ediv_nonneg hstart hc.le) hc.le
    rw [hnew, Extent.stop]
    refine ⟨fun hle ↦ ?_, fun hlt ↦ ?_⟩
    · rw [if_pos (by omega)]
      have hne : v.startSector / c * c + c ≠ 0 := by omega
      refine ⟨_, if_neg hne, rfl, ?_⟩
      rw [Extent.stop, Size.sectors_secs]
      dsimp only
      omega
    · rw [if_neg (by omega)]
      rfl

/-- The size is rounded down, and nothing else is changed. -/
theorem sizeDown_spec (floats : Floats) (hc : 0 < c) (v : Extent) :
    ∃ rounded, sizeDown floats c v = .ok rounded ∧
    rounded.startSector = v.startSector ∧ (rounded.size.sectors : ℤ) = v.size.sectors / c * c := by
  have hnonneg : 0 ≤ (v.size.sectors : ℤ) / c * c :=
    mul_nonneg (Int.ediv_nonneg (Int.natCast_nonneg _) hc.le) hc.le
  rw [sizeDown, ofSectors_eq, if_pos hnonneg]
  split_ifs with h
  · refine ⟨_, rfl, rfl, ?_⟩
    rw [Size.sectors_secs, Int.toNat_of_nonneg hnonneg]
  · exact ⟨v, rfl, rfl, (Int.ediv_mul_cancel (Int.dvd_of_emod_eq_zero (not_not.mp h))).symm⟩

/-- A size of whole cylinders is capped, unless the cap is negative. -/
theorem sizeCap_spec (floats : Floats) (diskSize maxCyl : ℤ) (hc : 0 < c) {cyls : ℤ}
    (hsize : (v.size.sectors : ℤ) = cyls * c) :
    (maxCyl ≤ diskSize / c → ∃ capped, sizeCap floats c diskSize maxCyl v = .ok capped ∧
      capped.startSector = v.startSector ∧ (capped.size.sectors : ℤ) =
      min cyls (diskSize / c - maxCyl) * c) ∧
    (diskSize / c < maxCyl → sizeCap floats c diskSize maxCyl v = .error .valueError) := by
  have hleft : (diskSize - v.size.sectors) / c = diskSize / c - cyls := by
    rw [hsize, sub_eq_add_neg, ← neg_mul, Int.add_mul_ediv_right _ _ hc.ne', ← sub_eq_add_neg]
  have hcyls : 0 ≤ cyls := by
    by_contra hneg
    have := mul_neg_of_neg_of_pos (not_le.mp hneg) hc
    omega
  rw [sizeCap, hleft]
  dsimp only
  rw [ofSectors_eq]
  refine ⟨fun hroom ↦ ?_, fun hroom ↦ ?_⟩
  · have hnonneg : 0 ≤ (diskSize / c - maxCyl) * c := mul_nonneg (by omega) hc.le
    rw [if_pos hnonneg]
    split_ifs with h
    · refine ⟨_, rfl, rfl, ?_⟩
      rw [Size.sectors_secs, Int.toNat_of_nonneg hnonneg, min_eq_right (by omega)]
    · exact ⟨v, rfl, rfl, by rw [hsize, min_eq_left (by omega)]⟩
  · have hneg : (diskSize / c - maxCyl) * c < 0 := mul_neg_of_neg_of_pos (by omega) hc
    rw [if_pos (by omega), if_neg (not_le.mpr hneg)]
    rfl

/-! ### The whole adjustment -/

/-- The cylinders that are left of so many. -/
def capCyls (disk : Disk) (kind : Kind) (cyls : ℤ) : ℤ :=
  match disk.kernelArch with
  | .x86 => min cyls ((disk.devSize.sectors : ℤ) / disk.cylsize - kind.maxCyl)
  | .sparc => cyls

/-- The disk has the cylinders that are left to the label. -/
def HasRoom (disk : Disk) (kind : Kind) : Prop :=
  disk.kernelArch = .x86 → kind.maxCyl ≤ (disk.devSize.sectors : ℤ) / disk.cylsize

section Whole

variable {container : Container} {disk : Disk} {kind : Kind}

theorem Disk.natCast_cylsize_pos (disk : Disk) : (0 : ℤ) < disk.cylsize :=
  Int.natCast_pos.mpr disk.cylsize_pos

/-- A size of whole cylinders is capped where there is a cap. -/
theorem platformCap_spec (floats : Floats) (kind : Kind) {cyls : ℤ}
    (hsize : (v.size.sectors : ℤ) = cyls * disk.cylsize) :
    (HasRoom disk kind → ∃ capped, platformCap floats disk kind v = .ok capped ∧
      capped.startSector = v.startSector ∧ (capped.size.sectors : ℤ) = capCyls disk kind cyls *
      disk.cylsize) ∧
    (¬ HasRoom disk kind → platformCap floats disk kind v = .error .valueError) := by
  unfold platformCap HasRoom capCyls
  cases harch : disk.kernelArch with
  | x86 =>
    obtain ⟨hfits, hfails⟩ :=
      sizeCap_spec floats disk.devSize.sectors kind.maxCyl disk.natCast_cylsize_pos hsize
    exact ⟨fun h ↦ hfits (h rfl), fun h ↦ hfails (lt_of_not_ge fun hle ↦ h fun _ ↦ hle)⟩
  | sparc => exact ⟨fun _ ↦ ⟨v, rfl, rfl, hsize⟩, fun h ↦ (h fun harch ↦ (nomatch harch)).elim⟩

theorem adjustment_eq (v : Extent) : cylinderBoundaryAdjustment floats container kind .create v =
    ((startUp floats container.drive.cylsize v).bind
      (startNotZero floats container.drive.cylsize)).bind
      fun moved ↦ (sizeDown floats container.drive.cylsize moved).bind
      (platformCap floats container.drive kind) := by
  rw [cylinderBoundaryAdjustment, if_neg (not_not_intro rfl)]
  show (startUp floats _ v).bind _ = _
  cases startUp floats (container.drive.cylsize : ℤ) v <;> rfl

/-- An object that reaches its first cylinder is put there, on a disk that has the cylinders left to
the label, and another one makes the adjustment fail. -/
theorem adjustment_spec (floats : Floats) (container : Container) (kind : Kind)
    (hstart : 0 ≤ v.startSector) :
    (firstCyl container.drive.cylsize v * container.drive.cylsize ≤ v.stop →
      HasRoom container.drive kind →
      ∃ after, cylinderBoundaryAdjustment floats container kind .create v = .ok after ∧
        after.startSector = firstCyl container.drive.cylsize v * container.drive.cylsize ∧
        (after.size.sectors : ℤ) = capCyls container.drive kind
          (lastCyl container.drive.cylsize v - firstCyl container.drive.cylsize v) *
          container.drive.cylsize) ∧
    (¬ (firstCyl container.drive.cylsize v * container.drive.cylsize ≤ v.stop ∧
      HasRoom container.drive kind) →
      cylinderBoundaryAdjustment floats container kind .create v = .error .valueError) := by
  have hc := container.drive.natCast_cylsize_pos
  obtain ⟨hmoves, hfails⟩ := start_spec floats hc hstart
  by_cases hreaches : firstCyl container.drive.cylsize v * container.drive.cylsize ≤ v.stop
  · obtain ⟨moved, hmoved, hmovedStart, hmovedStop⟩ := hmoves hreaches
    obtain ⟨rounded, hrounded, hroundedStart, hroundedSize⟩ := sizeDown_spec floats hc moved
    have hsize : (rounded.size.sectors : ℤ) =
        (lastCyl container.drive.cylsize v - firstCyl container.drive.cylsize v) *
            container.drive.cylsize := by
      have hsectors : (moved.size.sectors : ℤ) =
          v.stop + -firstCyl container.drive.cylsize v * container.drive.cylsize := by
        rw [Extent.stop, hmovedStart] at hmovedStop
        linarith
      rw [hroundedSize, hsectors, Int.add_mul_ediv_right _ _ hc.ne', lastCyl, sub_eq_add_neg]
    obtain ⟨hfits, hcapFails⟩ := platformCap_spec floats kind hsize
    rw [adjustment_eq, hmoved]
    show (_ → _ → ∃ after, (sizeDown floats _ moved).bind _ = _ ∧ _) ∧
      (_ → (sizeDown floats _ moved).bind _ = _)
    rw [hrounded]
    refine ⟨fun _ hroom ↦ ?_, fun h ↦ hcapFails fun hroom ↦ h ⟨hreaches, hroom⟩⟩
    obtain ⟨capped, hcapped, hcappedStart, hcappedSize⟩ := hfits hroom
    exact ⟨capped, hcapped, hcappedStart.trans (hroundedStart.trans hmovedStart), hcappedSize⟩
  · rw [adjustment_eq, hfails (not_le.mp hreaches)]
    exact ⟨fun h ↦ absurd h hreaches, fun _ ↦ rfl⟩

/-- An aligned object that the cap does not touch stays as it is. -/
theorem adjustment_of_aligned {cyls : ℤ} (hstart : (container.drive.cylsize : ℤ) ∣ v.startSector)
    (hpos : 0 < v.startSector) (hsize : (v.size.sectors : ℤ) = cyls * container.drive.cylsize)
    (hcap : container.drive.kernelArch = .x86 →
      cyls ≤ (container.drive.devSize.sectors : ℤ) / container.drive.cylsize - kind.maxCyl) :
    cylinderBoundaryAdjustment floats container kind .create v = .ok v := by
  have hc := container.drive.natCast_cylsize_pos
  have hup : startUp floats container.drive.cylsize v = .ok v :=
    if_neg (not_not_intro (Int.emod_eq_zero_of_dvd hstart))
  have hzero : startNotZero floats container.drive.cylsize v = .ok v := if_neg hpos.ne'
  have hdown : sizeDown floats container.drive.cylsize v = .ok v :=
    if_neg (not_not_intro (Int.emod_eq_zero_of_dvd (hsize ▸ dvd_mul_left _ _)))
  have hplatform : platformCap floats container.drive kind v = .ok v := by
    unfold platformCap
    cases harch : container.drive.kernelArch with
    | x86 =>
      have hleft : ((container.drive.devSize.sectors : ℤ) - v.size.sectors) /
          container.drive.cylsize =
          (container.drive.devSize.sectors : ℤ) / container.drive.cylsize - cyls := by
        rw [hsize, sub_eq_add_neg, ← neg_mul, Int.add_mul_ediv_right _ _ hc.ne', ← sub_eq_add_neg]
      refine if_neg ?_
      rw [hleft]
      have := hcap harch
      omega
    | sparc => rfl
  rw [adjustment_eq, hup]
  show ((startNotZero floats _ v).bind _) = _
  rw [hzero]
  show (sizeDown floats _ v).bind _ = _
  rw [hdown]
  exact hplatform

theorem startSector_le_firstCyl_mul (hc : 0 < c) (v : Extent) :
    v.startSector ≤ firstCyl c v * c := by
  have hdiv := Int.mul_ediv_add_emod (v.startSector + c - 1) c
  have hlt := Int.emod_lt_of_pos (v.startSector + c - 1) hc
  have hle : (v.startSector + c - 1) / c * c ≤ firstCyl c v * c :=
    mul_le_mul_of_nonneg_right (le_max_right _ _) hc.le
  linarith [mul_comm c ((v.startSector + c - 1) / c)]

theorem capCyls_le (disk : Disk) (kind : Kind) (cyls : ℤ) : capCyls disk kind cyls ≤ cyls := by
  unfold capCyls
  cases disk.kernelArch with
  | x86 => exact min_le_left _ _
  | sparc => exact le_rfl

/-- What remains is nothing or ends on the disk, exactly in the cases that `Suits` lists. -/
theorem capCyls_fits_iff (first last : ℤ) (hle : first ≤ last) (hroom : HasRoom disk kind) :
    (capCyls disk kind (last - first) ≤ 0 ∨
      first + capCyls disk kind (last - first) ≤ (disk.devSize.sectors : ℤ) / disk.cylsize) ↔
    (last ≤ first ∨ last ≤ (disk.devSize.sectors : ℤ) / disk.cylsize ∨ disk.kernelArch = .x86 ∧
      (first ≤ kind.maxCyl ∨ (disk.devSize.sectors : ℤ) / disk.cylsize = kind.maxCyl)) := by
  unfold capCyls
  unfold HasRoom at hroom
  generalize (disk.devSize.sectors : ℤ) / disk.cylsize = total at hroom ⊢
  cases harch : disk.kernelArch with
  | x86 =>
    have := hroom harch
    simp only [true_and]
    omega
  | sparc =>
    simp only [reduceCtorEq, false_and, or_false]
    omega

/-- An object of whole cylinders is inside of what was asked for, and on the disk exactly if it is
empty or ends there. -/
theorem ico_subset_iff {after : Extent} {first cyls stop : ℤ} (hc : 0 < c) (hfirst : 0 ≤ first)
    (hstart : after.startSector = first * c) (hsize : (after.size.sectors : ℤ) = cyls * c) :
    Set.Ico after.startSector after.stop ⊆ Set.Ico 0 stop ↔ cyls ≤ 0 ∨ first + cyls ≤ stop / c := by
  have hstop : after.stop = (first + cyls) * c := by
    rw [Extent.stop, hstart, hsize, add_mul]
  by_cases hcyls : cyls ≤ 0
  · have hle : after.stop ≤ after.startSector := by
      rw [hstop, hstart]
      exact mul_le_mul_of_nonneg_right (by omega) hc.le
    rw [Set.Ico_eq_empty (not_lt_of_ge hle)]
    exact iff_of_true (Set.empty_subset _) (Or.inl hcyls)
  · have hlt : after.startSector < after.stop := by
      rw [hstop, hstart]
      exact mul_lt_mul_of_pos_right (by omega) hc
    rw [Set.Ico_subset_Ico_iff hlt, hstop, Int.le_ediv_iff_mul_le hc, or_iff_right hcyls,
      and_iff_right_iff_imp]
    exact fun _ ↦ hstart ▸ mul_nonneg hfirst hc.le

/-- The adjustment keeps its promises exactly for the objects that suit the disk. -/
theorem adjustment_asPromised_iff (floats : Floats) (container : Container) (kind : Kind)
    (v : Extent)
    (hstart : 0 ≤ v.startSector) : AsPromised floats container kind v ↔
    Suits container.drive kind v := by
  have hc := container.drive.natCast_cylsize_pos
  have hone : 1 ≤ firstCyl container.drive.cylsize v := le_max_left _ _
  obtain ⟨hsucceeds, hfails⟩ := adjustment_spec floats container kind hstart
  constructor
  · rintro ⟨after, hok, hadjusted, -⟩
    have hboth : firstCyl container.drive.cylsize v * container.drive.cylsize ≤ v.stop ∧
        HasRoom container.drive kind := by
      by_contra hnot
      cases hok.symm.trans (hfails hnot)
    obtain ⟨hreaches, hroom⟩ := hboth
    obtain ⟨after', hok', hafterStart, hafterSize⟩ := hsucceeds hreaches hroom
    obtain rfl : after' = after := Except.ok.inj (hok'.symm.trans hok)
    have hle : firstCyl container.drive.cylsize v ≤ lastCyl container.drive.cylsize v :=
      (Int.le_ediv_iff_mul_le hc).mpr hreaches
    exact ⟨hreaches, hroom, (capCyls_fits_iff _ _ hle hroom).mp
      ((ico_subset_iff hc (by omega) hafterStart hafterSize).mp hadjusted.onDisk)⟩
  · intro hsuits
    obtain ⟨after, hok, hafterStart, hafterSize⟩ := hsucceeds hsuits.reaches hsuits.room
    have hle : firstCyl container.drive.cylsize v ≤ lastCyl container.drive.cylsize v :=
      (Int.le_ediv_iff_mul_le hc).mpr hsuits.reaches
    have hfits := (capCyls_fits_iff _ _ hle hsuits.room).mpr hsuits.ends
    have hlast : lastCyl container.drive.cylsize v * container.drive.cylsize ≤ v.stop :=
      Int.ediv_mul_le _ hc.ne'
    have hmul := mul_le_mul_of_nonneg_right (capCyls_le container.drive kind
      (lastCyl container.drive.cylsize v - firstCyl container.drive.cylsize v)) hc.le
    have hge : (container.drive.cylsize : ℤ) ≤ firstCyl container.drive.cylsize v *
        container.drive.cylsize :=
      le_mul_of_one_le_left hc.le hone
    refine ⟨after, hok, ⟨⟨_, (hafterStart.trans (mul_comm _ _))⟩, ?_, hafterStart ▸ hge, ?_,
      (ico_subset_iff hc (by omega) hafterStart hafterSize).mpr hfits⟩, ?_⟩
    · exact Int.natCast_dvd_natCast.mp (hafterSize ▸ dvd_mul_left _ _)
    · refine Set.Ico_subset_Ico ?_ ?_
      · exact hafterStart ▸ startSector_le_firstCyl_mul hc v
      · rw [Extent.stop, hafterStart, hafterSize]
        linarith
    · refine adjustment_of_aligned ⟨_, (hafterStart.trans (mul_comm _ _))⟩
        (hafterStart ▸ hc.trans_le hge) hafterSize
        fun harch ↦ ?_
      unfold capCyls
      rw [harch]
      exact min_le_right _ _

end Whole

/-! ### A disk of ten cylinders -/

/-- No number has a point in it here. -/
def noFloats : Floats where
  Value := Empty
  float _ := none
  longMul value := nomatch value

/-- Ten cylinders of ten sectors. -/
def tenCylinders : Disk where
  cylsize := 10
  cylsize_pos := by decide
  devSize := Size.secs 100
  kernelArch := .x86
  label := none
  wholeDisk := false
  inZpool := none
  inVdev := none

theorem adjustment_asPromised_sample :
    AsPromised noFloats (.disk tenCylinders) .slice ⟨15, Size.secs 30⟩ := by
  refine (adjustment_asPromised_iff noFloats (.disk tenCylinders) .slice ⟨15,
    Size.secs 30⟩ (by decide)).mpr ⟨?_, ?_, ?_⟩
  · decide
  · decide
  · exact Or.inr (Or.inl (by decide))

/-- The cap puts the end of a slice after that of the disk, and less than a cylinder at the start is
no size. -/
theorem not_asPromised_beyond :
    cylinderBoundaryAdjustment noFloats (.disk tenCylinders) .slice .create ⟨50, Size.secs 70⟩ =
      .ok ⟨50, Size.secs 60⟩ ∧
    ¬ AsPromised noFloats (.disk tenCylinders) .slice ⟨50, Size.secs 70⟩ ∧
    cylinderBoundaryAdjustment noFloats (.disk tenCylinders) .slice .create ⟨0, Size.secs 5⟩ =
    .error .valueError ∧
    ¬ AsPromised noFloats (.disk tenCylinders) .slice ⟨0, Size.secs 5⟩ := by
  have hbeyond : cylinderBoundaryAdjustment noFloats (.disk tenCylinders) .slice .create ⟨50,
      Size.secs 70⟩ =
      .ok ⟨50, Size.secs 60⟩ := by decide
  have hnegative : cylinderBoundaryAdjustment noFloats (.disk tenCylinders) .slice .create ⟨0,
      Size.secs 5⟩ =
      .error .valueError := by decide
  refine ⟨hbeyond, ?_, hnegative, ?_⟩
  · rintro ⟨after, hok, hadjusted, -⟩
    cases hbeyond.symm.trans hok
    have hmem : (100 : ℤ) ∈ Set.Ico 0 (tenCylinders.devSize.sectors : ℤ) :=
      hadjusted.onDisk (by decide)
    exact absurd hmem.2 (by decide)
  · rintro ⟨after, hok, -⟩
    cases hnegative.symm.trans hok

end Userland.Install.Target
