import Mathlib.Data.List.Basic

/-!
# Disks of the target controller

A disk has identifiers, by which `nameMatches` recognizes it, and a layout of partitions and slices.
`fixupDisk` prepares a layout for the desired targets. It assigns a slice to the root pool, or the
disk where it has no slice, and `fixupDivided_eq_self_iff` says when it leaves a layout as it is.

Scope: of a layout the data that the controller reads or writes. `apply_default_layout` and the
adjustment of a new slice to cylinder boundaries are given with the configuration. The names of
slices are numbers.
-/

set_option autoImplicit false
set_option relaxedAutoImplicit false

namespace Userland.Install.TargetController

abbrev Text := List Char

/-! ### Identifiers -/

/-- The identifiers of a disk. -/
structure Identity where
  ctd : Option Text
  volid : Option Text
  devpath : Option Text
  devid : Option Text
  opath : Option Text
  wwn : Option Text
  activeCtds : List Text
deriving DecidableEq

/-- Two identifiers that are given and equal. -/
def sameText (first second : Option Text) : Bool :=
  first.isSome && first == second

/-- `name_matches`. -/
def Identity.nameMatches (self other : Identity) : Bool :=
  sameText self.ctd other.ctd || sameText self.volid other.volid ||
    sameText self.devpath other.devpath || sameText self.devid other.devid ||
    sameText self.opath other.opath || sameText self.wwn other.wwn ||
    other.ctd.any self.activeCtds.contains

/-! ### Layouts -/

structure Slice where
  name : ℕ
  startSector : ℕ
  size : ℕ
  tag : ℕ
  force : Bool
  inVdev : Option Text
  inZpool : Option Text
deriving DecidableEq

structure Partition where
  name : ℕ
  slices : List Slice
deriving DecidableEq

/-- A child of a disk. -/
inductive Child
  | partition (part : Partition)
  | slice (slc : Slice)
deriving DecidableEq

/-- All of a disk but its identifiers. Sizes are in bytes. -/
structure Body where
  devSize : Option ℕ
  bootDisk : Bool
  wholeDisk : Bool
  inVdev : Option Text
  inZpool : Option Text
  children : List Child
deriving DecidableEq

structure Disk where
  identity : Identity
  body : Body
deriving DecidableEq

def Child.slices : Child → List Slice
  | .partition part => part.slices
  | .slice slc => [slc]

/-- `get_descendants(class_type=Slice)`. -/
def Body.slices (body : Body) : List Slice :=
  body.children.flatMap Child.slices

/-- The list with its first slice that passes a test changed, if there is one. -/
def changeFirst (test : Slice → Bool) (change : Slice → Slice) : List Slice → Option (List Slice)
  | [] => none
  | slc :: rest =>
    if test slc then some (change slc :: rest)
    else (changeFirst test change rest).map (slc :: ·)

/-- The children with the first slice below them that passes a test changed, if there is one. -/
def changeFirstBelow (test : Slice → Bool) (change : Slice → Slice) :
    List Child → Option (List Child)
  | [] => none
  | .slice slc :: rest =>
    if test slc then some (.slice (change slc) :: rest)
    else (changeFirstBelow test change rest).map (.slice slc :: ·)
  | .partition part :: rest =>
    match changeFirst test change part.slices with
    | some slices => some (.partition { part with slices } :: rest)
    | none => (changeFirstBelow test change rest).map (.partition part :: ·)

/-- `parent.add_slice(...)`, where the parent is that of the only slice. -/
def addBeside (new : Slice) (children : List Child) : List Child :=
  if children.any fun child ↦ child matches .partition ⟨_, _ :: _⟩ then
    children.map fun
      | .partition ⟨name, slc :: rest⟩ => .partition ⟨name, slc :: rest ++ [new]⟩
      | child => child
  else children ++ [.slice new]

/-! ### The configuration of a controller -/

/-- The names of the root pool and of its vdev, the discovered disks and the smallest size for an
installation. `adjustSlice` is what the shadow list of a container makes of a new slice,
`applyDefaultLayout` is `apply_default_layout` with neither `use_whole_disk` nor `wipe_disk`, and
`wipeDisk` the one with `wipe_disk`. They fail where these raise. -/
structure Config where
  discovered : List Disk
  minimumTargetSize : ℕ
  vdev : Option Text
  zpool : Option Text
  adjustSlice : Disk → Slice → Option Slice
  applyDefaultLayout : Disk → Option Body
  wipeDisk : Disk → Option Body

/-- `V_ROOT`. -/
def vRoot : ℕ := 2

/-- A slice in the vdev and the pool, where there are such. -/
def Config.assign (config : Config) (slc : Slice) : Slice :=
  { slc with inVdev := config.vdev <|> slc.inVdev, inZpool := config.zpool <|> slc.inZpool }

/-- `nextslice.name != "2" and int(nextslice.name) < 8`, and the size is sufficient. -/
def Config.usable (config : Config) (slc : Slice) : Bool :=
  slc.name != 2 && decide (slc.name < 8) && decide (config.minimumTargetSize ≤ slc.size)

/-- `_fixup_disk` where the disk is divided: whether the disk is set up, and its layout. -/
def Config.fixupDivided (config : Config) (disk : Disk) : Option (Bool × Body) :=
  match disk.body.slices with
  | [] => some (true, { disk.body with
      inVdev := config.vdev <|> disk.body.inVdev
      inZpool := config.zpool <|> disk.body.inZpool })
  | [slc] =>
    if slc.name = 2 then do
      let devSize ← disk.body.devSize
      let new ← config.adjustSlice disk
        { name := 0, startSector := 1, size := (devSize / 512 - 1) * 512, tag := 0, force := true
          inVdev := none, inZpool := none }
      some (true, { disk.body with
        children := addBeside { config.assign new with tag := vRoot, force := true }
          disk.body.children })
    else
      some (true, { disk.body with
        children := (changeFirstBelow (fun _ ↦ true) config.assign disk.body.children).getD
          disk.body.children })
  | _ =>
    match changeFirstBelow config.usable config.assign disk.body.children with
    | some children => some (true, { disk.body with children })
    | none => some (false, disk.body)

/-- `_fixup_disk` where the whole disk is used. -/
def Config.fixupWhole (config : Config) (disk : Disk) : Option (Bool × Body) := do
  let body ← config.wipeDisk disk
  let body := { body with wholeDisk := false }
  match changeFirstBelow (fun slc ↦ slc.name = 0)
      (fun slc ↦ { config.assign slc with tag := vRoot }) body.children with
  | some children => some (true, { body with children })
  | none => some (false, body)

/-- `_fixup_disk`. -/
def Config.fixupDisk (config : Config) (disk : Disk) (useWholeDisk : Bool) : Option (Bool × Body) :=
  if useWholeDisk then config.fixupWhole disk else config.fixupDivided disk

/-- `_is_big_enough`. -/
def Config.isBigEnough (config : Config) (disk : Disk) : Bool :=
  disk.body.devSize.any fun size ↦ config.minimumTargetSize ≤ size

/-- `apply_default_layout(disk, use_whole_disk, False)`. -/
def Config.layOut (config : Config) (disk : Disk) (useWholeDisk : Bool) : Option Body :=
  if useWholeDisk then some disk.body else config.applyDefaultLayout disk

/-! ### Layouts that are left as they are -/

theorem changeFirst_eq_self_iff {test : Slice → Bool} {change : Slice → Slice}
    {slices : List Slice} :
    changeFirst test change slices = some slices ↔
      ∃ slc, slices.find? test = some slc ∧ change slc = slc := by
  induction slices with
  | nil => simp [changeFirst]
  | cons slc rest ih =>
    rw [changeFirst, List.find?_cons]
    cases htest : test slc with
    | true => simp
    | false => simpa using ih

theorem changeFirst_eq_none_iff {test : Slice → Bool} {change : Slice → Slice}
    {slices : List Slice} :
    changeFirst test change slices = none ↔ slices.find? test = none := by
  induction slices with
  | nil => simp [changeFirst]
  | cons slc rest ih =>
    rw [changeFirst, List.find?_cons]
    cases htest : test slc with
    | true => simp
    | false => simpa using ih

theorem changeFirstBelow_eq_self_iff {test : Slice → Bool} {change : Slice → Slice}
    {children : List Child} :
    changeFirstBelow test change children = some children ↔
      ∃ slc, (children.flatMap Child.slices).find? test = some slc ∧ change slc = slc := by
  induction children with
  | nil => simp [changeFirstBelow]
  | cons child rest ih =>
    rw [List.flatMap_cons, List.find?_append]
    cases child with
    | slice slc =>
      rw [changeFirstBelow, Child.slices, List.find?_singleton]
      cases htest : test slc with
      | true => simp
      | false => simpa using ih
    | partition part =>
      rw [changeFirstBelow, Child.slices]
      cases hfirst : changeFirst test change part.slices with
      | none =>
        rw [changeFirst_eq_none_iff.mp hfirst, Option.none_or]
        simpa using ih
      | some slices =>
        have hne : part.slices.find? test ≠ none := fun hnone ↦ by
          rw [changeFirst_eq_none_iff.mpr hnone] at hfirst
          cases hfirst
        obtain ⟨slc, hslc⟩ := Option.ne_none_iff_exists'.mp hne
        rw [hslc, Option.some_or]
        have hself := @changeFirst_eq_self_iff test change part.slices
        rw [hfirst, hslc] at hself
        rw [← hself]
        constructor
        · intro h
          have heq := (List.cons.inj (Option.some.inj h)).1
          injection heq with heq
          exact congrArg some (congrArg Partition.slices heq)
        · intro h
          rw [Option.some.inj h]

theorem changeFirstBelow_eq_none_iff {test : Slice → Bool} {change : Slice → Slice}
    {children : List Child} : changeFirstBelow test change children = none ↔
      (children.flatMap Child.slices).find? test = none := by
  induction children with
  | nil => simp [changeFirstBelow]
  | cons child rest ih =>
    rw [List.flatMap_cons, List.find?_append]
    cases child with
    | slice slc =>
      rw [changeFirstBelow, Child.slices, List.find?_singleton]
      cases htest : test slc with
      | true => simp
      | false => simpa using ih
    | partition part =>
      rw [changeFirstBelow, Child.slices]
      cases hfirst : changeFirst test change part.slices with
      | none =>
        rw [changeFirst_eq_none_iff.mp hfirst, Option.none_or]
        simpa using ih
      | some slices =>
        have hne : part.slices.find? test ≠ none := fun hnone ↦ by
          rw [changeFirst_eq_none_iff.mpr hnone] at hfirst
          cases hfirst
        obtain ⟨slc, hslc⟩ := Option.ne_none_iff_exists'.mp hne
        simp [hslc]

theorem addBeside_ne (new : Slice) (children : List Child) : addBeside new children ≠ children := by
  intro h
  unfold addBeside at h
  split_ifs at h with hany
  · obtain ⟨child, hmem, hchild⟩ := List.any_eq_true.mp hany
    have hall := List.map_inj_left.mp (h.trans (List.map_id children).symm) child hmem
    match child, hchild, hall with
    | .partition ⟨name, slc :: rest⟩, _, hall =>
      have hslices : slc :: rest ++ [new] = slc :: rest := by
        injection hall with hpart
        injection hpart
      exact absurd (List.append_right_eq_self.mp hslices) (List.cons_ne_nil _ _)
  · exact absurd (List.append_right_eq_self.mp h) (List.cons_ne_nil _ _)

/-- A layout that has its place in the vdev and the pool: the disk itself where there is no slice,
the only slice where this is not slice 2, and the first usable slice where there are several. -/
def Config.Placed (config : Config) (body : Body) : Prop :=
  match body.slices with
  | [] => (config.vdev <|> body.inVdev) = body.inVdev ∧
    (config.zpool <|> body.inZpool) = body.inZpool
  | [slc] => slc.name ≠ 2 ∧ config.assign slc = slc
  | slices => ∃ slc, slices.find? config.usable = some slc ∧ config.assign slc = slc

/-- The layouts that `_fixup_disk` leaves as they are. -/
theorem fixupDivided_eq_self_iff {config : Config} {disk : Disk} :
    config.fixupDivided disk = some (true, disk.body) ↔ config.Placed disk.body := by
  obtain ⟨identity, body⟩ := disk
  have hchildren : ∀ children, ({ body with children } : Body) = body ↔ children = body.children :=
    fun children ↦ ⟨fun h ↦ congrArg Body.children h, fun h ↦ by rw [h]⟩
  unfold Config.fixupDivided Config.Placed
  cases hslices : body.slices with
  | nil =>
    simp only [Option.some.injEq, Prod.mk.injEq, true_and]
    constructor
    · intro h
      exact ⟨congrArg Body.inVdev h, congrArg Body.inZpool h⟩
    · rintro ⟨hvdev, hzpool⟩
      rw [hvdev, hzpool]
  | cons slc rest =>
    cases rest with
    | nil =>
      by_cases hname : slc.name = 2
      · simp only [hname, if_true, ne_eq, not_true_eq_false, false_and, iff_false]
        intro h
        obtain ⟨devSize, -, h⟩ := Option.bind_eq_some_iff.mp h
        obtain ⟨new, -, h⟩ := Option.bind_eq_some_iff.mp h
        exact addBeside_ne _ _ ((hchildren _).mp (Prod.mk.inj (Option.some.inj h)).2)
      · have hself := @changeFirstBelow_eq_self_iff (fun _ ↦ true) config.assign body.children
        rw [← Body.slices, hslices, List.find?_cons_of_pos rfl] at hself
        simp only [hname, if_false, ne_eq, not_false_eq_true, true_and, Option.some.injEq,
          Prod.mk.injEq, hchildren]
        cases hchange : changeFirstBelow (fun _ ↦ true) config.assign body.children with
        | none =>
          have hnone := changeFirstBelow_eq_none_iff.mp hchange
          rw [← Body.slices, hslices, List.find?_cons_of_pos rfl] at hnone
          cases hnone
        | some children =>
          rw [hchange, Option.some.injEq] at hself
          rw [Option.getD_some, hself]
          simp
    | cons other rest =>
      have hself := @changeFirstBelow_eq_self_iff config.usable config.assign body.children
      rw [← Body.slices, hslices] at hself
      simp only
      cases hchange : changeFirstBelow config.usable config.assign body.children with
      | none =>
        rw [hchange] at hself
        simpa using hself
      | some children =>
        rw [hchange, Option.some.injEq] at hself
        simp only [Option.some.injEq, Prod.mk.injEq, true_and, hchildren]
        exact hself

end Userland.Install.TargetController
