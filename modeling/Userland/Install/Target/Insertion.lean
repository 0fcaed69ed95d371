import Userland.Install.Target.Slices

/-!
# Inserting a partition

`triple_insertPartition` says which partition is inserted and when no error is posted for it. A
partition that is not to be made is inserted as it is (`insert_partition_kept`).
-/

set_option autoImplicit false
set_option relaxedAutoImplicit false

namespace Userland.Install.Target

open Library Library.Program

/-! ### Checks that are passed exactly if something is so -/

section Quiet

variable {old : List Child} {fact : Prop} {E : TargetError → Shadow → Prop}

/-- The list is as it was, and no error was posted exactly if this is a fact. -/
def Quiet (old : List Child) (fact : Prop) (s : Shadow) : Prop :=
  s.children = old ∧ (s.errors = [] ↔ fact)

theorem Quiet.congr {fact' : Prop} (h : fact ↔ fact') {s : Shadow} (hs : Quiet old fact s) :
    Quiet old fact' s :=
  ⟨hs.1, hs.2.trans h⟩

theorem quiet_postIf (failed : Bool) (error : ShadowError) :
    Triple (Quiet old fact) (postIf failed error) (fun _ ↦
      Quiet old (fact ∧ failed = false)) E := by
  unfold postIf
  split_ifs with h
  · refine Triple.modify fun s hs ↦ ⟨hs.1, ?_⟩
    rw [h]
    simp
  · exact Triple.pure fun s hs ↦ hs.congr ⟨fun hfact ↦ ⟨hfact, Bool.eq_false_iff.mpr h⟩, And.left⟩

theorem quiet_forEach {α : Type} {body : α → ShadowMethod Unit} {passes : α → Prop}
    (hbody : ∀ (fact : Prop) (x : α),
      Triple (Quiet old fact) (body x) (fun _ ↦ Quiet old (fact ∧ passes x)) E)
    (list : List α) :
    Triple (Quiet old fact) (forEach body list) (fun _ ↦
      Quiet old (fact ∧ ∀ x ∈ list, passes x)) E := by
  refine Triple.weaken (Triple.forEach (I := fun before ↦
    Quiet old (fact ∧ ∀ x ∈ before, passes x)) ?_)
    (fun _ hs ↦ hs.congr ?_) (fun _ _ hs ↦ hs) fun _ _ hs ↦ hs
  · intro before x after _
    refine (hbody _ x).weaken (fun _ hs ↦ hs) (fun _ _ hs ↦ hs.congr ?_) fun _ _ hs ↦ hs
    rw [List.forall_mem_append, List.forall_mem_singleton, and_assoc]
  · exact ⟨fun hfact ↦ ⟨hfact, fun x hx ↦ absurd hx List.not_mem_nil⟩, And.left⟩

end Quiet

/-! ### What is checked -/

/-- What is checked of a partition as it was given and on cylinders. -/
structure Sound (disk : Disk) (given v : Partition) : Prop where
  typed : given.partType ≠ none
  numbered : 1 ≤ given.name.number ∧ given.name.number ≤ fdNumpart + maxExtParts
  onDisk : 0 ≤ v.extent.startSector ∧ v.extent.startSector ≤ disk.devSize.sectors
  free : disk.wholeDisk = false

/-- What is checked of a logical partition before it is in its place. -/
structure Placed (others : List Partition) (v : Partition) : Prop where
  extended : v.isLogical → extendedPart others ≠ none
  few : v.isLogical → extendedPart others ≠ none → ((logicalList others).length : ℤ) < maxExtParts

/-- What is checked of a partition in its place against another one. -/
structure Beside (v p : Partition) : Prop where
  active : v.isPrimary → v.bootid = Partition.active → p.isLogical = false →
    p.bootid ≠ Partition.active
  inside : leavesExtended v p = false
  apart : overlapsPartition v p = false
  extended : v.isExtended → p.isExtended → p.action = .delete

/-- What is checked of a partition in its place. -/
structure Fits (disk : Disk) (old : List Child) (v : Partition) : Prop where
  name : ∀ child ∈ live old, child.physical.name ≠ v.name
  extended : v.isExtended → logicalAdjustment ≤ (v.extent.size.sectors : ℤ)
  fat16 : v.partType.any (Partition.fat16List.contains ·) → v.action = .create →
    v.extent.size.byteValue ≤ 2 ^ 30 * 4
  zpool : v.inZpool ≠ none → disk.inZpool ≠ v.inZpool
  vdev : v.inVdev ≠ none → disk.inVdev ≠ v.inVdev

/-- No error is posted. -/
structure Passes (disk : Disk) (old : List Child) (others : List Partition)
    (given rounded v : Partition) : Prop where
  sound : Sound disk given rounded
  placed : Placed others rounded
  beside : ∀ p ∈ others, Beside v p
  fits : Fits disk old v

/-- What an insertion has made of a partition. -/
structure InsertedPartition (floats : Floats) (disk : Disk) (old : List Child) (index : ℤ)
    (given : Partition) (s : Shadow) (others : List Partition) (rounded v : Partition) : Prop where
  others_eq : asPartitions old = .ok others
  rounded_eq : roundedPartition floats disk given = .ok rounded
  moved_eq : movedLogical floats others rounded = .ok v
  children_eq : s.children = old.insertIdx (insertPlace old.length index) (.partition v)
  passes : s.errors = [] ↔ Passes disk old others given rounded v

variable {floats : Floats} {disk : Disk} {old : List Child}

theorem triple_placePartition (floats : Floats) (disk : Disk) (old : List Child)
    (given : Partition) :
    Triple (Quiet old True) (placePartition floats disk given)
      (fun placed s ↦ ∃ rounded, roundedPartition floats disk given = .ok rounded ∧
        asPartitions old = .ok placed.1 ∧
        movedLogical floats placed.1 rounded = .ok placed.2 ∧
        Quiet old (Sound disk given rounded ∧ Placed placed.1 rounded) s)
      fun error _ ↦ roundedPartition floats disk given = .error error ∨
      asPartitions old = .error error ∨
        ∃ others rounded, asPartitions old = .ok others ∧
        roundedPartition floats disk given = .ok rounded ∧
          movedLogical floats others rounded = .error error := by
  unfold placePartition
  refine Triple.bind (quiet_postIf _ _) fun _ ↦ ?_
  refine Triple.bind (quiet_postIf _ _) fun _ ↦ ?_
  refine Triple.bind (Triple.lift (Q := fun rounded s ↦
    roundedPartition floats disk given = .ok rounded ∧ Quiet old _ s)
    (fun rounded s hrounded hs ↦ ⟨hrounded, hs⟩)
    fun error s herror _ ↦ Or.inl herror) fun rounded ↦ Triple.assume fun hrounded ↦ ?_
  refine Triple.bind (quiet_postIf _ _) fun _ ↦ ?_
  refine Triple.bind (quiet_postIf _ _) fun _ ↦ ?_
  refine Triple.bind (Triple.get (Q := fun got s ↦ got.children = old ∧ Quiet old _ s)
    fun s hs ↦ ⟨hs.1, hs⟩) fun got ↦ Triple.assume fun hgot ↦ ?_
  rw [hgot]
  refine Triple.bind (Triple.lift (Q := fun others s ↦ asPartitions old = .ok others ∧
    Quiet old _ s)
    (fun others s hothers hs ↦ ⟨hothers, hs⟩)
    fun error s herror _ ↦ Or.inr (Or.inl herror)) fun others ↦ Triple.assume fun hothers ↦ ?_
  refine Triple.bind (quiet_postIf _ _) fun _ ↦ ?_
  refine Triple.bind (quiet_postIf _ _) fun _ ↦ ?_
  refine Triple.bind (Triple.lift (Q := fun moved s ↦
    movedLogical floats others rounded = .ok moved ∧ Quiet old _ s)
    (fun moved s hmoved hs ↦ ⟨hmoved, hs⟩)
    fun error s herror _ ↦ Or.inr (Or.inr ⟨others, rounded, hothers, hrounded, herror⟩))
    fun moved ↦ Triple.assume fun hmoved ↦ ?_
  refine Triple.pure fun s hs ↦ ⟨rounded, hrounded, hothers, hmoved, hs.congr ?_⟩
  simp only [true_and, Bool.not_eq_false', decide_eq_true_eq, decide_eq_false_iff_not,
    not_and, not_le,
    Option.isNone_eq_false_iff, Option.isSome_iff_ne_none, Option.isNone_iff_eq_none]
  constructor
  · rintro ⟨⟨⟨⟨⟨htyped, hnumbered⟩, honDisk⟩, hfree⟩, hextended⟩, hfew⟩
    exact ⟨⟨htyped, hnumbered, honDisk, hfree⟩, ⟨hextended, hfew⟩⟩
  · rintro ⟨hsound, hplaced⟩
    exact ⟨⟨⟨⟨⟨hsound.typed, hsound.numbered⟩, hsound.onDisk⟩, hsound.free⟩, hplaced.extended⟩,
      hplaced.few⟩

theorem quiet_checkPartition {fact : Prop} {E : TargetError → Shadow → Prop} (v p : Partition) :
    Triple (Quiet old fact) (checkPartition v p)
      (fun _ ↦ Quiet old (fact ∧ leavesExtended v p = false ∧
        overlapsPartition v p = false)) E := by
  unfold checkPartition
  refine Triple.bind (quiet_postIf _ _) fun _ ↦ ?_
  exact (quiet_postIf _ _).weaken (fun _ hs ↦ hs) (fun _ _ hs ↦ hs.congr and_assoc) fun _ _ hs ↦ hs

theorem triple_checkAndInsert (disk : Disk) (old : List Child) (index : ℤ) (others : List Partition)
    (v : Partition) {fact : Prop} {E : TargetError → Shadow → Prop} :
    Triple (Quiet old fact) (checkAndInsert disk index others v)
      (fun _ s ↦ s.children = old.insertIdx (insertPlace old.length index) (.partition v) ∧
        (s.errors = [] ↔ fact ∧ (∀ p ∈ others, Beside v p) ∧ Fits disk old v)) E := by
  unfold checkAndInsert
  refine Triple.bind (quiet_forEach (fun _ p ↦ quiet_postIf _ _) _) fun _ ↦ ?_
  refine Triple.bind (quiet_forEach (fun _ p ↦ quiet_checkPartition v p) _) fun _ ↦ ?_
  refine Triple.bind (Triple.get (Q := fun got s ↦ got.children = old ∧ Quiet old _ s)
    fun s hs ↦ ⟨hs.1, hs⟩) fun got ↦ Triple.assume fun hgot ↦ ?_
  refine Triple.bind (quiet_postIf _ _) fun _ ↦ ?_
  refine Triple.bind (quiet_forEach (fun _ p ↦ quiet_postIf _ _) _) fun _ ↦ ?_
  refine Triple.bind (quiet_postIf _ _) fun _ ↦ ?_
  refine Triple.bind (quiet_postIf _ _) fun _ ↦ ?_
  refine Triple.bind (quiet_postIf _ _) fun _ ↦ ?_
  refine Triple.bind (quiet_postIf _ _) fun _ ↦ ?_
  refine Triple.modify fun s hs ↦ ⟨by rw [hs.1], hs.2.trans ?_⟩
  rw [hasName_eq_false_iff, hgot]
  simp only [Bool.not_eq_true', decide_eq_false_iff_not, not_and, not_lt, ne_eq, not_not,
    Option.isSome_iff_ne_none, and_assoc]
  constructor
  · rintro ⟨hfact, hactive, hbeside, hname, hextended, hsize, hfat16, hzpool, hvdev⟩
    exact ⟨hfact, fun p hp ↦ ⟨hactive p hp, (hbeside p hp).1, (hbeside p hp).2, hextended p hp⟩,
      ⟨hname, hsize, hfat16, hzpool, hvdev⟩⟩
  · rintro ⟨hfact, hbeside, hfits⟩
    exact ⟨hfact, fun p hp ↦ (hbeside p hp).active, fun p hp ↦
      ⟨(hbeside p hp).inside, (hbeside p hp).apart⟩, hfits.name,
      fun p hp ↦ (hbeside p hp).extended, hfits.extended, hfits.fat16, hfits.zpool, hfits.vdev⟩

/-- The partition that is inserted, and when no error is posted for it. -/
theorem triple_insertPartition (floats : Floats) (disk : Disk) (old : List Child) (index : ℤ)
    (given : Partition) :
    Triple (Quiet old True) (insertPartition floats disk index given)
      (fun _ s ↦ ∃ others rounded v,
        InsertedPartition floats disk old index given s others rounded v)
      fun error _ ↦ roundedPartition floats disk given = .error error ∨
      asPartitions old = .error error ∨
        ∃ others rounded, asPartitions old = .ok others ∧
        roundedPartition floats disk given = .ok rounded ∧
          movedLogical floats others rounded = .error error := by
  unfold insertPartition
  refine Triple.bind (triple_placePartition floats disk old given) fun placed s hs ↦ ?_
  obtain ⟨rounded, hrounded, hothers, hmoved, hquiet⟩ := hs
  have hchecked := triple_checkAndInsert disk old (E := fun _ _ ↦
    False) index placed.1 placed.2 s hquiet
  rcases hexec : exec (checkAndInsert disk index placed.1 placed.2) s with ⟨error | value, next⟩
  · rw [hexec] at hchecked
    exact hchecked.elim
  · rw [hexec] at hchecked
    refine ⟨placed.1, rounded, placed.2, hothers, hrounded, hmoved, hchecked.1, hchecked.2.trans ?_⟩
    constructor
    · rintro ⟨⟨hsound, hplaced⟩, hbeside, hfits⟩
      exact ⟨hsound, hplaced, hbeside, hfits⟩
    · rintro ⟨hsound, hplaced, hbeside, hfits⟩
      exact ⟨⟨hsound, hplaced⟩, hbeside, hfits⟩

/-- How the insertion of a partition into the children of a disk ends. -/
theorem insert_partition_spec (floats : Floats) (disk : Disk) (s : Shadow) (index : ℤ)
    (given : Partition) :
    (∃ s' others rounded v, exec (insert floats (.disk disk) true index (.partition given)) s =
      (.ok (), s') ∧
      InsertedPartition floats disk s.children index given s' others rounded v) ∨
    ∃ error s', exec (insert floats (.disk disk) true index (.partition given)) s =
    (.error error, s') ∧
      (roundedPartition floats disk given = .error error ∨ asPartitions s.children = .error error ∨
        ∃ others rounded, asPartitions s.children = .ok others ∧
        roundedPartition floats disk given = .ok rounded ∧
          movedLogical floats others rounded = .error error) := by
  have hexec : exec (insert floats (.disk disk) true index (.partition given)) s =
      exec (insertPartition floats disk index given) ⟨s.children, []⟩ := by
    unfold insert
    rw [if_neg (by decide), exec_bind, exec_modify]
  have hrun := triple_insertPartition floats disk s.children index given ⟨s.children, []⟩ ⟨rfl,
    iff_of_true rfl trivial⟩
  rw [hexec]
  rcases hresult : exec (insertPartition floats disk index given) ⟨s.children,
    []⟩ with ⟨error | value, s'⟩
  · rw [hresult] at hrun
    exact Or.inr ⟨error, s', rfl, hrun⟩
  · rw [hresult] at hrun
    obtain ⟨others, rounded, v, h⟩ := hrun
    exact Or.inl ⟨s', others, rounded, v, rfl, h⟩

theorem roundedPartition_eq_with {given rounded : Partition}
    (h : roundedPartition floats disk given = .ok rounded) :
    ∃ extent, rounded = { given with extent := extent } := by
  rw [roundedPartition] at h
  split_ifs at h
  · obtain ⟨extent, -, rfl⟩ := map_eq_ok h
    exact ⟨extent, rfl⟩
  · exact ⟨given.extent, (Except.ok.inj h).symm⟩

theorem adjustedLogical_eq_with {extended given v : Partition} {logicals : List Partition}
    (h : adjustedLogical floats extended logicals given = .ok v) :
    ∃ extent, v = { given with extent := extent } := by
  rw [adjustedLogical] at h
  generalize (if closestEndpoint logicals given.extent.startSector =
    0 then extended.extent.startSector
    else closestEndpoint logicals given.extent.startSector) = start at h
  split_ifs at h
  · obtain ⟨size, -, rfl⟩ := map_eq_ok h
    exact ⟨_, rfl⟩
  · exact ⟨given.extent, (Except.ok.inj h).symm⟩

variable {others : List Partition}

theorem movedLogical_eq_with {given v : Partition}
    (h : movedLogical floats others given = .ok v) :
    ∃ extent, v = { given with extent := extent } := by
  rw [movedLogical] at h
  split_ifs at h
  · split at h
    · exact ⟨given.extent, (Except.ok.inj h).symm⟩
    · exact adjustedLogical_eq_with h
  · exact ⟨given.extent, (Except.ok.inj h).symm⟩

variable {given : Partition}

/-- Only the place of a partition is changed. -/
theorem InsertedPartition.eq_with {index : ℤ} {s : Shadow}
    {rounded v : Partition} (h : InsertedPartition floats disk old index given s others rounded v) :
    ∃ extent, v = { given with extent := extent } := by
  obtain ⟨extent, rfl⟩ := roundedPartition_eq_with h.rounded_eq
  obtain ⟨extent', hv⟩ := movedLogical_eq_with h.moved_eq
  exact ⟨extent', hv⟩

theorem roundedPartition_of_ne_create (h : given.action ≠ .create) :
    roundedPartition floats disk given = .ok given := by
  rw [roundedPartition]
  split_ifs
  · rw [cylinderBoundaryAdjustment, if_pos h]
    rfl
  · rfl

theorem movedLogical_of_ne_create (h : given.action ≠ .create) (others : List Partition) :
    movedLogical floats others given = .ok given := by
  rw [movedLogical]
  split_ifs
  · split
    · rfl
    · exact if_neg fun hboth ↦ h hboth.2
  · rfl

/-- A partition that is not to be made is inserted as it is. -/
theorem insert_partition_kept (floats : Floats) (disk : Disk) {s : Shadow} (index : ℤ)
    (haction : given.action ≠ .create) (hothers : asPartitions s.children = .ok others) :
    ∃ s', exec (insert floats (.disk disk) true index (.partition given)) s = (.ok (), s') ∧
      s'.children = s.children.insertIdx (insertPlace s.children.length index) (.partition given) ∧
      (s'.errors = [] ↔ Passes disk s.children others given given given) := by
  have hrounded : roundedPartition floats disk given = .ok given :=
    roundedPartition_of_ne_create haction
  have hmoved : movedLogical floats others given = .ok given :=
    movedLogical_of_ne_create haction others
  rcases insert_partition_spec floats disk s index given with
    ⟨s', others', rounded, v, hexec, h⟩ | ⟨error, s', -, herror⟩
  · obtain rfl : others = others' := Except.ok.inj (hothers.symm.trans h.others_eq)
    obtain rfl : given = rounded := Except.ok.inj (hrounded.symm.trans h.rounded_eq)
    obtain rfl : given = v := Except.ok.inj (hmoved.symm.trans h.moved_eq)
    exact ⟨s', hexec, h.children_eq, h.passes⟩
  · rcases herror with herror | herror | ⟨others', rounded, hothers', hrounded', herror⟩
    · rw [hrounded] at herror
      cases herror
    · rw [hothers] at herror
      cases herror
    · obtain rfl : others = others' := Except.ok.inj (hothers.symm.trans hothers')
      obtain rfl : given = rounded := Except.ok.inj (hrounded.symm.trans hrounded')
      rw [hmoved] at herror
      cases herror

end Userland.Install.Target
