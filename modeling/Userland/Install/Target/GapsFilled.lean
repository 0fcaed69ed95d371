import Mathlib.Data.List.Pairwise
import Userland.Install.Target.GapsUsable

/-!
# When the gaps are real and usable

`gaps_usable` is for the disks that `Filled` describes, and `filled_of_usable` shows that there are
no others among the disks on which no deleted logical or extended partition is looked at. The two
are `gaps_usable_iff` together.
-/

set_option autoImplicit false
set_option relaxedAutoImplicit false

namespace Userland.Install.Target

open Library Library.Program

variable {floats : Floats} {disk : Disk} {children : List Child}

/-! ### Children, partitions, and those that are not to be deleted -/

theorem mem_live {child : Child} : child ∈ live children ↔
    child ∈ children ∧ child.physical.action ≠ .delete := by
  rw [live, List.mem_filter, decide_eq_true_eq]

theorem live_live : live (live children) = live children := by
  unfold live
  rw [List.filter_filter]
  simp only [Bool.and_self]

theorem used_live : used (live children) = used children := by
  rw [used, live_live]
  rfl

variable {p : Partition}

theorem mem_partitionsOf : p ∈ partitionsOf children ↔ .partition p ∈ children := by
  rw [partitionsOf, List.mem_filterMap]
  constructor
  · rintro ⟨child, hmem, hchild⟩
    cases child with
    | slice slc => cases hchild
    | partition part =>
      cases hchild
      exact hmem
  · exact fun hmem ↦ ⟨_, hmem, rfl⟩

theorem mem_partitionsOf_live :
    p ∈ partitionsOf (live children) ↔ p ∈ partitionsOf children ∧ p.action ≠ .delete := by
  rw [mem_partitionsOf, mem_live, mem_partitionsOf]
  rfl

theorem partitionsOf_live (children : List Child) :
    partitionsOf (live children) = (partitionsOf children).filter fun p ↦ p.action ≠ .delete := by
  induction children with
  | nil => rfl
  | cons child rest ih =>
    cases child with
    | slice slc =>
      have hcons : partitionsOf (.slice slc :: rest) = partitionsOf rest := rfl
      rw [hcons, ← ih]
      by_cases h : (Child.slice slc).physical.action = .delete
      · rw [live_cons_of_delete h]
      · rw [live_cons_of_ne h]
        rfl
    | partition part =>
      have hcons : partitionsOf (.partition part :: rest) = part :: partitionsOf rest := rfl
      by_cases h : (Child.partition part).physical.action = .delete
      · have hdelete : part.action = .delete := h
        rw [live_cons_of_delete h, ih, hcons, List.filter_cons_of_neg (by simp [hdelete])]
      · have hlive : part.action ≠ .delete := h
        rw [live_cons_of_ne h, hcons, List.filter_cons_of_pos (by simp [hlive]), ← ih]
        rfl

theorem asPartitions_cases (children : List Child) :
    asPartitions children = .ok (partitionsOf children) ∨
    asPartitions children = .error .attributeError := by
  induction children with
  | nil => exact Or.inl rfl
  | cons child rest ih =>
    cases child with
    | slice slc => exact Or.inr rfl
    | partition part =>
      refine ih.imp (fun h ↦ ?_) fun h ↦ ?_
      · rw [asPartitions, h]
        rfl
      · rw [asPartitions, h]
        rfl

theorem asPartitions_of_forall (h : ∀ child ∈ children, child.partition?.isSome) :
    asPartitions children = .ok (partitionsOf children) := by
  induction children with
  | nil => rfl
  | cons child rest ih =>
    cases child with
    | slice slc => cases h (.slice slc) List.mem_cons_self
    | partition part =>
      rw [asPartitions, ih fun other hother ↦ h other (List.mem_cons_of_mem _ hother)]
      rfl

theorem isPrimary_of_isExtended (h : p.isExtended) : p.isPrimary := by
  rw [Partition.isExtended, Bool.and_eq_true] at h
  exact h.1

theorem isLogical_iff : p.isLogical ↔ p.isPrimary = false := by
  rw [Partition.isLogical, Bool.not_eq_true']

theorem mem_used_of_isPrimary (h : p ∈ partitionsOf (live children)) (hprimary : p.isPrimary) :
    .partition p ∈ used children := by
  refine List.mem_filter.mpr ⟨mem_partitionsOf.mp h, ?_⟩
  show (!(!p.isPrimary)) = true
  rw [hprimary]
  rfl

/-! ### What is in use -/

theorem LaidOut.within (h : LaidOut disk children) :
    Sweep.Within 0 (disk.devSize.sectors : ℤ) (usedRanges children) where
  bounds := Int.natCast_nonneg _
  ranges r hr := by
    obtain ⟨child, hchild, rfl⟩ := List.mem_map.mp hr
    obtain ⟨hstart, hstop⟩ := h.onDisk child hchild
    refine ⟨hstart, ?_, hstop⟩
    show child.physical.extent.startSector ≤ child.physical.extent.startSector + _
    omega

/-- What is in a step of the list of used sectors is in no child but backup slices. -/
theorem LaidOut.disjoint_of_mem_pairs (h : LaidOut disk children) {p : ℤ × ℤ}
    (hp : p ∈ Sweep.pairs (Sweep.usage 0 (disk.devSize.sectors : ℤ) (usedRanges children)))
    {child : Child}
    (hchild : child ∈ live children) (hbackup : ¬ child.IsBackup) :
    Disjoint (Set.Ico p.1 p.2) child.sectors := by
  have hused : ∀ other ∈ used children, Disjoint (Set.Ico p.1 p.2) other.sectors :=
      fun other hother ↦
    h.apart.disjoint_of_mem_pairs h.within hp (List.mem_map_of_mem hother)
  cases child with
  | slice slc =>
    refine hused _ (List.mem_filter.mpr ⟨hchild, ?_⟩)
    have htag : ¬ slc.tag = vBackup := hbackup
    show (!decide (slc.tag = vBackup)) = true
    rw [decide_eq_false htag]
    rfl
  | partition part =>
    by_cases hprimary : part.isPrimary
    · exact hused _ (mem_used_of_isPrimary (mem_partitionsOf.mpr hchild) hprimary)
    · obtain ⟨q, hq, hextended, hstart, hstop⟩ := h.logical part (mem_partitionsOf.mpr hchild)
        (isLogical_iff.mpr (Bool.eq_false_iff.mpr hprimary))
      have hsub : Child.sectors (.partition part) ⊆ Child.sectors (.partition q) := by
        refine Set.Ico_subset_Ico ?_ hstop
        show q.extent.startSector ≤ part.extent.startSector
        have : (0 : ℤ) ≤ logicalAdjustment := by decide
        omega
      exact (hused _ (mem_used_of_isPrimary hq (isPrimary_of_isExtended hextended))).mono_right hsub

/-! ### Primary partitions in holes -/

/-- Ranges that are not empty and have no sector in common do not overlap in the words of the
checks. -/
theorem overlapping_eq_false {a b c d : ℤ} (h : Disjoint (Set.Ico a b) (Set.Ico c d)) (hab : a < b)
    (hcd : c < d) :
    overlapping a (b - 1) c (d - 1) = false := by
  rw [overlapping, decide_eq_false_iff_not]
  have hleft : ¬ (a ≤ c ∧ c < b) := fun hmem ↦ Set.disjoint_left.mp h hmem ⟨le_rfl, hcd⟩
  have hright : ¬ (c ≤ a ∧ a < d) := fun hmem ↦ Set.disjoint_left.mp h ⟨le_rfl, hab⟩ hmem
  omega

/-- A primary partition clashes with no primary partition from which it is apart. -/
theorem not_clashes_of_isPrimary {v p : Partition} (hv : v.isPrimary)
    (hvSize : 0 < v.extent.size.sectors)
    (hp : p.isPrimary → p.action ≠ .delete → Disjoint v.extent.sectors p.extent.sectors ∧
      (p.extent.size.sectors = 0 →
        p.extent.startSector < v.extent.startSector ∨ v.extent.stop < p.extent.startSector)) :
    ¬ Clashes v p := by
  rintro (hleaves | hoverlaps)
  · rw [leavesExtended, decide_eq_true_eq, hv] at hleaves
    cases hleaves.1
  · rw [overlapsPartition, decide_eq_true_eq, hv] at hoverlaps
    obtain ⟨hprimary, -, hlive, hover⟩ := hoverlaps
    obtain ⟨hdisjoint, hempty⟩ := hp hprimary.symm hlive
    rw [checkedEnd, checkedStart, ← hprimary, if_pos rfl, if_pos rfl] at hover
    rcases Nat.eq_zero_or_pos p.extent.size.sectors with hzero | hsize
    · have hends := hempty hzero
      rw [overlapping, decide_eq_true_eq, hzero] at hover
      rw [Extent.stop] at hends hover
      omega
    have hfalse := overlapping_eq_false hdisjoint.symm (by rw [Extent.stop]; omega)
      (by rw [Extent.stop]; omega)
    rw [Extent.stop] at hfalse
    cases hfalse.symm.trans hover

variable {v : Partition} {holes : List Extent}

/-- An empty primary partition touches a hole only where it ends the gap. -/
theorem LaidOut.apart_of_empty (h : LaidOut disk children)
    (hholes : HolesOf disk.cylsize (Sweep.usage 0 (disk.devSize.sectors : ℤ)
      (usedRanges children)) holes)
    {hole : Extent} (hmem : hole ∈ holes) (hp : p ∈ partitionsOf (live children))
    (hprimary : p.isPrimary) (hends : ¬ EndsGap disk children p.extent.startSector) :
    p.extent.startSector < hole.startSector ∨ hole.stop < p.extent.startSector := by
  obtain ⟨hstartDvd, hcylsize, ⟨cyls, hcyls⟩, hsize, ⟨a, b⟩, hpair, -, hstart, hstop, hfirst⟩ :=
    hholes.each hole hmem
  dsimp only at hstart hstop hfirst
  have hused := mem_used_of_isPrimary hp hprimary
  have hab : a < b := by
    rw [Extent.stop] at hstop
    omega
  have hrange : ∀ child ∈ used children, child.physical.extent.stop ≤ a ∨
      b ≤ child.physical.extent.startSector :=
    fun child hchild ↦ h.apart.before_or_behind h.within hpair hab (List.mem_map_of_mem hchild)
  have hself : p.extent.stop ≤ a ∨ b ≤ p.extent.startSector := hrange _ hused
  rcases hself with hle | hle
  · rw [Extent.stop] at hle
    exact Or.inl (by omega)
  refine Or.inr (not_le.mp fun hge ↦ hends ?_)
  have heq : hole.stop = p.extent.startSector := by omega
  have htwo : 2 * (disk.cylsize : ℤ) ≤ hole.size.sectors := by
    have hc := disk.natCast_cylsize_pos
    have hone : 1 < cyls := by
      refine lt_of_mul_lt_mul_left ?_ hc.le
      rw [mul_one, ← hcyls]
      exact hsize
    rw [hcyls, mul_comm]
    exact mul_le_mul_of_nonneg_left hone hc.le
  have hfar : a + 2 * (disk.cylsize : ℤ) < p.extent.startSector := by
    rw [← heq, Extent.stop]
    omega
  refine ⟨?_, ?_, fun child hchild ↦
    (hrange child hchild).imp (fun hbefore ↦ by omega) fun hbehind ↦ by omega⟩
  · rw [← heq, Extent.stop]
    exact dvd_add hstartDvd ⟨cyls, hcyls⟩
  · have hne : a ≠ 0 := fun hzero ↦ by
      have := hfirst hzero
      omega
    obtain ⟨r, hr, hra⟩ := (h.apart.eq_or_exists_of_mem_pairs h.within hpair hab).1.resolve_left hne
    obtain ⟨child, hchild, rfl⟩ := List.mem_map.mp hr
    have hra : child.physical.extent.stop = a := hra
    have hbounds := (Sweep.bounds_of_mem_pairs h.within hpair).1
    exact ⟨child, hchild, by omega, by omega⟩

theorem roundedPartition_of_ok {after : Extent} (hv : v.isPrimary) (haction : v.action = .create)
    (hadjusted : cylinderBoundaryAdjustment floats (.disk disk) .partition .create v.extent =
      .ok after) :
    roundedPartition floats disk v = .ok { v with extent := after } := by
  rw [← haction] at hadjusted
  rw [roundedPartition, if_pos hv, hadjusted]
  rfl

/-- A primary partition that fills a hole on cylinders is left where it is. -/
theorem roundedPartition_of_dvd {hole : Extent} (hv : v.isPrimary) (haction : v.action = .create)
    (hextent : v.extent = hole) (hstartDvd : (disk.cylsize : ℤ) ∣ hole.startSector)
    (hcylsize : (disk.cylsize : ℤ) ≤ hole.startSector)
    (hsizeDvd : (disk.cylsize : ℤ) ∣ hole.size.sectors)
    (hstop : hole.stop ≤ disk.devSize.sectors) : roundedPartition floats disk v = .ok v := by
  have hc := disk.natCast_cylsize_pos
  obtain ⟨cyls, hcyls⟩ := hsizeDvd
  have hadjusted : cylinderBoundaryAdjustment floats (.disk disk) .partition .create v.extent =
      .ok v.extent := by
    rw [hextent]
    refine adjustment_of_aligned hstartDvd (by omega) (hcyls.trans (mul_comm _ _)) fun _ ↦ ?_
    have hmul : (1 + cyls) * (disk.cylsize : ℤ) ≤ disk.devSize.sectors := by
      rw [Extent.stop] at hstop
      linarith [mul_comm cyls (disk.cylsize : ℤ)]
    have hle := (Int.le_ediv_iff_mul_le hc).mpr hmul
    show cyls ≤ _ - 1
    exact le_sub_iff_add_le'.mpr hle
  exact roundedPartition_of_ok hv haction hadjusted

/-- A hole of a disk with children is real and can be filled. -/
theorem hole_of_holesOf (h : LaidOut disk children) (hfilled : Filled disk children)
    (hholes : HolesOf disk.cylsize (Sweep.usage 0 (disk.devSize.sectors : ℤ)
      (usedRanges children)) holes)
    {hole : Extent} (hmem : hole ∈ holes) : Hole floats disk children hole := by
  have hc := disk.natCast_cylsize_pos
  obtain ⟨hstartDvd, hcylsize, ⟨cyls, hcyls⟩, hsize, p, hp, hsub, -⟩ := hholes.each hole hmem
  have hfree : ∀ child ∈ live children, ¬ child.IsBackup → Disjoint hole.sectors child.sectors :=
    fun child hchild hbackup ↦ (h.disjoint_of_mem_pairs hp hchild hbackup).mono_left hsub
  have hbounds := Sweep.bounds_of_mem_pairs h.within hp
  have hlt : hole.startSector < hole.stop := by
    rw [Extent.stop]
    omega
  have hstop : hole.stop ≤ disk.devSize.sectors :=
    ((Set.Ico_subset_Ico_iff hlt).mp hsub).2.trans hbounds.2.2
  have honDisk : hole.sectors ⊆ Set.Ico 0 (disk.devSize.sectors : ℤ) :=
    Set.Ico_subset_Ico (by omega) hstop
  refine ⟨hstartDvd, Int.natCast_dvd_natCast.mp ⟨cyls, hcyls⟩, honDisk, hfree,
    fun v hv haction hextent ↦ ?_⟩
  have hrounded : roundedPartition floats disk v = .ok v :=
    roundedPartition_of_dvd hv haction hextent hstartDvd hcylsize ⟨cyls, hcyls⟩ hstop
  refine taken_of_forall hrounded ?_ (fun others hothers ↦
    ⟨v, ?_, fun p hp ↦ ?_⟩) fun error herror ↦ ?_
  · rw [OutOfBounds, not_not, hextent]
    omega
  · have hlogical : ¬ v.isLogical := fun hlogical ↦
      Bool.false_ne_true ((isLogical_iff.mp hlogical).symm.trans hv)
    rw [movedLogical, if_neg hlogical]
  · have hothersEq : others = partitionsOf children := by
      rcases asPartitions_cases children with hcase | hcase
      · exact Except.ok.inj (hothers.symm.trans hcase)
      · cases hothers.symm.trans hcase
    refine not_clashes_of_isPrimary hv (by rw [hextent]; omega) fun hprimary hlive ↦ ?_
    have hpLive : p ∈ partitionsOf (live children) :=
      mem_partitionsOf_live.mpr ⟨hothersEq ▸ hp, hlive⟩
    rw [hextent]
    exact ⟨hfree (.partition p) (mem_partitionsOf.mp hpLive) id, fun hempty ↦
      h.apart_of_empty hholes hmem hpLive hprimary (hfilled.solid p hpLive hprimary hempty)⟩
  · rcases asPartitions_cases children with hcase | hcase
    · cases herror.symm.trans hcase
    · exact (Except.error.inj (herror.symm.trans hcase))

/-- The hole of a disk without children. -/
theorem hole_of_nil (hpos : 0 < disk.devSize.sectors) (hdvd : disk.cylsize ∣ disk.devSize.sectors) :
    Hole floats disk [] ⟨0, disk.devSize⟩ := by
  have hc := disk.natCast_cylsize_pos
  have hle : (disk.cylsize : ℤ) ≤ disk.devSize.sectors := Int.ofNat_le.mpr (Nat.le_of_dvd hpos hdvd)
  have hstop : Extent.stop ⟨0, disk.devSize⟩ = disk.devSize.sectors := zero_add _
  refine ⟨dvd_zero _, hdvd, ?_, fun child hchild ↦ absurd hchild List.not_mem_nil,
    fun v hv haction hextent ↦ ?_⟩
  · rw [Extent.sectors, hstop]
  have hfirst : firstCyl disk.cylsize (⟨0, disk.devSize⟩ : Extent) = 1 := by
    rw [firstCyl_of_emod_eq hc (Int.zero_emod _)]
    exact max_eq_left ((Int.zero_ediv _).trans_le zero_le_one)
  obtain ⟨after, hafter, hafterStart, -⟩ :=
    (adjustment_spec floats (.disk disk) .partition (v := ⟨0, disk.devSize⟩)
    le_rfl).1 (by rw [hstop]; show firstCyl disk.cylsize _ * _ ≤ _; rw [hfirst, one_mul]; exact hle)
    fun _ ↦ (Int.le_ediv_iff_mul_le hc).mpr (by show 1 * _ ≤ _; rw [one_mul]; exact hle)
  have hstart : after.startSector = disk.cylsize := by
    rw [hafterStart]
    show firstCyl disk.cylsize _ * (disk.cylsize : ℤ) = _
    rw [hfirst, one_mul]
  refine taken_of_forall (roundedPartition_of_ok hv haction (hextent ▸ hafter)) ?_
    (fun others hothers ↦ ?_)
    (by intro error herror; cases herror)
  · rw [OutOfBounds, not_not]
    show 0 ≤ after.startSector ∧ after.startSector ≤ _
    omega
  · cases hothers
    have hlogical : ¬ v.isLogical := fun hlogical ↦
      Bool.false_ne_true ((isLogical_iff.mp hlogical).symm.trans hv)
    exact ⟨_, if_neg hlogical, fun p hp ↦ absurd hp List.not_mem_nil⟩

theorem getGaps_live (hne : live children ≠ []) :
    getGaps floats disk (live children) = getGaps floats disk children := by
  have hchildren : children ≠ [] := fun hnil ↦ hne (by rw [hnil]; rfl)
  have hranges : usedRanges (live children) = usedRanges children := by
    rw [usedRanges, used_live, usedRanges]
  rw [getGaps, getGaps, if_neg (by simpa using hne), if_neg (by simpa using hchildren), hranges]

/-- The gaps of a disk are as they should be. -/
theorem reported_getGaps (h : LaidOut disk children) (hfilled : Filled disk children) :
    ∃ holes, Reported (getGaps floats disk) (Hole floats disk children) children holes := by
  by_cases hne : children = []
  · subst hne
    obtain ⟨hpos, hdvd⟩ := hfilled.whole rfl
    refine ⟨[⟨0, disk.devSize⟩], rfl, ?_, List.pairwise_singleton _ _, [⟨0, disk.devSize⟩], rfl, ?_⟩
    · intro hole hhole
      obtain rfl := List.mem_singleton.mp hhole
      exact hole_of_nil hpos hdvd
    · exact fun other hother sector hsector ↦ ⟨other, hother, hsector⟩
  · obtain ⟨holes, hgaps, hholes⟩ := getGaps_spec floats disk hne h.within
    refine ⟨holes, hgaps, fun hole hhole ↦ hole_of_holesOf h hfilled hholes hhole,
      hholes.disjoint, ?_⟩
    by_cases hlive : live children = []
    · rw [hlive]
      refine ⟨_, rfl, fun other hother sector hsector ↦ ?_⟩
      obtain rfl := List.mem_singleton.mp hother
      have hzero := (hfilled.remains hlive).resolve_left hne
      rw [Extent.sectors, Extent.stop, hzero, Set.mem_Ico] at hsector
      dsimp only at hsector
      omega
    · exact ⟨holes, (getGaps_live hlive).trans hgaps, fun other hother sector hsector ↦
        ⟨other, hother, hsector⟩⟩

/-! ### Logical partitions in holes -/

/-- The extended partition whose gaps are listed. -/
def foundExtended (children : List Child) : Option Partition :=
  (partitionsOf children).find? fun part ↦ part.isExtended ∧ part.action ≠ .delete

/-- All logical partitions. -/
def logicalsOf (children : List Child) : List Partition :=
  (partitionsOf children).filter Partition.isLogical

theorem getLogicalPartitionGaps_eq (floats : Floats) (children : List Child) :
    getLogicalPartitionGaps floats children =
      match foundExtended children with
      | none => .ok []
      | some extended =>
        if (logicalsOf children).isEmpty then .ok [extended.extent]
        else ((Sweep.pairs (logicalUsage extended (logicalsOf children))).filter fun p ↦
          p.2 - p.1 > logicalAdjustment).mapM (logicalHole floats) := by
  rfl

theorem foundExtended_live (children : List Child) :
    foundExtended (live children) = foundExtended children := by
  rw [foundExtended, foundExtended, partitionsOf_live, List.find?_filter]
  congr 1
  funext part
  rw [decide_eq_decide]
  simp only [decide_eq_true_eq]
  exact ⟨And.right, fun h ↦ ⟨h.2, h⟩⟩

/-- The one extended partition in use and the logical ones in it, none of which is to be deleted. -/
structure Extended (children : List Child) (extended : Partition) : Prop where
  mem : extended ∈ partitionsOf (live children)
  isExtended : extended.isExtended
  parts : asPartitions children = .ok (partitionsOf children)
  unique : ∀ p ∈ partitionsOf (live children), p.isExtended → p = extended
  kept : ∀ p ∈ partitionsOf children, p.isLogical → p.action ≠ .delete
  logical : ∀ p ∈ logicalsOf children, extended.extent.startSector + logicalAdjustment ≤
    p.extent.startSector ∧
    p.extent.stop ≤ extended.extent.stop
  spaced : (logicalsOf children).Pairwise Spaced

theorem logicalsOf_live (hkept : ∀ p ∈ partitionsOf children, p.isLogical → p.action ≠ .delete) :
    logicalsOf (live children) = logicalsOf children := by
  rw [logicalsOf, logicalsOf, partitionsOf_live, List.filter_filter]
  refine List.filter_congr fun p hp ↦ ?_
  by_cases hlogical : p.isLogical
  · rw [hlogical, Bool.true_and, decide_eq_true (hkept p hp hlogical)]
  · rw [Bool.eq_false_iff.mpr hlogical, Bool.false_and]

theorem extended_of_found (h : LaidOut disk children) (hplain : Plain children)
    {extended : Partition}
    (hfound : foundExtended children = some extended) : Extended children extended := by
  have hmem : extended ∈ partitionsOf children := List.mem_of_find?_eq_some hfound
  have htest := List.find?_some hfound
  rw [decide_eq_true_eq] at htest
  have hlive : extended ∈ partitionsOf (live children) := mem_partitionsOf_live.mpr ⟨hmem, htest.2⟩
  have hunique : ∀ p ∈ partitionsOf (live children), p.isExtended →
      p = extended := fun p hp hextended ↦
    h.extended p hp hextended extended hlive htest.1
  have hkept := hplain.logical extended hlive htest.1
  refine ⟨hlive, htest.1, ?_, hunique, hkept, fun p hp ↦ ?_, ?_⟩
  · refine asPartitions_of_forall (h.uniform.resolve_right fun hslices ↦ ?_)
    cases hslices _ (mem_partitionsOf.mp hmem)
  · obtain ⟨hp, hisLogical⟩ := List.mem_filter.mp hp
    obtain ⟨q, hq, hqExtended, hstart, hstop⟩ :=
      h.logical p (mem_partitionsOf_live.mpr ⟨hp, hkept p hp hisLogical⟩) hisLogical
    obtain rfl := hunique q hq hqExtended
    exact ⟨hstart, hstop⟩
  · rw [← logicalsOf_live hkept]
    refine (h.spaced.filter _).imp_of_mem fun hp hq hspaced ↦ ?_
    exact hspaced (List.mem_filter.mp hp).2 (List.mem_filter.mp hq).2

section Inside

variable {extended : Partition}

variable (floats) in
/-- Some extended partition is measured from, and the one in use where its first sectors are free.
-/
theorem Extended.exists_movedLogical (h : Extended children extended) (hplain : Plain children) :
    ∃ last, ((∀ q ∈ logicalsOf children,
        extended.extent.startSector + logicalAdjustment < q.extent.startSector) → last = extended) ∧
      ∀ v : Partition, v.isLogical → movedLogical floats (partitionsOf children) v =
        adjustedLogical floats last (logicalsOf children) v := by
  have hne : (partitionsOf children).filter Partition.isExtended ≠ [] :=
    List.ne_nil_of_mem (a := extended) (List.mem_filter.mpr ⟨(mem_partitionsOf_live.mp h.mem).1,
      h.isExtended⟩)
  have hlast := List.getLast?_eq_getLast_of_ne_nil hne
  refine ⟨((partitionsOf children).filter Partition.isExtended).getLast hne, fun hfree ↦ ?_,
    fun v hv ↦ ?_⟩
  · refine Option.some.inj
      (hlast.symm.trans (hplain.extended extended h.mem h.isExtended fun q hq hlogical ↦ ?_))
    exact hfree q (List.mem_filter.mpr ⟨hq, hlogical⟩)
  · have hlogicals : logicalList (partitionsOf children) = logicalsOf children := by
      refine List.filter_congr fun p hp ↦ ?_
      by_cases hlogical : p.isLogical
      · rw [hlogical]
        simpa using h.kept p hp hlogical
      · simp [hlogical]
    rw [movedLogical, if_pos hv, extendedPart, hlast, hlogicals]

theorem Extended.within (h : Extended children extended) : Sweep.Within extended.extent.startSector
    extended.extent.stop ((logicalsOf children).map fun part ↦ part.extent.range) where
  bounds := by
    rw [Extent.stop]
    omega
  ranges r hr := by
    obtain ⟨p, hp, rfl⟩ := List.mem_map.mp hr
    obtain ⟨hstart, hstop⟩ := h.logical p hp
    refine ⟨?_, ?_, hstop⟩
    · show _ ≤ p.extent.startSector
      have : (0 : ℤ) ≤ logicalAdjustment := by decide
      omega
    · show p.extent.startSector ≤ p.extent.startSector + _
      omega

theorem Extended.apart (h : Extended children extended) :
    Sweep.Apart ((logicalsOf children).map fun part ↦ part.extent.range) := by
  refine List.pairwise_map.mpr (h.spaced.imp fun {p q} hspaced ↦
    Set.disjoint_left.mpr fun x hx hy ↦ ?_)
  have hx : p.extent.startSector ≤ x ∧ x < p.extent.stop := hx
  have hy : q.extent.startSector ≤ x ∧ x < q.extent.stop := hy
  have : (0 : ℤ) ≤ logicalAdjustment := by decide
  rcases hspaced with hspaced | hspaced <;> omega

/-- The loop for the closest end finds zero or one of the ends, and none that is closer is left. -/
theorem closestEndpoint_spec (logicals : List Partition) (startSector : ℤ) :
    (closestEndpoint logicals startSector = 0 ∨
      ∃ p ∈ logicals, p.extent.stop = closestEndpoint logicals startSector ∧
      p.extent.stop < startSector) ∧
    ∀ p ∈ logicals, p.extent.stop < startSector →
    p.extent.stop ≤ closestEndpoint logicals startSector := by
  have hfold : ∀ (list : List Partition) (first : ℤ),
      let closest := list.foldl (fun closest logical ↦
        if logical.extent.stop < startSector ∧
          logical.extent.stop > closest then logical.extent.stop else closest) first
      (closest = first ∨ ∃ p ∈ list, p.extent.stop = closest ∧ p.extent.stop < startSector) ∧
        first ≤ closest ∧
        ∀ p ∈ list, p.extent.stop < startSector → p.extent.stop ≤ closest := by
    intro list
    induction list with
    | nil => exact fun first ↦ ⟨Or.inl rfl, le_rfl, fun p hp ↦ (nomatch hp)⟩
    | cons q rest ih =>
      intro first
      rw [List.foldl_cons]
      obtain ⟨hfound, hfirst, hrest⟩ :=
        ih (if q.extent.stop < startSector ∧ q.extent.stop > first then q.extent.stop
        else first)
      refine ⟨?_, ?_, List.forall_mem_cons.mpr ⟨fun hlt ↦ ?_, hrest⟩⟩
      · rcases hfound with hfound | ⟨p, hp, hstop⟩
        · rw [hfound]
          split_ifs with hq
          · exact Or.inr ⟨q, List.mem_cons_self, rfl, hq.1⟩
          · exact Or.inl rfl
        · exact Or.inr ⟨p, List.mem_cons_of_mem _ hp, hstop⟩
      · refine le_trans ?_ hfirst
        split_ifs with hq
        · exact hq.2.le
        · exact le_rfl
      · refine le_trans ?_ hfirst
        split_ifs with hq
        · exact le_rfl
        · exact not_lt.mp fun hgt ↦ hq ⟨hlt, hgt⟩
  obtain ⟨hfound, -, hle⟩ := hfold
    (logicals.insertionSort fun p q ↦ p.extent.startSector ≤ q.extent.startSector) 0
  refine ⟨hfound.imp_right fun ⟨p, hp, hstop⟩ ↦ ⟨p, (List.mem_insertionSort _).mp hp, hstop⟩,
    fun p hp hlt ↦ ?_⟩
  exact hle p ((List.mem_insertionSort _).mpr hp) hlt

/-- What a step between logical partitions with more than the offset in it is like. -/
theorem Extended.step_cases (h : Extended children extended) {a b : ℤ}
    (hp : (a, b) ∈ Sweep.pairs (logicalUsage extended (logicalsOf children)))
    (hlt : logicalAdjustment < b - a) :
    ((a = extended.extent.startSector ∨ ∃ p ∈ logicalsOf children, p.extent.stop = a) ∧
        (b = extended.extent.stop ∨ ∃ p ∈ logicalsOf children, p.extent.startSector = b)) ∧
      extended.extent.startSector ≤ a ∧ b ≤ extended.extent.stop ∧
      ∀ p ∈ logicalsOf children, p.extent.stop ≤ a ∨ b ≤ p.extent.startSector := by
  have hab : a < b := by
    have : (0 : ℤ) ≤ logicalAdjustment := by decide
    omega
  have hbounds := Sweep.bounds_of_mem_pairs h.within hp
  obtain ⟨hleft, hright⟩ := h.apart.eq_or_exists_of_mem_pairs h.within hp hab
  refine ⟨⟨hleft.imp_right ?_, hright.imp_right ?_⟩, hbounds.1, hbounds.2.2, fun p hpMem ↦ ?_⟩
  · rintro ⟨r, hr, hstop⟩
    obtain ⟨p, hpMem, rfl⟩ := List.mem_map.mp hr
    exact ⟨p, hpMem, hstop⟩
  · rintro ⟨r, hr, hstart⟩
    obtain ⟨p, hpMem, rfl⟩ := List.mem_map.mp hr
    exact ⟨p, hpMem, hstart⟩
  · have hrange := List.mem_map_of_mem (f := fun part : Partition ↦ part.extent.range) hpMem
    rcases Sweep.le_or_le_of_mem_pairs h.within hp
      (Sweep.mem_ends.mpr ⟨_, hrange, Or.inl rfl⟩) with hle | hle
    · refine Or.inl (not_lt.mp fun hgt ↦ ?_)
      exact Set.disjoint_left.mp (h.apart.disjoint_of_mem_pairs h.within hp hrange) ⟨le_rfl,
        hab⟩ ⟨hle, hgt⟩
    · exact Or.inr hle

/-- A logical partition that starts the offset after a step is not moved. -/
theorem Extended.not_moved (h : Extended children extended) (hplain : Plain children)
    (hzero : 0 ≤ extended.extent.startSector)
    {a b : ℤ} (hp : (a, b) ∈ Sweep.pairs (logicalUsage extended (logicalsOf children)))
    (hlt : logicalAdjustment < b - a) (hv : v.isLogical)
    (hstart : v.extent.startSector = a + logicalAdjustment) :
    movedLogical floats (partitionsOf children) v = .ok v := by
  obtain ⟨⟨hleft, -⟩, hge, -, hcases⟩ := h.step_cases hp hlt
  have hadjustment : (0 : ℤ) < logicalAdjustment := by decide
  have hsize : ∀ p : Partition, p.extent.startSector ≤ p.extent.stop := by
    intro p
    rw [Extent.stop]
    omega
  obtain ⟨hclosest, hmax⟩ := closestEndpoint_spec (logicalsOf children) v.extent.startSector
  obtain ⟨last, hlast, hmoved⟩ := h.exists_movedLogical floats hplain
  rw [hmoved v hv, adjustedLogical]
  refine if_neg fun hmove ↦ absurd hmove.1 (not_lt.mpr ?_)
  rcases hclosest with hclosest | ⟨p, hpMem, hstop, hbefore⟩
  · -- No logical partition ends before the start, so that the step is the first one.
    have hnone : ∀ p ∈ logicalsOf children, b ≤ p.extent.startSector := fun p hpMem ↦
      (hcases p hpMem).resolve_left fun hle ↦ by
        have hbound := hmax p hpMem (by omega)
        have hlogical := (h.logical p hpMem).1
        have hpSize := hsize p
        omega
    have ha : a = extended.extent.startSector := by
      refine hleft.resolve_right ?_
      rintro ⟨p, hpMem, hstop⟩
      have hpSize := hsize p
      have hpStart := hnone p hpMem
      omega
    rw [if_pos hclosest, hlast fun q hq ↦ by
      have hqStart := hnone q hq
      omega, hstart]
    omega
  · have hpStop : 0 < p.extent.stop := by
      have hlogical := (h.logical p hpMem).1
      have hpSize := hsize p
      omega
    rw [← hstop, if_neg (by omega), hstart]
    rcases hcases p hpMem with hle | hle
    · omega
    · have hpSize := hsize p
      omega

theorem Extended.mem_logicalsOf (h : Extended children extended) :
    p ∈ logicalsOf children ↔ p ∈ partitionsOf (live children) ∧ p.isLogical := by
  rw [← logicalsOf_live h.kept, logicalsOf, List.mem_filter]

/-- Two logical partitions are spaced. -/
theorem Extended.spaced_of_ne (h : Extended children extended) {p q : Partition}
    (hp : p ∈ logicalsOf children) (hq : q ∈ logicalsOf children) (hne : p ≠ q) : Spaced p q := by
  have : Std.Symm Spaced := ⟨fun _ _ hspaced ↦ hspaced.symm⟩
  exact h.spaced.forall hp hq hne

/-- If no gap is before a logical partition, all of them end before a step with more than the offset
in it. -/
theorem Extended.stop_le (h : Extended children extended) (hfilled : Filled disk children) {a b : ℤ}
    (hp : (a, b) ∈ Sweep.pairs (logicalUsage extended (logicalsOf children)))
    (hlt : logicalAdjustment < b - a) :
    ∀ p ∈ logicalsOf children, p.extent.stop ≤ a := by
  obtain ⟨⟨-, hright⟩, hge, -, hcases⟩ := h.step_cases hp hlt
  have hadjustment : (0 : ℤ) < logicalAdjustment := by decide
  have hsize : ∀ p : Partition, p.extent.startSector ≤ p.extent.stop := by
    intro p
    rw [Extent.stop]
    omega
  refine fun q hq ↦ (hcases q hq).resolve_right fun hafter ↦ ?_
  -- Some logical partition starts where the step ends, and what is near before it leaves no room
  -- for the step.
  have hfirst : ∃ r ∈ logicalsOf children, r.extent.startSector = b := by
    refine hright.elim (fun hend ↦ ⟨q, hq, ?_⟩) id
    have := (h.logical q hq).2
    have := hsize q
    omega
  obtain ⟨r, hr, hrStart⟩ := hfirst
  obtain ⟨hrMem, hrLogical⟩ := h.mem_logicalsOf.mp hr
  obtain ⟨p, hpMem, ⟨hpExtended, hnear⟩ | ⟨hpLogical, hne, hbefore, hnear⟩⟩ :=
    hfilled.before r hrMem hrLogical
  · obtain rfl := h.unique p hpMem hpExtended
    omega
  · have hpLogicals : p ∈ logicalsOf children := h.mem_logicalsOf.mpr ⟨hpMem, hpLogical⟩
    have hpSize := hsize p
    have hrSize := hsize r
    rcases hcases p hpLogicals with hle | hle
    · omega
    · rcases h.spaced_of_ne hpLogicals hr hne with hspaced | hspaced <;> omega

theorem Extended.onDisk (h : Extended children extended) (hlaid : LaidOut disk children) :
    0 ≤ extended.extent.startSector ∧ extended.extent.stop ≤ disk.devSize.sectors :=
  hlaid.onDisk (.partition extended) (mem_used_of_isPrimary h.mem
    (isPrimary_of_isExtended h.isExtended))

/-- A logical partition clashes with none if it is in the extended one and the others end before its
offset. -/
theorem Extended.not_clashes (h : Extended children extended)
    (hv : v.isLogical) (hstart : extended.extent.startSector ≤ v.extent.startSector)
    (hstop : v.extent.stop ≤ extended.extent.stop)
    (hbefore : ∀ p ∈ logicalsOf children, p.extent.stop + logicalAdjustment ≤
      v.extent.startSector) :
    ∀ p ∈ partitionsOf children, ¬ Clashes v p := by
  intro p hp hclash
  have hvStop : v.extent.startSector ≤ v.extent.stop := by
    rw [Extent.stop]
    omega
  rcases hclash with hleaves | hoverlaps
  · rw [leavesExtended, decide_eq_true_eq] at hleaves
    obtain ⟨-, hextended, hlive, hout⟩ := hleaves
    obtain rfl := h.unique p (mem_partitionsOf_live.mpr ⟨hp, hlive⟩) hextended
    rw [checkedEnd, checkedStart, if_pos (isPrimary_of_isExtended hextended),
      if_pos (isPrimary_of_isExtended hextended)] at hout
    rw [Extent.stop] at hstop hout
    rw [Extent.stop] at hstop
    omega
  · rw [overlapsPartition, decide_eq_true_eq] at hoverlaps
    obtain ⟨hkind, -, -, hover⟩ := hoverlaps
    have hpPrimary : p.isPrimary = false := hkind.symm.trans (isLogical_iff.mp hv)
    have hpLogical := hbefore p (List.mem_filter.mpr ⟨hp, isLogical_iff.mpr hpPrimary⟩)
    have hfalse : ¬ p.isPrimary := Bool.eq_false_iff.mp hpPrimary
    rw [checkedEnd, checkedStart, if_neg hfalse, if_neg hfalse, overlapping,
      decide_eq_true_eq] at hover
    rw [Extent.stop] at hpLogical hover hvStop
    have hadjustment : (0 : ℤ) < logicalAdjustment := by decide
    omega

/-- A hole after the last logical partition is real and can be filled. -/
theorem logicalHole_of_mem (hlaid : LaidOut disk children) (hplain : Plain children)
    (hfilled : Filled disk children) (h : Extended children extended)
    (hholes : LogicalHolesOf (logicalUsage extended (logicalsOf children)) holes) {hole : Extent}
    (hmem : hole ∈ holes) :
    LogicalHole floats disk children hole := by
  obtain ⟨⟨a, b⟩, hp, hlt, hstart, hstop⟩ := hholes.each hole hmem
  dsimp only at hlt hstart hstop
  obtain ⟨-, hge, hle, -⟩ := h.step_cases hp hlt
  obtain ⟨hzero, hend⟩ := h.onDisk hlaid
  have hadjustment : (0 : ℤ) < logicalAdjustment := by decide
  have hsub : hole.sectors ⊆ Set.Ico a b := Set.Ico_subset_Ico (by omega) (by omega)
  refine ⟨⟨extended, h.mem, h.isExtended, hsub.trans (Set.Ico_subset_Ico hge hle)⟩,
    fun p hpMem hpLogical ↦ ?_,
    fun v hv haction hextent ↦ ?_⟩
  · have hlogical := h.mem_logicalsOf.mpr ⟨hpMem, hpLogical⟩
    have hrange := List.mem_map_of_mem (f := fun part : Partition ↦ part.extent.range) hlogical
    exact (h.apart.disjoint_of_mem_pairs h.within hp hrange).mono_left hsub
  · have hrounded : roundedPartition floats disk v = .ok v :=
      if_neg (Bool.eq_false_iff.mp (isLogical_iff.mp hv))
    have hvStart : v.extent.startSector = a + logicalAdjustment := by rw [hextent, hstart]
    have hvStop : v.extent.stop = b - 1 := by rw [hextent, hstop]
    refine taken_of_forall hrounded ?_ (fun others hothers ↦ ?_) fun error herror ↦ ?_
    · rw [OutOfBounds, not_not, hvStart]
      omega
    · obtain rfl := Except.ok.inj (h.parts.symm.trans hothers)
      refine ⟨v, h.not_moved hplain hzero hp hlt hv hvStart,
        h.not_clashes hv (by omega) (by omega) ?_⟩
      intro p hpMem
      have := h.stop_le hfilled hp hlt p hpMem
      omega
    · cases h.parts.symm.trans herror

/-- The hole of an extended partition without logical ones. -/
theorem logicalHole_of_nil (hlaid : LaidOut disk children) (hplain : Plain children)
    (hfilled : Filled disk children)
    (h : Extended children extended) (hnil : logicalsOf children = []) :
    LogicalHole floats disk children extended.extent := by
  obtain ⟨hzero, hend⟩ := h.onDisk hlaid
  have hnone : ∀ p ∈ partitionsOf children, p.isLogical = false := fun p hp ↦
    Bool.eq_false_iff.mpr (List.filter_eq_nil_iff.mp hnil p hp)
  have hoffset := hfilled.offset hnone extended h.mem h.isExtended
  have hadjustment : (0 : ℤ) < logicalAdjustment := by decide
  refine ⟨⟨extended, h.mem, h.isExtended, subset_rfl⟩, fun p hpMem hpLogical ↦ ?_,
    fun v hv haction hextent ↦ ?_⟩
  · cases (hnone p (mem_partitionsOf_live.mp hpMem).1).symm.trans hpLogical
  · have hrounded : roundedPartition floats disk v = .ok v :=
      if_neg (Bool.eq_false_iff.mp (isLogical_iff.mp hv))
    refine taken_of_forall hrounded ?_ (fun others hothers ↦ ?_) fun error herror ↦ ?_
    · rw [OutOfBounds, not_not, hextent]
      rw [Extent.stop] at hend
      omega
    · obtain rfl := Except.ok.inj (h.parts.symm.trans hothers)
      have hnonneg : 0 ≤ (extended.extent.size.sectors : ℤ) - logicalAdjustment := by omega
      have hmoved : movedLogical floats (partitionsOf children) v = .ok { v with
          extent := ⟨extended.extent.startSector + logicalAdjustment,
            Size.secs ((extended.extent.size.sectors : ℤ) - logicalAdjustment).toNat⟩ } := by
        have hclosest : closestEndpoint (logicalsOf children) v.extent.startSector = 0 := by
          rw [hnil]
          rfl
        obtain ⟨last, hlast, hmoved⟩ := h.exists_movedLogical floats hplain
        rw [hmoved v hv, hlast (by simp [hnil]), adjustedLogical, hclosest, if_pos rfl,
          hextent, sub_self, if_pos ⟨hadjustment, haction⟩, ofSectors_eq, if_pos hnonneg]
        rfl
      refine ⟨_, hmoved, h.not_clashes hv ?_ ?_ fun p hp ↦ ?_⟩
      · show _ ≤ extended.extent.startSector + logicalAdjustment
        omega
      · rw [Extent.stop, Size.sectors_secs, Int.toNat_of_nonneg hnonneg, Extent.stop]
        dsimp only
        omega
      · rw [hnil] at hp
        cases hp
    · cases h.parts.symm.trans herror

/-- The gaps of the extended partition are as they should be. -/
theorem reported_getLogicalPartitionGaps (hlaid : LaidOut disk children) (hplain : Plain children)
    (hfilled : Filled disk children) :
    ∃ holes, Reported (getLogicalPartitionGaps floats)
    (LogicalHole floats disk children) children holes := by
  suffices hgaps : ∃ holes, getLogicalPartitionGaps floats children = .ok holes ∧
      getLogicalPartitionGaps floats (live children) = .ok holes ∧
      (∀ hole ∈ holes, LogicalHole floats disk children hole) ∧
      holes.Pairwise fun a b ↦ Disjoint a.sectors b.sectors by
    obtain ⟨holes, hgaps, hlive, heach, hdisjoint⟩ := hgaps
    exact ⟨holes, hgaps, heach, hdisjoint, holes, hlive, fun other hother sector hsector ↦
      ⟨other, hother, hsector⟩⟩
  rw [getLogicalPartitionGaps_eq, getLogicalPartitionGaps_eq, foundExtended_live]
  cases hfound : foundExtended children with
  | none => exact ⟨[], rfl, rfl, fun hole hhole ↦ (nomatch hhole), List.Pairwise.nil⟩
  | some extended =>
    have h := extended_of_found hlaid hplain hfound
    dsimp only
    rw [logicalsOf_live h.kept]
    by_cases hnil : logicalsOf children = []
    · rw [if_pos (by rw [hnil]; rfl)]
      refine ⟨[extended.extent], rfl, rfl, fun hole hhole ↦ ?_, List.pairwise_singleton _ _⟩
      obtain rfl := List.mem_singleton.mp hhole
      exact logicalHole_of_nil hlaid hplain hfilled h hnil
    · rw [if_neg (by simpa using hnil)]
      obtain ⟨holes, hgaps, hholes⟩ := logicalHoles_spec floats h.within.sorted
      exact ⟨holes, hgaps, hgaps, fun hole hhole ↦
        logicalHole_of_mem hlaid hplain hfilled h hholes hhole, hholes.disjoint⟩

end Inside

/-- On the disks that are meant, where no deleted partition of the kinds in question is looked at,
the gaps are real and usable if nothing is to be found fault with. -/
theorem gaps_usable (hlaid : LaidOut disk children) (hplain : Plain children)
    (hfilled : Filled disk children) :
    GapsUsable floats disk children :=
  ⟨reported_getGaps hlaid hfilled, reported_getLogicalPartitionGaps hlaid hplain hfilled⟩

/-! ### The disks on which the gaps are not usable -/

/-- A partition for a hole. -/
def filler (number : ℤ) (hole : Extent) : Partition where
  name := ⟨.number number, number, RawName.int_number number⟩
  action := .create
  extent := hole
  inZpool := none
  inVdev := none
  partType := some 191
  bootid := 0
  isLinuxSwap := false
  slices := []

theorem whole_of_usable (h : Hole floats disk [] ⟨0, disk.devSize⟩) :
    0 < disk.devSize.sectors ∧ disk.cylsize ∣ disk.devSize.sectors := by
  refine ⟨Nat.pos_of_ne_zero fun hzero ↦ ?_, h.size_dvd⟩
  have htaken := h.taken (filler 1 ⟨0, disk.devSize⟩) rfl rfl rfl
  have hstop : Extent.stop ⟨0, disk.devSize⟩ = 0 := by
    rw [Extent.stop, hzero]
    rfl
  have hc := disk.natCast_cylsize_pos
  have herror := (adjustment_spec floats (.disk disk) .partition (v := ⟨0, disk.devSize⟩) le_rfl).2
      fun hboth ↦ by
    have hle := hboth.1
    rw [hstop] at hle
    have hpos : 0 < firstCyl disk.cylsize ⟨0, disk.devSize⟩ * (disk.cylsize : ℤ) :=
      mul_pos (zero_lt_one.trans_le (le_max_left _ _)) hc
    exact absurd hpos (not_lt.mpr hle)
  refine (htaken.inv (show asPartitions [] = .ok [] from rfl)).1 ?_
  show Except.map _ (cylinderBoundaryAdjustment floats (.disk disk) .partition .create ⟨0,
    disk.devSize⟩) = _
  rw [herror]
  rfl

theorem exists_extended (hlaid : LaidOut disk children) (hplain : Plain children)
    (hp : p ∈ partitionsOf (live children)) (hextended : p.isExtended) :
    foundExtended children = some p ∧ Extended children p := by
  obtain ⟨hmem, hlive⟩ := mem_partitionsOf_live.mp hp
  rcases hfound : foundExtended children with - | extended
  · have hnone := List.find?_eq_none.mp hfound p hmem
    rw [decide_eq_true_eq] at hnone
    exact (hnone ⟨hextended, hlive⟩).elim
  · have h := extended_of_found hlaid hplain hfound
    obtain rfl := h.unique p hp hextended
    exact ⟨rfl, h⟩

theorem roundedPartition_filler (hole : Extent) :
    roundedPartition floats disk (filler 5 hole) = .ok (filler 5 hole) :=
  rfl

/-- A hole that is the whole of an extended partition has the size of the offset. -/
theorem offset_of_usable {extended : Partition} (h : Extended children extended)
    (hplain : Plain children)
    (hnil : logicalsOf children = []) (hhole : LogicalHole floats disk children extended.extent) :
    logicalAdjustment ≤ extended.extent.size.sectors := by
  by_contra hlt
  have htaken := hhole.taken (filler 5 extended.extent) rfl rfl rfl
  have hadjustment : (0 : ℤ) < logicalAdjustment := by decide
  refine ((htaken.inv h.parts).2 _ (roundedPartition_filler _)).1 ?_
  have hclosest : closestEndpoint (logicalsOf children)
      (filler 5 extended.extent).extent.startSector = 0 := by
    rw [hnil]
    rfl
  obtain ⟨last, hlast, hmoved⟩ := h.exists_movedLogical floats hplain
  rw [hmoved _ rfl, hlast (by simp [hnil]), adjustedLogical, hclosest, if_pos rfl]
  rw [if_pos ⟨by show extended.extent.startSector - _ < _; omega, rfl⟩, ofSectors_eq]
  rw [if_neg (by show ¬ 0 ≤ (extended.extent.size.sectors : ℤ) - _; omega)]
  rfl

/-- A hole before a logical partition reaches into its offset. -/
theorem clashes_before {q v : Partition} (hq : q.isLogical) (hqAction : q.action ≠ .delete)
    (hv : v.isLogical)
    (hvAction : v.action = .create) (hstop : v.extent.stop = q.extent.startSector - 1)
    (hsize : v.extent.startSector ≤ v.extent.stop) : Clashes v q := by
  refine Or.inr ?_
  have hfalse : ¬ q.isPrimary := Bool.eq_false_iff.mp (isLogical_iff.mp hq)
  have hcreate : v.action ≠ .delete := by
    rw [hvAction]
    decide
  rw [overlapsPartition, decide_eq_true_eq, checkedEnd, checkedStart, if_neg hfalse, if_neg hfalse,
    overlapping, decide_eq_true_eq]
  refine ⟨(isLogical_iff.mp hv).trans (isLogical_iff.mp hq).symm, hcreate, hqAction, ?_⟩
  unfold logicalAdjustment
  omega

/-- No gap is before a logical partition if the holes can be filled. -/
theorem before_of_usable (hlaid : LaidOut disk children) (hplain : Plain children)
    {extended q : Partition} (h : Extended children extended)
    (hholes : LogicalHolesOf (logicalUsage extended (logicalsOf children)) holes)
    (husable : ∀ hole ∈ holes, LogicalHole floats disk children hole)
    (hq : q ∈ logicalsOf children) :
    ∃ p ∈ partitionsOf (live children),
      p.isExtended ∧ q.extent.startSector ≤ p.extent.startSector + logicalAdjustment ∨
      p.isLogical ∧ p ≠ q ∧ p.extent.stop ≤ q.extent.startSector ∧
        q.extent.startSector ≤ p.extent.stop + logicalAdjustment := by
  by_contra hnone
  have hadjustment : (0 : ℤ) < logicalAdjustment := by decide
  have hsize : ∀ p : Partition, p.extent.startSector ≤ p.extent.stop := by
    intro p
    rw [Extent.stop]
    omega
  obtain ⟨hqMem, hqLogical⟩ := List.mem_filter.mp hq
  obtain ⟨hqStart, hqStop⟩ := h.logical q hq
  -- The sector before the partition is in no logical one, so it is in a step, which ends where the
  -- partition starts.
  have hfree : ∀ r ∈ (logicalsOf children).map fun part ↦ part.extent.range,
      q.extent.startSector - 1 ∉ Set.Ico r.1 r.2 := by
    intro r hr hmem
    obtain ⟨p, hp, rfl⟩ := List.mem_map.mp hr
    have hp1 : p.extent.startSector ≤ q.extent.startSector - 1 := hmem.1
    have hp2 : q.extent.startSector - 1 < p.extent.stop := hmem.2
    have hne : p ≠ q := by
      rintro rfl
      omega
    have := hsize q
    rcases h.spaced_of_ne hp hq hne with hspaced | hspaced <;> omega
  have := hsize q
  obtain ⟨a, b, hpair, ha, hb⟩ :=
    (h.apart.exists_mem_pairs_iff h.within (y := q.extent.startSector - 1)
    (by omega) (by omega)).mpr hfree
  have hqEnds : q.extent.startSector ∈ Sweep.ends ((logicalsOf children).map fun part ↦
      part.extent.range) :=
    Sweep.mem_ends.mpr ⟨_, List.mem_map_of_mem hq, Or.inl rfl⟩
  have hbEq : b = q.extent.startSector := by
    rcases Sweep.le_or_le_of_mem_pairs h.within hpair hqEnds with hle | hle <;> omega
  have hlt : logicalAdjustment < b - a := by
    rcases (h.apart.eq_or_exists_of_mem_pairs h.within hpair (by omega)).1 with hlo | ⟨r, hr, hstop⟩
    · by_contra hle
      exact hnone ⟨extended, h.mem, Or.inl ⟨h.isExtended, by omega⟩⟩
    · obtain ⟨p, hp, rfl⟩ := List.mem_map.mp hr
      obtain ⟨hpMem, hpLogical⟩ := h.mem_logicalsOf.mp hp
      have hpStop : p.extent.stop = a := hstop
      have hne : p ≠ q := by
        rintro rfl
        omega
      by_contra hle
      exact hnone ⟨p, hpMem, Or.inr ⟨hpLogical, hne, by omega, by omega⟩⟩
  obtain ⟨hole, hhole, hstart, hstop⟩ := hholes.all (a, b) hpair hlt
  dsimp only at hstart hstop
  have htaken := (husable hole hhole).taken (filler 5 hole) rfl rfl rfl
  have hmoved : movedLogical floats (partitionsOf children) (filler 5 hole) = .ok (filler 5 hole) :=
    h.not_moved hplain (h.onDisk hlaid).1 hpair hlt rfl hstart
  refine ((htaken.inv h.parts).2 _ (roundedPartition_filler _)).2 _ hmoved q hqMem ?_
  refine clashes_before hqLogical (h.kept q hqMem hqLogical) rfl rfl ?_ ?_
  · exact hstop.trans (by omega)
  · show hole.startSector ≤ hole.stop
    omega

theorem ne_nil_of_mem_live (h : p ∈ partitionsOf (live children)) : children ≠ [] := by
  rintro rfl
  cases h

/-- An empty primary partition does not end a gap if the holes can be filled: it clashes with what
fills that one. -/
theorem not_endsGap_of_usable (hlaid : LaidOut disk children)
    (hholes : HolesOf disk.cylsize (Sweep.usage 0 (disk.devSize.sectors : ℤ)
      (usedRanges children)) holes)
    (husable : ∀ hole ∈ holes, Hole floats disk children hole)
    (hp : p ∈ partitionsOf (live children))
    (hprimary : p.isPrimary) (hempty : p.extent.size.sectors = 0) :
    ¬ EndsGap disk children p.extent.startSector := by
  rintro ⟨hdvd, ⟨first, hfirst, hfirstPos, hfirstFar⟩, hapart⟩
  have hc := disk.natCast_cylsize_pos
  have hused := mem_used_of_isPrimary hp hprimary
  have hsize : ∀ child : Child, child.physical.extent.startSector ≤ child.physical.extent.stop := by
    intro child
    rw [Extent.stop]
    omega
  obtain ⟨hpStart, hpStop⟩ : 0 ≤ p.extent.startSector ∧ p.extent.stop ≤ disk.devSize.sectors :=
    hlaid.onDisk _ hused
  have hpEnd : p.extent.stop = p.extent.startSector := by
    rw [Extent.stop, hempty]
    omega
  -- The sector before the partition is free, so that a step ends where the partition is.
  have hfree : ∀ r ∈ usedRanges children, p.extent.startSector - 1 ∉ Set.Ico r.1 r.2 := by
    intro r hr hmem
    obtain ⟨child, hchild, rfl⟩ := List.mem_map.mp hr
    have hstart : child.physical.extent.startSector ≤ p.extent.startSector - 1 := hmem.1
    have hstop : p.extent.startSector - 1 < child.physical.extent.stop := hmem.2
    rcases hapart child hchild with h | h <;> omega
  obtain ⟨a, b, hpair, ha, hb⟩ := (hlaid.apart.exists_mem_pairs_iff hlaid.within
    (y := p.extent.startSector - 1) (by omega) (by omega)).mpr hfree
  have hends : ∀ child ∈ used children, ∀ x, x = child.physical.extent.startSector ∨
      x = child.physical.extent.stop →
      x ≤ a ∨ b ≤ x := fun child hchild x hx ↦
    Sweep.le_or_le_of_mem_pairs hlaid.within hpair
      (Sweep.mem_ends.mpr ⟨_, List.mem_map_of_mem hchild, hx⟩)
  have hbEq : b = p.extent.startSector := by
    have hself : p.extent.startSector ≤ a ∨ b ≤ p.extent.startSector := hends _ hused _ (Or.inl rfl)
    omega
  have hfar : 0 < a ∧ a + 2 * (disk.cylsize : ℤ) < b := by
    have hstop := hends first hfirst _ (Or.inr rfl)
    refine ⟨by omega, ?_⟩
    obtain ⟨r, hr, hra⟩ :=
      (hlaid.apart.eq_or_exists_of_mem_pairs hlaid.within hpair (by omega)).1.resolve_left
      (by omega : a ≠ 0)
    obtain ⟨child, hchild, rfl⟩ := List.mem_map.mp hr
    have hra : child.physical.extent.stop = a := hra
    have hchildSize := hsize child
    rcases hapart child hchild with h | h <;> omega
  obtain ⟨hole, hhole, hstop⟩ := hholes.all (a, b) hpair hfar.1 (hbEq ▸ hdvd) hfar.2
  dsimp only at hstop
  obtain ⟨hstartDvd, hcylsize, hsizeDvd, hholeSize, -⟩ := hholes.each hole hhole
  have htaken := (husable hole hhole).taken (filler 1 hole) rfl rfl rfl
  have hparts : asPartitions children = .ok (partitionsOf children) :=
    asPartitions_of_forall (hlaid.uniform.resolve_right fun hslices ↦ by
      cases hslices _ (mem_partitionsOf.mp (mem_partitionsOf_live.mp hp).1))
  have hrounded : roundedPartition floats disk (filler 1 hole) = .ok (filler 1 hole) :=
    roundedPartition_of_dvd rfl rfl rfl hstartDvd hcylsize hsizeDvd (show hole.stop ≤ _ by omega)
  refine ((htaken.inv hparts).2 _ hrounded).2 _ rfl p (mem_partitionsOf_live.mp hp).1 (Or.inr ?_)
  rw [overlapsPartition, decide_eq_true_eq, checkedEnd, checkedStart, if_pos hprimary,
    if_pos hprimary, hempty, overlapping, decide_eq_true_eq]
  refine ⟨hprimary.symm, ?_, (mem_partitionsOf_live.mp hp).2, ?_⟩
  · intro h
    cases h
  show (_ ≤ hole.startSector ∧ _ ∨ _ ≤ hole.stop - 1 ∧ _) ∨
    hole.startSector ≤ _ ∧ _ ≤ hole.stop - 1 ∨
    hole.startSector ≤ _ ∧ _ ≤ hole.stop - 1
  have hholeStop : hole.stop = hole.startSector + hole.size.sectors := rfl
  omega

/-- If the gaps are real and usable, nothing is to be found fault with. -/
theorem filled_of_usable (hlaid : LaidOut disk children) (hplain : Plain children)
    (husable : GapsUsable floats disk children) : Filled disk children := by
  obtain ⟨⟨holes, hgaps⟩, logicalHoles, hlogicalGaps⟩ := husable
  have hlogicalEq := hlogicalGaps.gaps_eq
  rw [getLogicalPartitionGaps_eq] at hlogicalEq
  refine ⟨?_, fun hlive ↦ ?_, fun p hp hprimary hempty hends ↦ ?_, fun hnone p hp hextended ↦ ?_,
    fun q hq hlogical ↦ ?_⟩
  · rintro rfl
    obtain rfl : [⟨0, disk.devSize⟩] = holes := Except.ok.inj hgaps.gaps_eq
    exact whole_of_usable (hgaps.each _ List.mem_cons_self)
  · by_contra hnot
    obtain ⟨hne, hzero⟩ := not_or.mp hnot
    obtain ⟨others, hothers, hkept⟩ := hgaps.kept
    rw [hlive] at hothers
    obtain rfl : [⟨0, disk.devSize⟩] = others := Except.ok.inj hothers
    have hsector : (0 : ℤ) ∈ Extent.sectors ⟨0, disk.devSize⟩ := by
      rw [Extent.sectors, Extent.stop, Set.mem_Ico]
      dsimp only
      omega
    obtain ⟨hole, hhole, hmem⟩ := hkept _ List.mem_cons_self 0 hsector
    obtain ⟨found, hfound, hholes⟩ := getGaps_spec floats disk hne hlaid.within
    obtain rfl : found = holes := Except.ok.inj (hfound.symm.trans hgaps.gaps_eq)
    have hcylsize := (hholes.each hole hhole).2.1
    have hc := disk.natCast_cylsize_pos
    have := hmem.1
    omega
  · obtain ⟨found, hfound, hholes⟩ := getGaps_spec floats disk (ne_nil_of_mem_live hp) hlaid.within
    obtain rfl : found = holes := Except.ok.inj (hfound.symm.trans hgaps.gaps_eq)
    exact not_endsGap_of_usable hlaid hholes hgaps.each hp hprimary hempty hends
  · obtain ⟨hfound, h⟩ := exists_extended hlaid hplain hp hextended
    have hnil : logicalsOf children = [] :=
      List.filter_eq_nil_iff.mpr fun q hq ↦ Bool.eq_false_iff.mp (hnone q hq)
    rw [hfound] at hlogicalEq
    dsimp only at hlogicalEq
    rw [if_pos (by rw [hnil]; rfl)] at hlogicalEq
    obtain rfl : [p.extent] = logicalHoles := Except.ok.inj hlogicalEq
    exact offset_of_usable h hplain hnil (hlogicalGaps.each _ List.mem_cons_self)
  · obtain ⟨extended, hextendedMem, hextended, -⟩ := hlaid.logical q hq hlogical
    obtain ⟨hfound, h⟩ := exists_extended hlaid hplain hextendedMem hextended
    have hqMem : q ∈ logicalsOf children := h.mem_logicalsOf.mpr ⟨hq, hlogical⟩
    rw [hfound] at hlogicalEq
    dsimp only at hlogicalEq
    rw [if_neg (by simpa using List.ne_nil_of_mem hqMem)] at hlogicalEq
    obtain ⟨found, hfoundHoles, hholes⟩ := logicalHoles_spec floats h.within.sorted
    obtain rfl : found = logicalHoles := Except.ok.inj (hfoundHoles.symm.trans hlogicalEq)
    exact before_of_usable hlaid hplain h hholes hlogicalGaps.each hqMem

/-- On the disks that are meant, the gaps are real and usable if no deleted logical or extended
partition is looked at and nothing is to be found fault with. Where no such partition is looked at,
they are so on no other disks. -/
theorem gaps_usable_iff (floats : Floats) (disk : Disk) (children : List Child)
    (hlaid : LaidOut disk children) :
    (Plain children ∧ Filled disk children → GapsUsable floats disk children) ∧
      (Plain children → (GapsUsable floats disk children ↔ Filled disk children)) :=
  ⟨fun h ↦ gaps_usable hlaid h.1 h.2, fun hplain ↦
    ⟨filled_of_usable hlaid hplain, gaps_usable hlaid hplain⟩⟩

/-! ### A disk of ten cylinders of a hundred sectors -/

/-- Ten cylinders of a hundred sectors. -/
def largeCylinders : Disk :=
  { tenCylinders with cylsize := 100, cylsize_pos := by decide, devSize := Size.secs 1000 }

/-- An extended partition on all but the first and the last cylinder. -/
def extendedSample : Partition :=
  { filler 1 ⟨100, Size.secs 800⟩ with partType := some 5 }

/-- The extended partition with a logical one at a place in it. -/
def withLogical (startSector : ℤ) : List Child :=
  [.partition extendedSample, .partition (filler 5 ⟨startSector, Size.secs 100⟩)]

theorem laidOut_withLogical (startSector : ℤ) (hstart : 163 ≤ startSector)
    (hstop : startSector ≤ 800) :
    LaidOut largeCylinders (withLogical startSector) := by
  have hparts : partitionsOf (live (withLogical startSector)) =
      [extendedSample, filler 5 ⟨startSector, Size.secs 100⟩] := rfl
  have hused : used (withLogical startSector) = [.partition extendedSample] := rfl
  have hextended : ∀ p ∈ partitionsOf (live (withLogical startSector)), p.isExtended →
      p = extendedSample := by
    intro p hp hp'
    rw [hparts, List.mem_pair] at hp
    exact hp.resolve_right fun h ↦ by
      rw [h] at hp'
      exact absurd hp' Bool.false_ne_true
  refine ⟨Or.inl fun child hchild ↦ ?_, ?_, fun child hchild ↦ ?_, fun p hp hp' q hq hq' ↦ ?_,
    fun p hp hp' ↦ ?_, ?_⟩
  · rcases List.mem_pair.mp hchild with rfl | rfl
    · rfl
    · rfl
  · rw [usedRanges, hused]
    exact List.pairwise_singleton _ _
  · rw [hused, List.mem_singleton] at hchild
    rw [hchild]
    decide
  · rw [hextended p hp hp', hextended q hq hq']
  · rw [hparts, List.mem_pair] at hp
    obtain rfl := hp.resolve_left fun h ↦ by
      rw [h] at hp'
      exact absurd hp' Bool.false_ne_true
    refine ⟨extendedSample, List.mem_cons_self, rfl, ?_, ?_⟩
    · exact hstart
    · have hsize : (Size.secs 100).sectors = 100 := by decide
      have hend : extendedSample.extent.stop = 900 := by decide
      rw [hend, Extent.stop]
      dsimp only [filler]
      rw [hsize]
      omega
  · rw [hparts]
    refine List.pairwise_pair.mpr fun h ↦ ?_
    exact absurd h Bool.false_ne_true

theorem gaps_usable_iff_sample : GapsUsable noFloats largeCylinders (withLogical 163) := by
  refine (gaps_usable_iff noFloats largeCylinders (withLogical 163)
    (laidOut_withLogical 163 (by decide) (by decide))).1
    ⟨⟨?_, ?_⟩, ?_, ?_, ?_, ?_, ?_⟩
  all_goals decide

/-- A hole that cannot be filled makes the gaps unusable. -/
theorem not_gapsUsable_of_clash {floats : Floats} {disk : Disk} {children : List Child}
    {result : Except TargetError Unit} {s : Shadow} {error : ShadowError}
    (hgaps : getLogicalPartitionGaps floats children = .ok holes) (hmem : v.extent ∈ holes)
    (hlogical : v.isLogical) (haction : v.action = .create)
    (hexec : exec (insert floats (.disk disk) true 0 (.partition v)) ⟨children, []⟩ = (result, s))
    (herror : error ∈ s.errors) (hclash : error.IsClash) : ¬ GapsUsable floats disk children := by
  rintro ⟨-, holes', h⟩
  obtain rfl : holes = holes' := Except.ok.inj (hgaps.symm.trans h.gaps_eq)
  exact ((h.each _ hmem).taken v hlogical haction rfl [] 0 result s hexec).2 error herror hclash

/-- The extended partition with a logical one that is to be deleted. -/
def withDeleted : List Child :=
  [.partition extendedSample, .partition { filler 5 ⟨300, Size.secs 100⟩ with action := .delete }]

theorem laidOut_withDeleted : LaidOut largeCylinders withDeleted where
  uniform := Or.inl fun child hchild ↦ by
    rcases List.mem_pair.mp hchild with rfl | rfl
    · rfl
    · rfl
  apart := List.pairwise_singleton _ _
  onDisk := fun child hchild ↦ by
    obtain rfl : child = .partition extendedSample := List.mem_singleton.mp hchild
    decide
  extended := fun p hp _ q hq _ ↦ (List.mem_singleton.mp hp).trans (List.mem_singleton.mp hq).symm
  logical := fun p hp hp' ↦ by
    obtain rfl : p = extendedSample := List.mem_singleton.mp hp
    exact absurd hp' Bool.false_ne_true
  spaced := List.pairwise_singleton _ _

/-- Before a logical partition a hole reaches into its offset, and a logical partition that is to be
deleted makes a gap smaller. -/
theorem not_gaps_usable_reached :
    (LaidOut largeCylinders (withLogical 300) ∧
      getLogicalPartitionGaps noFloats (withLogical 300) =
        .ok [⟨163, Size.secs 136⟩, ⟨463, Size.secs 436⟩] ∧
      exec (insert noFloats (.disk largeCylinders) true 0
        (.partition (filler 6 ⟨163, Size.secs 136⟩)))
        ⟨withLogical 300, []⟩ =
          (.ok (), ⟨.partition (filler 6 ⟨163, Size.secs 136⟩) :: withLogical 300,
            [.overlappingPartition ⟨.number 5, 5, rfl⟩ ⟨.number 6, 6, rfl⟩]⟩) ∧
      ¬ GapsUsable noFloats largeCylinders (withLogical 300)) ∧
    (LaidOut largeCylinders withDeleted ∧
      getLogicalPartitionGaps noFloats withDeleted = .ok [⟨163, Size.secs 136⟩,
        ⟨463, Size.secs 436⟩] ∧
      getLogicalPartitionGaps noFloats (live withDeleted) = .ok [⟨100, Size.secs 800⟩] ∧
      ¬ GapsUsable noFloats largeCylinders withDeleted) := by
  have hexec : exec (insert noFloats (.disk largeCylinders) true 0
      (.partition (filler 6 ⟨163, Size.secs 136⟩)))
      ⟨withLogical 300, []⟩ = (.ok (),
        ⟨.partition (filler 6 ⟨163, Size.secs 136⟩) :: withLogical 300,
        [.overlappingPartition ⟨.number 5, 5, rfl⟩ ⟨.number 6, 6, rfl⟩]⟩) := by
    rfl
  have hgaps : getLogicalPartitionGaps noFloats (withLogical 300) =
      .ok [⟨163, Size.secs 136⟩, ⟨463, Size.secs 436⟩] := by
    rfl
  have hdeleted : getLogicalPartitionGaps noFloats withDeleted = .ok [⟨163, Size.secs 136⟩,
      ⟨463, Size.secs 436⟩] := by
    rfl
  refine ⟨⟨laidOut_withLogical 300 (by decide) (by decide), hgaps, hexec, ?_⟩,
    ⟨laidOut_withDeleted, hdeleted, rfl, ?_⟩⟩
  · exact not_gapsUsable_of_clash hgaps List.mem_cons_self rfl rfl hexec List.mem_cons_self trivial
  · rintro ⟨-, holes, h⟩
    obtain rfl := Except.ok.inj (hdeleted.symm.trans h.gaps_eq)
    obtain ⟨others, hothers, hkept⟩ := h.kept
    obtain rfl : [⟨100, Size.secs 800⟩] = others := Except.ok.inj hothers
    obtain ⟨hole, hhole, hmem⟩ := hkept _ List.mem_cons_self 100
      ⟨by decide, by decide⟩
    rcases List.mem_pair.mp hhole with rfl | rfl
    · exact absurd hmem.1 (by decide)
    · exact absurd hmem.1 (by decide)

end Userland.Install.Target
