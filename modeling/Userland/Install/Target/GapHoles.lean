import Userland.Install.Target.Gaps

/-!
# What the lists of gaps contain

Each hole comes from a step of the sorted list of sectors, and is inside of it. `getGaps_spec` says
this of the holes of a disk with children, and `logicalHoles_spec` of the extended partition.
-/

set_option autoImplicit false
set_option relaxedAutoImplicit false

namespace Userland.Install.Target

open Library Library.Program

variable {floats : Floats} {c : ℤ}

theorem Extent.disjoint_of_le {a b : Extent} {p q : ℤ × ℤ} (ha : a.sectors ⊆ Set.Ico p.1 p.2)
    (hb : b.sectors ⊆ Set.Ico q.1 q.2) (hle : p.2 ≤ q.1) : Disjoint a.sectors b.sectors :=
  Set.disjoint_left.mpr fun _ hx hy ↦ absurd ((ha hx).2.trans_le (hle.trans (hb hy).1))
    (lt_irrefl _)

/-! ### The holes of a disk -/

/-- A hole as it is before it is moved to cylinders. -/
structure RawHole (c : ℤ) (p : ℤ × ℤ) (raw : Extent) : Prop where
  start_nonneg : 0 ≤ raw.startSector
  sectors : raw.sectors ⊆ Set.Ico p.1 p.2
  reaches : firstCyl c raw * c ≤ raw.stop
  start_gt : p.1 = 0 ∨ p.1 < raw.startSector
  stop_le : raw.stop ≤ p.2 ∧ (p.1 = 0 → raw.stop < p.2)
  whole : 0 < p.1 → raw.stop = p.2 ∧ firstCyl c raw * c ≤ p.1 + c

/-- A hole on cylinders. -/
structure AlignedHole (c : ℤ) (raw hole : Extent) : Prop where
  start_dvd : c ∣ hole.startSector
  cylsize_le : c ≤ hole.startSector
  size_dvd : c ∣ hole.size.sectors
  sectors : hole.sectors ⊆ raw.sectors
  start_eq : hole.startSector = firstCyl c raw * c
  stop_le : hole.stop ≤ raw.stop
  whole : c ∣ raw.stop → hole.stop = raw.stop

theorem rawHole_of_lt (hc : 0 < c) {p : ℤ × ℤ} (hstart : 0 ≤ p.1) (hlt : c < p.2 - p.1) :
    ∃ raw, rawHole floats p = .ok raw ∧ RawHole c p raw := by
  have hnonneg : 0 ≤ p.2 - p.1 - 1 := by omega
  have hsize : (((p.2 - p.1 - 1).toNat : ℕ) : ℤ) = p.2 - p.1 - 1 := Int.toNat_of_nonneg hnonneg
  have hfirst : ∀ v : Extent, firstCyl c v * c ≤ max c (v.startSector + c - 1) := by
    intro v
    rw [firstCyl, max_mul_of_nonneg _ _ hc.le, one_mul]
    exact max_le_max le_rfl (Int.ediv_mul_le _ hc.ne')
  rw [rawHole, ofSectors_eq, if_pos hnonneg]
  refine ⟨_, rfl, ?_, ?_, (hfirst _).trans ?_, ?_, ?_, fun hpos ↦ ⟨?_, (hfirst _).trans ?_⟩⟩
  · dsimp only
    split_ifs <;> omega
  · intro x hx
    rw [Extent.sectors, Extent.stop, Set.mem_Ico, Size.sectors_secs, hsize] at hx
    dsimp only at hx
    rw [Set.mem_Ico]
    split_ifs at hx <;> omega
  · rw [Extent.stop, Size.sectors_secs, hsize]
    dsimp only
    split_ifs <;> omega
  · dsimp only
    split_ifs <;> omega
  · rw [Extent.stop, Size.sectors_secs, hsize]
    dsimp only
    split_ifs <;> omega
  · rw [Extent.stop, Size.sectors_secs, hsize, if_neg hpos.ne']
    dsimp only
    omega
  · rw [if_neg hpos.ne']
    dsimp only
    omega

theorem adjustedHole_of_rawHole (hc : 0 < c) {p : ℤ × ℤ} {raw : Extent} (h : RawHole c p raw) :
    ∃ hole, adjustedHole floats c raw = .ok hole ∧ AlignedHole c raw hole := by
  obtain ⟨moved, hmoved, hmovedStart, hmovedStop⟩ :=
    (start_spec floats hc h.start_nonneg).1 h.reaches
  obtain ⟨hole, hhole, hholeStart, hholeSize⟩ := sizeDown_spec floats hc moved
  have hstart : hole.startSector = firstCyl c raw * c := hholeStart.trans hmovedStart
  have hstop : hole.stop ≤ raw.stop := by
    have hle : (moved.size.sectors : ℤ) / c * c ≤ moved.size.sectors := Int.ediv_mul_le _ hc.ne'
    rw [← hmovedStop, Extent.stop, Extent.stop, hholeStart, hholeSize]
    omega
  refine ⟨hole, ?_, ⟨_, hstart.trans (mul_comm _ _)⟩, ?_, ⟨_, hholeSize.trans (mul_comm _ _)⟩, ?_,
    hstart, hstop,
    fun hdvd ↦ ?_⟩
  · rw [adjustedHole, hmoved]
    exact hhole
  · rw [hstart]
    exact le_mul_of_one_le_left hc.le (le_max_left _ _)
  · exact Set.Ico_subset_Ico (hstart ▸ startSector_le_firstCyl_mul hc raw) hstop
  · have hsizeDvd : c ∣ (moved.size.sectors : ℤ) := by
      rw [← hmovedStop, Extent.stop, hmovedStart] at hdvd
      exact (Int.dvd_add_right (Int.dvd_mul_left _ _)).mp hdvd
    rw [Extent.stop, hholeSize, Int.ediv_mul_cancel hsizeDvd, hholeStart, ← hmovedStop, Extent.stop]

/-- The holes that are found in a list of used sectors. -/
structure HolesOf (c : ℤ) (usage : List ℤ) (holes : List Extent) : Prop where
  each : ∀ hole ∈ holes, c ∣ hole.startSector ∧ c ≤ hole.startSector ∧ c ∣ hole.size.sectors ∧
    c < hole.size.sectors ∧
    ∃ p ∈ Sweep.pairs usage, hole.sectors ⊆ Set.Ico p.1 p.2 ∧ p.1 < hole.startSector ∧
      hole.stop ≤ p.2 ∧
      (p.1 = 0 → hole.stop < p.2)
  all : ∀ p ∈ Sweep.pairs usage, 0 < p.1 → c ∣ p.2 → p.1 + 2 * c < p.2 →
    ∃ hole ∈ holes, hole.stop = p.2
  disjoint : holes.Pairwise fun a b ↦ Disjoint a.sectors b.sectors

theorem rawHoles_spec (floats : Floats) (hc : 0 < c) {usage : List ℤ}
    (hsorted : usage.Pairwise (· ≤ ·)) (hnonneg : ∀ p ∈ Sweep.pairs usage, 0 ≤ p.1) :
    ∃ raws, rawHoles floats c usage = .ok raws ∧
    (∀ raw ∈ raws, ∃ p ∈ Sweep.pairs usage, RawHole c p raw) ∧
      (∀ p ∈ Sweep.pairs usage, 0 < p.1 → c + 1 < p.2 - p.1 → ∃ raw ∈ raws, RawHole c p raw) ∧
      raws.Pairwise fun a b ↦ Disjoint a.sectors b.sectors := by
  have hfound : ∀ p ∈ (Sweep.pairs usage).filter fun p ↦ p.2 - p.1 ≠ 0 ∧ p.2 - p.1 ≠ 1 ∧
      p.2 - p.1 > c, ∃ raw, rawHole floats p = .ok raw ∧ RawHole c p raw := by
    intro p hp
    obtain ⟨hmem, htest⟩ := List.mem_filter.mp hp
    rw [decide_eq_true_eq] at htest
    exact rawHole_of_lt hc (hnonneg p hmem) htest.2.2
  have hof : ∀ p ∈ (Sweep.pairs usage).filter fun p ↦ p.2 - p.1 ≠ 0 ∧ p.2 - p.1 ≠ 1 ∧ p.2 - p.1 > c,
      ∀ raw, rawHole floats p = .ok raw → RawHole c p raw := by
    intro p hp raw hraw
    obtain ⟨raw', hraw', hhole⟩ := hfound p hp
    obtain rfl : raw' = raw := Except.ok.inj (hraw'.symm.trans hraw)
    exact hhole
  obtain ⟨raws, hraws, hmem⟩ := exists_mapM_ok fun p hp ↦ (hfound p hp).imp fun raw h ↦ h.1
  refine ⟨raws, hraws, fun raw hraw ↦ ?_, fun p hp hpos hlt ↦ ?_, ?_⟩
  · obtain ⟨p, hp, hvalue⟩ := (hmem raw).mp hraw
    exact ⟨p, List.mem_of_mem_filter hp, hof p hp raw hvalue⟩
  · have hfilter : p ∈ (Sweep.pairs usage).filter fun p ↦ p.2 - p.1 ≠ 0 ∧ p.2 - p.1 ≠ 1 ∧
        p.2 - p.1 > c :=
      List.mem_filter.mpr ⟨hp, decide_eq_true ⟨by omega, by omega, by omega⟩⟩
    obtain ⟨raw, hvalue, hraw⟩ := hfound p hfilter
    exact ⟨raw, (hmem raw).mpr ⟨p, hfilter, hvalue⟩, hraw⟩
  · refine pairwise_of_mapM_ok hraws ((Sweep.pairwise_pairs hsorted).sublist List.filter_sublist) ?_
    intro p hp q hq a b ha hb hle
    exact Extent.disjoint_of_le (hof p hp a ha).sectors (hof q hq b hb).sectors hle

/-- The holes of a disk with children. -/
theorem getGaps_spec (floats : Floats) (disk : Disk) {children : List Child} (hne : children ≠ [])
    (hwithin : Sweep.Within 0 (disk.devSize.sectors : ℤ) (usedRanges children)) :
    ∃ holes, getGaps floats disk children = .ok holes ∧
      HolesOf disk.cylsize (Sweep.usage 0 (disk.devSize.sectors : ℤ)
        (usedRanges children)) holes := by
  have hc := disk.natCast_cylsize_pos
  obtain ⟨raws, hraws, heach, hall, hdisjoint⟩ := rawHoles_spec floats hc hwithin.sorted fun p hp ↦
    (Sweep.bounds_of_mem_pairs hwithin hp).1
  have hadjust : ∀ raw ∈ raws, ∃ hole, adjustedHole floats disk.cylsize raw = .ok hole ∧
      AlignedHole disk.cylsize raw hole := by
    intro raw hraw
    obtain ⟨p, -, hrawHole⟩ := heach raw hraw
    exact adjustedHole_of_rawHole hc hrawHole
  have hof : ∀ raw ∈ raws, ∀ hole, adjustedHole floats disk.cylsize raw = .ok hole →
      AlignedHole disk.cylsize raw hole := by
    intro raw hraw hole hhole
    obtain ⟨hole', hhole', haligned⟩ := hadjust raw hraw
    obtain rfl : hole' = hole := Except.ok.inj (hhole'.symm.trans hhole)
    exact haligned
  obtain ⟨holes, hholes, hmem⟩ := exists_mapM_ok fun raw hraw ↦
    (hadjust raw hraw).imp fun hole h ↦ h.1
  refine ⟨holes.filter fun hole ↦ hole.size.sectors > disk.cylsize, ?_, fun hole hhole ↦ ?_,
    fun p hp hpos hdvd hlt ↦ ?_, ?_⟩
  · rw [getGaps, if_neg (by simpa using hne), hraws]
    show (raws.mapM (adjustedHole floats (disk.cylsize : ℤ))).bind _ = _
    rw [hholes]
    rfl
  · obtain ⟨hhole, hsize⟩ := List.mem_filter.mp hhole
    obtain ⟨raw, hraw, hvalue⟩ := (hmem hole).mp hhole
    obtain ⟨p, hp, hrawHole⟩ := heach raw hraw
    have haligned := hof raw hraw hole hvalue
    have hcylsize := haligned.cylsize_le
    have hstart := startSector_le_firstCyl_mul hc raw
    refine ⟨haligned.start_dvd, hcylsize, haligned.size_dvd,
      Int.ofNat_lt.mpr (of_decide_eq_true hsize), p, hp,
      haligned.sectors.trans hrawHole.sectors, ?_, haligned.stop_le.trans hrawHole.stop_le.1,
      fun hzero ↦ haligned.stop_le.trans_lt (hrawHole.stop_le.2 hzero)⟩
    rcases hrawHole.start_gt with hzero | hgt
    · omega
    · exact hgt.trans_le (haligned.start_eq ▸ hstart)
  · obtain ⟨raw, hraw, hrawHole⟩ := hall p hp hpos (by omega)
    obtain ⟨hole, hvalue, haligned⟩ := hadjust raw hraw
    obtain ⟨hrawStop, hfirst⟩ := hrawHole.whole hpos
    have hstop : hole.stop = p.2 := (haligned.whole (hrawStop ▸ hdvd)).trans hrawStop
    refine ⟨hole, List.mem_filter.mpr ⟨(hmem hole).mpr ⟨raw, hraw, hvalue⟩, decide_eq_true ?_⟩,
      hstop⟩
    have hstart := haligned.start_eq
    rw [Extent.stop] at hstop
    omega
  · refine (pairwise_of_mapM_ok hholes hdisjoint ?_).sublist List.filter_sublist
    intro a ha b hb a' b' ha' hb' hab
    exact hab.mono (hof a ha a' ha').sectors (hof b hb b' hb').sectors

/-! ### The holes of the extended partition -/

/-- A hole between logical partitions leaves the offset at its start, and one sector at its end. -/
theorem logicalHole_of_lt {p : ℤ × ℤ} (hlt : logicalAdjustment < p.2 - p.1) :
    ∃ hole, logicalHole floats p = .ok hole ∧ hole.startSector = p.1 + logicalAdjustment ∧
    hole.stop = p.2 - 1 := by
  have hnonneg : 0 ≤ p.2 - p.1 - 1 - logicalAdjustment := by omega
  rw [logicalHole, ofSectors_eq, if_pos hnonneg]
  refine ⟨_, rfl, rfl, ?_⟩
  rw [Extent.stop, Size.sectors_secs, Int.toNat_of_nonneg hnonneg]
  dsimp only
  omega

/-- The holes that are found between logical partitions. -/
structure LogicalHolesOf (usage : List ℤ) (holes : List Extent) : Prop where
  each : ∀ hole, hole ∈ holes → ∃ p ∈ Sweep.pairs usage, logicalAdjustment < p.2 - p.1 ∧
    hole.startSector = p.1 + logicalAdjustment ∧ hole.stop = p.2 - 1
  all : ∀ p ∈ Sweep.pairs usage, logicalAdjustment < p.2 - p.1 → ∃ hole ∈ holes,
    hole.startSector = p.1 + logicalAdjustment ∧ hole.stop = p.2 - 1
  disjoint : holes.Pairwise fun a b ↦ Disjoint a.sectors b.sectors

theorem logicalHoles_spec (floats : Floats) {usage : List ℤ} (hsorted : usage.Pairwise (· ≤ ·)) :
    ∃ holes, ((Sweep.pairs usage).filter fun p ↦ p.2 - p.1 > logicalAdjustment).mapM
    (logicalHole floats) =
      .ok holes ∧ LogicalHolesOf usage holes := by
  have hfound : ∀ p ∈ (Sweep.pairs usage).filter fun p ↦ p.2 - p.1 > logicalAdjustment,
      ∃ hole, logicalHole floats p = .ok hole ∧ hole.startSector = p.1 + logicalAdjustment ∧
          hole.stop = p.2 - 1 :=
    fun p hp ↦ logicalHole_of_lt (of_decide_eq_true (List.mem_filter.mp hp).2)
  have hof : ∀ p ∈ (Sweep.pairs usage).filter fun p ↦ p.2 - p.1 > logicalAdjustment,
      ∀ hole, logicalHole floats p = .ok hole →
        hole.startSector = p.1 + logicalAdjustment ∧ hole.stop = p.2 - 1 := by
    intro p hp hole hhole
    obtain ⟨hole', hhole', hvalues⟩ := hfound p hp
    obtain rfl : hole' = hole := Except.ok.inj (hhole'.symm.trans hhole)
    exact hvalues
  obtain ⟨holes, hholes, hmem⟩ := exists_mapM_ok fun p hp ↦ (hfound p hp).imp fun hole h ↦ h.1
  refine ⟨holes, hholes, fun hole hhole ↦ ?_, fun p hp hlt ↦ ?_, ?_⟩
  · obtain ⟨p, hp, hvalue⟩ := (hmem hole).mp hhole
    exact ⟨p, List.mem_of_mem_filter hp, of_decide_eq_true (List.mem_filter.mp hp).2,
      hof p hp hole hvalue⟩
  · have hfilter : p ∈ (Sweep.pairs usage).filter fun p ↦ p.2 - p.1 > logicalAdjustment :=
      List.mem_filter.mpr ⟨hp, decide_eq_true hlt⟩
    obtain ⟨hole, hvalue, hvalues⟩ := hfound p hfilter
    exact ⟨hole, (hmem hole).mpr ⟨p, hfilter, hvalue⟩, hvalues⟩
  · refine pairwise_of_mapM_ok hholes
      ((Sweep.pairwise_pairs hsorted).sublist List.filter_sublist) ?_
    intro p hp q hq a b ha hb hle
    obtain ⟨hstart, hstop⟩ := hof p hp a ha
    obtain ⟨hstart', hstop'⟩ := hof q hq b hb
    refine Set.disjoint_left.mpr fun x hx hy ↦ ?_
    rw [Extent.sectors, Set.mem_Ico] at hx hy
    unfold logicalAdjustment at *
    omega

end Userland.Install.Target
