import Userland.Install.Target.GapHoles

/-!
# Partitions that are put into holes

`insert_partition_cases` says what an insertion adds to the layout, and which errors about overlaps
and bounds it posts. A partition that only touches holes is taken without such an error
(`taken_of_forall`).
-/

set_option autoImplicit false
set_option relaxedAutoImplicit false

namespace Userland.Install.Target

open Library Library.Program

/-! ### The errors that are posted -/

section Posted

variable {floats : Floats} {disk : Disk} {old : List Child} {fact : Prop}
  {E : TargetError → Shadow → Prop}

/-- The list is as it was, and an error about overlaps or bounds was posted exactly if this is a
fact. -/
def Posted (old : List Child) (fact : Prop) (s : Shadow) : Prop :=
  s.children = old ∧ ((∃ error ∈ s.errors, error.IsClash) ↔ fact)

theorem Posted.congr {fact' : Prop} (h : fact ↔ fact') {s : Shadow} (hs : Posted old fact s) :
    Posted old fact' s :=
  ⟨hs.1, hs.2.trans h⟩

theorem posted_postIf (failed : Bool) (error : ShadowError) :
    Triple (Posted old fact) (postIf failed error) (fun _ ↦
      Posted old (fact ∨ failed = true ∧ error.IsClash)) E := by
  unfold postIf
  split_ifs with h
  · refine Triple.modify fun s hs ↦ ⟨hs.1, ?_⟩
    simp only [List.mem_append, List.mem_singleton, or_and_right, exists_or, exists_eq_left, hs.2,
      h, true_and]
  · exact Triple.pure fun s hs ↦ hs.congr ⟨Or.inl, fun hfact ↦
      hfact.resolve_right fun hboth ↦ h hboth.1⟩

theorem posted_postIf_other (failed : Bool) {error : ShadowError} (h : ¬ error.IsClash) :
    Triple (Posted old fact) (postIf failed error) (fun _ ↦ Posted old fact) E :=
  (posted_postIf failed error).weaken (fun _ hs ↦ hs)
    (fun _ _ hs ↦ hs.congr ⟨fun hfact ↦ hfact.resolve_right fun hboth ↦ h hboth.2, Or.inl⟩)
      fun _ _ hs ↦ hs

theorem posted_forEach_other {α : Type} (failed : α → Bool) {error : α → ShadowError}
    (h : ∀ x, ¬ (error x).IsClash) (list : List α) :
    Triple (Posted old fact) (forEach (fun x ↦ postIf (failed x) (error x)) list) (fun _ ↦
      Posted old fact) E :=
  Triple.forEach_same fun x _ ↦ posted_postIf_other (failed x) (h x)

/-- The checks against another partition post an error. -/
def Clashes (v p : Partition) : Prop :=
  leavesExtended v p ∨ overlapsPartition v p

theorem posted_checkPartition (v p : Partition) :
    Triple (Posted old fact) (checkPartition v p) (fun _ ↦ Posted old (fact ∨ Clashes v p)) E := by
  unfold checkPartition
  refine Triple.bind (posted_postIf _ _) fun _ ↦ ?_
  refine (posted_postIf _ _).weaken (fun _ hs ↦ hs) (fun _ _ hs ↦ hs.congr ?_) fun _ _ hs ↦ hs
  simp only [ShadowError.IsClash, and_true, Clashes, or_assoc]

theorem posted_forEach_checkPartition (v : Partition) (others : List Partition) :
    Triple (Posted old fact) (forEach (checkPartition v) others)
      (fun _ ↦ Posted old (fact ∨ ∃ p ∈ others, Clashes v p)) E := by
  refine Triple.weaken (Triple.forEach (I := fun before ↦
    Posted old (fact ∨ ∃ p ∈ before, Clashes v p)) ?_)
    (fun _ hs ↦ hs.congr ?_) (fun _ _ hs ↦ hs) fun _ _ hs ↦ hs
  · intro before p after _
    refine (posted_checkPartition v p).weaken (fun _ hs ↦ hs) (fun _ _ hs ↦
      hs.congr ?_) fun _ _ hs ↦ hs
    simp only [List.mem_append, List.mem_singleton, or_and_right, exists_or,
      exists_eq_left, or_assoc]
  · simp only [List.not_mem_nil, false_and, exists_false, or_false]

/-- The start of a partition is not on the disk. -/
def OutOfBounds (disk : Disk) (v : Partition) : Prop :=
  ¬ (0 ≤ v.extent.startSector ∧ v.extent.startSector ≤ disk.devSize.sectors)

theorem posted_bounds (disk : Disk) (v : Partition) :
    Triple (Posted old False)
    (postIf (!(0 ≤ v.extent.startSector ∧ v.extent.startSector ≤ disk.devSize.sectors))
      .invalidPartitionStartSector) (fun _ ↦ Posted old (OutOfBounds disk v)) E := by
  refine (posted_postIf _ _).weaken (fun _ hs ↦ hs) (fun _ s hs ↦ hs.congr ?_) fun _ _ hs ↦ hs
  rw [OutOfBounds, ShadowError.IsClash, and_true, false_or, Bool.not_eq_true',
    decide_eq_false_iff_not]

/-- What becomes of a partition up to the checks against the others. -/
theorem posted_placePartition (floats : Floats) (disk : Disk) (v : Partition) :
    Triple (Posted old False) (placePartition floats disk v)
      (fun placed s ↦ ∃ rounded, roundedPartition floats disk v = .ok rounded ∧
        asPartitions old = .ok placed.1 ∧
        movedLogical floats placed.1 rounded = .ok placed.2 ∧
        Posted old (OutOfBounds disk rounded) s)
      fun error s ↦ roundedPartition floats disk v = .error error ∧ Posted old False s ∨
        ∃ rounded, roundedPartition floats disk v = .ok rounded ∧
        Posted old (OutOfBounds disk rounded) s ∧
          (asPartitions old = .error error ∨ ∃ others, asPartitions old = .ok others ∧
            movedLogical floats others rounded = .error error) := by
  unfold placePartition
  refine Triple.bind (posted_postIf_other _ id) fun _ ↦ ?_
  refine Triple.bind (posted_postIf_other _ id) fun _ ↦ ?_
  refine Triple.bind (Triple.lift (Q := fun rounded s ↦
    roundedPartition floats disk v = .ok rounded ∧ Posted old False s)
    (fun rounded s hrounded hs ↦ ⟨hrounded, hs⟩)
    fun error s herror hs ↦ Or.inl ⟨herror, hs⟩) fun rounded ↦ Triple.assume fun hrounded ↦ ?_
  refine Triple.bind (posted_bounds disk rounded) fun _ ↦ ?_
  refine Triple.bind (posted_postIf_other _ id) fun _ ↦ ?_
  refine Triple.bind (Triple.get (Q := fun got s ↦ got.children = old ∧ Posted old _ s)
    fun s hs ↦ ⟨hs.1, hs⟩) fun got ↦ Triple.assume fun hgot ↦ ?_
  rw [hgot]
  refine Triple.bind (Triple.lift (Q := fun others s ↦ asPartitions old = .ok others ∧
    Posted old _ s)
    (fun others s hothers hs ↦ ⟨hothers, hs⟩)
    fun error s herror hs ↦ Or.inr ⟨rounded, hrounded, hs, Or.inl herror⟩) fun others ↦
      Triple.assume fun hothers ↦ ?_
  refine Triple.bind (posted_postIf_other _ id) fun _ ↦ ?_
  refine Triple.bind (posted_postIf_other _ id) fun _ ↦ ?_
  refine Triple.bind (Triple.lift (Q := fun moved s ↦
    movedLogical floats others rounded = .ok moved ∧ Posted old _ s)
    (fun moved s hmoved hs ↦ ⟨hmoved, hs⟩)
    fun error s herror hs ↦ Or.inr ⟨rounded, hrounded, hs, Or.inr ⟨others, hothers, herror⟩⟩)
    fun moved ↦ Triple.assume fun hmoved ↦ ?_
  exact Triple.pure fun s hs ↦ ⟨rounded, hrounded, hothers, hmoved, hs⟩

/-- The checks post an error about overlaps exactly if the partition clashes with another one. -/
theorem posted_checkAndInsert (disk : Disk) (index : ℤ) (others : List Partition) (v : Partition) :
    Triple (Posted old fact) (checkAndInsert disk index others v)
      (fun _ s ↦ (∃ error ∈ s.errors, error.IsClash) ↔ fact ∨ ∃ p ∈ others, Clashes v p) E := by
  unfold checkAndInsert
  refine Triple.bind (posted_forEach_other _ (fun _ ↦ id) _) fun _ ↦ ?_
  refine Triple.bind (posted_forEach_checkPartition _ _) fun _ ↦ ?_
  refine Triple.bind (Triple.get (Q := fun _ s ↦ Posted old _ s) fun s hs ↦ hs) fun got ↦ ?_
  refine Triple.bind (posted_postIf_other _ id) fun _ ↦ ?_
  refine Triple.bind (posted_forEach_other _ (fun _ ↦ id) _) fun _ ↦ ?_
  refine Triple.bind (posted_postIf_other _ id) fun _ ↦ ?_
  refine Triple.bind (posted_postIf_other _ id) fun _ ↦ ?_
  refine Triple.bind (posted_postIf_other _ id) fun _ ↦ ?_
  refine Triple.bind (posted_postIf_other _ id) fun _ ↦ ?_
  exact Triple.modify fun s hs ↦ hs.2

theorem exec_insert_partition (v : Partition) (errors : List ShadowError) (index : ℤ) :
    exec (insert floats (.disk disk) true index (.partition v)) ⟨old, errors⟩ =
      exec (insertPartition floats disk index v) ⟨old, []⟩ := by
  unfold insert
  rw [if_neg (by decide), exec_bind, exec_modify]

/-- How the insertion of a partition ends. -/
theorem insert_partition_cases (floats : Floats) (disk : Disk) (old : List Child) (v : Partition)
    (errors : List ShadowError) (index : ℤ) :
    (∃ rounded others moved s, roundedPartition floats disk v = .ok rounded ∧
      asPartitions old = .ok others ∧
      movedLogical floats others rounded = .ok moved ∧
      exec (insert floats (.disk disk) true index (.partition v)) ⟨old, errors⟩ = (.ok (), s) ∧
      ((∃ error ∈ s.errors, error.IsClash) ↔ OutOfBounds disk rounded ∨ ∃ p ∈ others,
        Clashes moved p)) ∨
    ∃ error s, exec (insert floats (.disk disk) true index (.partition v)) ⟨old, errors⟩ =
    (.error error, s) ∧
      (roundedPartition floats disk v = .error error ∧ Posted old False s ∨
        ∃ rounded, roundedPartition floats disk v = .ok rounded ∧
        Posted old (OutOfBounds disk rounded) s ∧
          (asPartitions old = .error error ∨ ∃ others, asPartitions old = .ok others ∧
            movedLogical floats others rounded = .error error)) := by
  rw [exec_insert_partition, insertPartition, exec_bind]
  have hplaced := posted_placePartition floats disk v ⟨old, []⟩ ⟨rfl, by simp⟩
  rcases hplace : exec (placePartition floats disk v) ⟨old, []⟩ with ⟨error | placed, middle⟩
  · rw [hplace] at hplaced
    exact Or.inr ⟨error, middle, rfl, hplaced⟩
  · rw [hplace] at hplaced
    obtain ⟨rounded, hrounded, hothers, hmoved, hposted⟩ := hplaced
    have hchecked := posted_checkAndInsert disk (E := fun _ _ ↦
      False) index placed.1 placed.2 middle hposted
    dsimp only
    rcases hcheck : exec (checkAndInsert disk index placed.1 placed.2) middle with ⟨error | value,
      s⟩
    · rw [hcheck] at hchecked
      exact hchecked.elim
    · rw [hcheck] at hchecked
      exact Or.inl ⟨rounded, placed.1, placed.2, s, hrounded, hothers, hmoved, rfl, hchecked⟩

/-- A partition is taken if it can be placed, and clashes with none. -/
theorem taken_of_forall {v rounded : Partition}
    (hrounded : roundedPartition floats disk v = .ok rounded)
    (hbounds : ¬ OutOfBounds disk rounded) (hothers : ∀ others, asPartitions old = .ok others →
      ∃ moved, movedLogical floats others rounded = .ok moved ∧ ∀ p ∈ others, ¬ Clashes moved p)
    (herror : ∀ error, asPartitions old = .error error → error = .attributeError) :
    Taken floats disk old v := by
  intro errors index result s hexec
  rcases insert_partition_cases floats disk old v errors index with
    ⟨rounded', others, moved, s', hrounded', hothers', hmoved, hexec', hposted⟩ | ⟨error, s',
      hexec', hcases⟩
  · obtain rfl : rounded' = rounded := Except.ok.inj (hrounded'.symm.trans hrounded)
    obtain ⟨moved', hmoved', hclear⟩ := hothers others hothers'
    obtain rfl : moved' = moved := Except.ok.inj (hmoved'.symm.trans hmoved)
    cases hexec'.symm.trans hexec
    refine ⟨fun h ↦ (nomatch h), fun error hmem hclash ↦ ?_⟩
    rcases hposted.mp ⟨error, hmem, hclash⟩ with hout | ⟨p, hp, hpclash⟩
    · exact hbounds hout
    · exact hclear p hp hpclash
  · cases hexec'.symm.trans hexec
    rcases hcases with ⟨hrounded', -⟩ | ⟨rounded', hrounded', hposted, hlater⟩
    · cases hrounded'.symm.trans hrounded
    · obtain rfl : rounded' = rounded := Except.ok.inj (hrounded'.symm.trans hrounded)
      refine ⟨?_, fun error' hmem hclash ↦ hbounds (hposted.2.mp ⟨error', hmem, hclash⟩)⟩
      rcases hlater with herror' | ⟨others, hothers', hmoved⟩
      · rw [herror error herror']
        exact fun h ↦ (nomatch h)
      · obtain ⟨moved', hmoved', -⟩ := hothers others hothers'
        cases hmoved'.symm.trans hmoved

/-- What is known of a partition that is taken. -/
theorem Taken.inv {v : Partition} (h : Taken floats disk old v) {others : List Partition}
    (hothers : asPartitions old = .ok others) :
    roundedPartition floats disk v ≠ .error .valueError ∧
      ∀ rounded, roundedPartition floats disk v = .ok rounded →
        movedLogical floats others rounded ≠ .error .valueError ∧
          ∀ moved, movedLogical floats others rounded = .ok moved →
          ∀ p ∈ others, ¬ Clashes moved p := by
  rcases insert_partition_cases floats disk old v [] 0 with
    ⟨rounded', others', moved', s, hrounded', hothers', hmoved', hexec, hposted⟩ | ⟨error, s,
      hexec, hcases⟩
  · obtain rfl : others' = others := Except.ok.inj (hothers'.symm.trans hothers)
    obtain ⟨-, hclear⟩ := h [] 0 _ s hexec
    refine ⟨fun herror ↦ (nomatch hrounded'.symm.trans herror), fun rounded hrounded ↦ ?_⟩
    obtain rfl : rounded' = rounded := Except.ok.inj (hrounded'.symm.trans hrounded)
    refine ⟨fun herror ↦ (nomatch hmoved'.symm.trans herror), fun moved hmoved p hp hclash ↦ ?_⟩
    obtain rfl : moved' = moved := Except.ok.inj (hmoved'.symm.trans hmoved)
    obtain ⟨error, hmem, hisClash⟩ := hposted.mpr (Or.inr ⟨p, hp, hclash⟩)
    exact hclear error hmem hisClash
  · obtain ⟨hne, -⟩ := h [] 0 _ s hexec
    have hvalue : error ≠ .valueError := fun heq ↦ hne (congrArg _ heq)
    rcases hcases with ⟨hrounded', -⟩ | ⟨rounded', hrounded', -,
      herror | ⟨others', hothers', hmoved'⟩⟩
    · refine ⟨fun herror ↦ hvalue (Except.error.inj (hrounded'.symm.trans herror)),
        fun rounded hrounded ↦ ?_⟩
      cases hrounded'.symm.trans hrounded
    · cases herror.symm.trans hothers
    · obtain rfl : others' = others := Except.ok.inj (hothers'.symm.trans hothers)
      refine ⟨fun herror ↦ (nomatch hrounded'.symm.trans herror), fun rounded hrounded ↦ ?_⟩
      obtain rfl : rounded' = rounded := Except.ok.inj (hrounded'.symm.trans hrounded)
      refine ⟨fun herror ↦ hvalue (Except.error.inj (hmoved'.symm.trans herror)),
        fun moved hmoved ↦ ?_⟩
      cases hmoved'.symm.trans hmoved

end Posted

end Userland.Install.Target
