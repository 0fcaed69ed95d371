import Userland.Install.Target.Insertion
import Userland.Install.TargetSelection.HandleDisk

/-!
# The partitions that a manifest does not name

They are left as they are, and no logical one is kept when the extended partition is created or
deleted, exactly if the logical ones come after the extended one in the order of the texts of their
names (`unnamedSurvive_iff`). With more than five logical partitions the text of `10` is before that
of an extended partition `2` (`not_unnamedSurvive_ten`). A logical partition is also copied without
the extended one when the manifest names that one to preserve it.
-/

set_option autoImplicit false
set_option relaxedAutoImplicit false

namespace Userland.Install.TargetSelection.HandleDisk

open Library Library.Program Userland.Pkg Target

/-! ### Insertions into the new disk -/

section Insertions

variable {sel : Selection} {device : Target.Disk} {others : List Target.Partition}
  {errors : List ShadowError} {s : Shadow}

/-- A shadow list of partitions. -/
def shadowOf (others : List Target.Partition) (errors : List ShadowError) : Shadow :=
  ⟨others.map Child.partition, errors⟩

theorem asPartitions_map (others : List Target.Partition) :
    asPartitions (others.map Child.partition) = .ok others := by
  induction others with
  | nil => rfl
  | cons p rest ih =>
    rw [List.map_cons, asPartitions, ih]
    rfl

theorem partitionsOf_map (others : List Target.Partition) :
    partitionsOf (others.map Child.partition) = others := by
  rw [partitionsOf, List.filterMap_map]
  exact List.filterMap_some

theorem append_partition (others : List Target.Partition) (v : Target.Partition) :
    (others.map Child.partition).insertIdx
      (insertPlace (others.map Child.partition).length (others.map Child.partition).length)
      (.partition v) =
        (others ++ [v]).map Child.partition := by
  have hplace : insertPlace (others.map Child.partition).length
      (others.map Child.partition).length =
      (others.map Child.partition).length := by
    rw [insertPlace, if_neg (not_lt_of_ge (Int.natCast_nonneg _)), Int.toNat_natCast, min_self]
  rw [hplace, List.insertIdx_length_self, List.map_append]
  rfl

/-- A partition that is inserted comes last. -/
theorem insertChildren_spec {v : Target.Partition}
    (h : insertChildren sel device (shadowOf others errors) v = .ok s) :
    ∃ extent errors', s = shadowOf (others ++ [{ v with extent := extent }]) errors' ∧
      (v.isLogical → errors' = [] → extendedPart others ≠ none) := by
  rw [insertChildren] at h
  rcases insert_partition_spec sel.floats device (shadowOf others errors)
      (shadowOf others errors).children.length v with
    ⟨s', others', rounded, v', hexec, hinserted⟩ | ⟨error, s', hexec, -⟩
  · rw [hexec] at h
    obtain rfl : s' = s := Except.ok.inj h
    have hothers : others = others' :=
      Except.ok.inj ((asPartitions_map others).symm.trans hinserted.others_eq)
    obtain ⟨extent, hv⟩ := hinserted.eq_with
    have hchildren := hinserted.children_eq
    rw [hv] at hchildren
    refine ⟨extent, s'.errors, ?_, fun hlogical hnil ↦ ?_⟩
    · rw [shadowOf, ← append_partition]
      exact congrArg (fun children ↦ (⟨children, s'.errors⟩ : Shadow)) hchildren
    · have hplaced := (hinserted.passes.mp hnil).placed
      obtain ⟨extent', hrounded⟩ := roundedPartition_eq_with hinserted.rounded_eq
      rw [hothers]
      refine hplaced.extended ?_
      rw [hrounded]
      exact hlogical
  · rw [hexec] at h
    cases h

/-- A partition that is not to be made is inserted as it is. -/
theorem insertChildren_kept (sel : Selection) (device : Target.Disk)
    (others : List Target.Partition)
    (errors : List ShadowError) {v : Target.Partition} (haction : v.action ≠ .create) :
    ∃ errors', insertChildren sel device (shadowOf others errors) v =
    .ok (shadowOf (others ++ [v]) errors') ∧
      (errors' = [] ↔ Passes device (others.map Child.partition) others v v v) := by
  obtain ⟨s', hexec, hchildren, hpasses⟩ := insert_partition_kept (s := shadowOf others errors)
    sel.floats device (shadowOf others errors).children.length haction (asPartitions_map others)
  refine ⟨s'.errors, ?_, hpasses⟩
  rw [insertChildren]
  rw [shadowOf] at hexec ⊢
  rw [hexec, shadowOf, ← append_partition]
  exact congrArg (fun children ↦ (Except.ok (⟨children, s'.errors⟩ : Shadow) :
    Except Failure Shadow)) hchildren

end Insertions

/-! ### The partitions that are copied -/

/-- The text of one name is before that of the other. -/
def NameLT (p q : Target.Partition) : Prop :=
  List.lt (nameText p) (nameText q)

theorem nameLT_asymm {p q : Target.Partition} (h : NameLT p q) : ¬ NameLT q p :=
  List.lt_asymm h

/-- The manifest partition that a list has for a name. -/
def namedBy (base : List MfPartition) (p : Target.Partition) : Option MfPartition :=
  base.find? fun mf ↦ mf.name = some p.name

/-- The extended partition is created or deleted. -/
def replaces (base : List MfPartition) (p : Target.Partition) : Bool :=
  p.isExtended && (namedBy base p).any fun mf ↦ mf.action = .create ∨ mf.action = .delete

/-- The partitions that are copied. -/
def copiedOf (base : List MfPartition) : Bool → List Target.Partition → List Target.Partition
  | _, [] => []
  | skip, p :: rest =>
    if (namedBy base p).isSome then copiedOf base (skip || replaces base p) rest
    else if p.isLogical ∧ skip then copiedOf base skip rest
    else p :: copiedOf base skip rest

/-- A copy has no slices. -/
def bare (p : Target.Partition) : Target.Partition :=
  { p with slices := [] }

section Copies

variable {sel : Selection} {device : Target.Disk} {base : List MfPartition} {skip : Bool}
  {done l : List Target.Partition} {errors : List ShadowError}

/-- The state of the merge after some copies. -/
def mergeOf (skip : Bool) (base : List MfPartition) (done : List Target.Partition)
    (errors : List ShadowError) : Merge :=
  ⟨skip, base ++ done.map MfPartition.ofPartition, shadowOf (done.map bare) errors⟩

theorem replaces_of_isNone {p : Target.Partition} (h : (namedBy base p).isSome = false) :
    replaces base p = false := by
  rw [replaces, Option.isSome_eq_false_iff.mp h |> Option.isNone_iff_eq_none.mp]
  exact Bool.and_false _

theorem copiedOf_sublist (base : List MfPartition) (skip : Bool) (l : List Target.Partition) :
    (copiedOf base skip l).Sublist l := by
  induction l generalizing skip with
  | nil => exact List.Sublist.refl []
  | cons p rest ih =>
    rw [copiedOf]
    split_ifs
    · exact (ih _).cons p
    · exact (ih _).cons p
    · exact (ih _).cons_cons p

/-- The partitions that are copied are those that are not named, of the logical ones those before
every replaced one. -/
theorem mem_copiedOf (hsorted : l.Pairwise NameLT) {p : Target.Partition} :
    p ∈ copiedOf base skip l ↔ p ∈ l ∧ (namedBy base p).isSome = false ∧
      (p.isLogical → skip = false ∧ ∀ r ∈ l, replaces base r → ¬ NameLT r p) := by
  induction l generalizing skip with
  | nil => exact ⟨fun h ↦ absurd h List.not_mem_nil, fun h ↦ h.1⟩
  | cons first rest ih =>
    obtain ⟨hfirst, hrest⟩ := List.pairwise_cons.mp hsorted
    rw [copiedOf]
    split_ifs with hnamed hleft
    · rw [ih hrest, List.mem_cons, List.forall_mem_cons, Bool.or_eq_false_iff]
      constructor
      · rintro ⟨hp, hunnamed, hlogical⟩
        refine ⟨Or.inr hp, hunnamed, fun h ↦ ?_⟩
        obtain ⟨⟨hskip, hreplaces⟩, hall⟩ := hlogical h
        exact ⟨hskip, fun hreplaced ↦ absurd hreplaced (Bool.eq_false_iff.mp hreplaces), hall⟩
      · rintro ⟨hp, hunnamed, hlogical⟩
        rcases hp with rfl | hp
        · rw [hnamed] at hunnamed
          cases hunnamed
        · refine ⟨hp, hunnamed, fun h ↦ ?_⟩
          obtain ⟨hskip, hreplaces, hall⟩ := hlogical h
          exact ⟨⟨hskip, Bool.eq_false_iff.mpr fun hreplaced ↦ hreplaces hreplaced (hfirst p hp)⟩,
            hall⟩
    · rw [ih hrest, List.mem_cons, List.forall_mem_cons]
      have hreplaces := Bool.eq_false_iff.mp (replaces_of_isNone (Bool.eq_false_iff.mpr hnamed))
      constructor
      · rintro ⟨hp, hunnamed, hlogical⟩
        exact ⟨Or.inr hp, hunnamed, fun h ↦
          ⟨(hlogical h).1, fun hreplaced ↦ absurd hreplaced hreplaces, (hlogical h).2⟩⟩
      · rintro ⟨hp, hunnamed, hlogical⟩
        refine ⟨hp.resolve_left fun heq ↦ ?_, hunnamed, fun h ↦ ⟨(hlogical h).1, (hlogical h).2.2⟩⟩
        rw [heq] at hlogical
        exact Bool.false_ne_true ((hlogical hleft.1).1.symm.trans hleft.2)
    · rw [List.mem_cons, ih hrest, List.mem_cons, List.forall_mem_cons]
      have hreplaces := Bool.eq_false_iff.mp (replaces_of_isNone (Bool.eq_false_iff.mpr hnamed))
      constructor
      · rintro (rfl | ⟨hp, hunnamed, hlogical⟩)
        · refine ⟨Or.inl rfl, Bool.eq_false_iff.mpr hnamed,
            fun h ↦ ⟨Bool.eq_false_iff.mpr fun hskip ↦ hleft ⟨h, hskip⟩,
            fun hreplaced ↦ absurd hreplaced hreplaces, fun r hr _ ↦ nameLT_asymm (hfirst r hr)⟩⟩
        · exact ⟨Or.inr hp, hunnamed, fun h ↦
            ⟨(hlogical h).1, fun hreplaced ↦ absurd hreplaced hreplaces, (hlogical h).2⟩⟩
      · rintro ⟨hp, hunnamed, hlogical⟩
        exact hp.imp_right fun hp ↦ ⟨hp, hunnamed, fun h ↦ ⟨(hlogical h).1, (hlogical h).2.2⟩⟩

/-- Copies of other partitions do not name a partition. -/
theorem find?_mergeOf {p : Target.Partition} (h : ∀ q ∈ done, q.name ≠ p.name) :
    (mergeOf skip base done errors).partitions.find? (fun mf ↦ mf.name = some p.name) =
    namedBy base p := by
  rw [mergeOf, List.find?_append, namedBy, Option.or_eq_left_of_none]
  rw [List.find?_eq_none]
  intro mf hmf
  obtain ⟨q, hq, rfl⟩ := List.mem_map.mp hmf
  rw [decide_eq_true_eq]
  exact fun heq ↦ h q hq (Option.some.inj heq)

variable {p : Target.Partition}

theorem copyExisting_named (sel : Selection) (device : Target.Disk)
    (hfresh : ∀ q ∈ done, q.name ≠ p.name) (hnamed : (namedBy base p).isSome) :
    copyExisting sel device (mergeOf skip base done errors) p =
      .ok (mergeOf (skip || replaces base p) base done errors) := by
  obtain ⟨mf, hmf⟩ := Option.isSome_iff_exists.mp hnamed
  have hreplaces : replaces base p = decide (p.isExtended ∧
      (mf.action = .create ∨ mf.action = .delete)) := by
    rw [replaces, hmf, Option.any_some, Bool.decide_and, Bool.decide_eq_true]
  rw [copyExisting, find?_mergeOf hfresh, hmf, hreplaces]
  simp only
  split_ifs with h
  · rw [decide_eq_true h, Bool.or_true]
    rfl
  · rw [decide_eq_false h, Bool.or_false]

theorem copyExisting_left (sel : Selection) (device : Target.Disk)
    (hfresh : ∀ q ∈ done, q.name ≠ p.name)
    (hnamed : (namedBy base p).isSome = false) (hleft : p.isLogical ∧ skip) :
    copyExisting sel device (mergeOf skip base done errors) p =
    .ok (mergeOf skip base done errors) := by
  rw [copyExisting, find?_mergeOf hfresh,
    Option.isNone_iff_eq_none.mp (Option.isSome_eq_false_iff.mp hnamed)]
  exact if_pos hleft

theorem copyExisting_copied (sel : Selection) (device : Target.Disk) (errors : List ShadowError)
    (haction : p.action ≠ .create) (hfresh : ∀ q ∈ done, q.name ≠ p.name)
    (hnamed : (namedBy base p).isSome = false) (hleft : ¬ (p.isLogical ∧ skip)) :
    ∃ errors', copyExisting sel device (mergeOf skip base done errors) p =
    .ok (mergeOf skip base (done ++ [p]) errors') ∧
      (errors' = [] ↔ Passes device ((done.map bare).map Child.partition) (done.map bare) (bare p)
        (bare p) (bare p)) := by
  obtain ⟨errors', hinsert, hpasses⟩ := insertChildren_kept sel device (done.map bare) errors (v :=
    bare p) haction
  refine ⟨errors', ?_, hpasses⟩
  rw [copyExisting, find?_mergeOf hfresh,
    Option.isNone_iff_eq_none.mp (Option.isSome_eq_false_iff.mp hnamed)]
  show (if p.isLogical ∧ skip then _
    else Except.map _ (insertChildren sel device (shadowOf (done.map bare) errors) (bare p))) = _
  have hmerge : mergeOf skip base (done ++ [p]) errors' = ⟨skip,
      base ++ done.map MfPartition.ofPartition ++ [MfPartition.ofPartition p],
      shadowOf (done.map bare ++ [bare p]) errors'⟩ := by
    rw [mergeOf, List.map_append, List.map_append, ← List.append_assoc]
    rfl
  rw [if_neg hleft, hinsert, hmerge]
  rfl

/-- The loop copies the partitions that are not named or left out. -/
theorem foldlM_copyExisting (sel : Selection) (device : Target.Disk) (base : List MfPartition)
    (skip : Bool) (errors : List ShadowError) (hactions : ∀ p ∈ l, p.action ≠ .create)
    (hnames : (done ++ l).Pairwise fun p q ↦ p.name ≠ q.name) :
    ∃ skip' errors', l.foldlM (copyExisting sel device) (mergeOf skip base done errors) =
      .ok (mergeOf skip' base (done ++ copiedOf base skip l) errors') := by
  induction l generalizing skip done errors with
  | nil => exact ⟨skip, errors, by rw [copiedOf, List.append_nil]; rfl⟩
  | cons p rest ih =>
    obtain ⟨haction, hactions⟩ := List.forall_mem_cons.mp hactions
    have hfresh : ∀ q ∈ done, q.name ≠ p.name := fun q hq ↦
      (List.pairwise_append.mp hnames).2.2 q hq p List.mem_cons_self
    have hskipped : (done ++ rest).Pairwise fun p q ↦ p.name ≠ q.name :=
      hnames.sublist (List.Sublist.append_left (List.sublist_cons_self p rest) done)
    rw [List.foldlM_cons, copiedOf]
    split_ifs with hnamed hleft
    · rw [copyExisting_named sel device hfresh hnamed]
      exact ih _ _ hactions hskipped
    · rw [copyExisting_left sel device hfresh (Bool.eq_false_iff.mpr hnamed) hleft]
      exact ih _ _ hactions hskipped
    · obtain ⟨errors', hcopied, -⟩ :=
        copyExisting_copied sel device errors haction hfresh (Bool.eq_false_iff.mpr hnamed) hleft
      rw [hcopied, List.append_cons done p (copiedOf base skip rest)]
      have hnext : (done ++ [p] ++ rest).Pairwise fun p q ↦ p.name ≠ q.name := by
        rwa [← List.append_cons]
      exact ih _ _ hactions hnext

/-! ### Copies of a valid layout -/

/-- Partitions that pass all checks in whichever order they are inserted, if only the extended one
comes before the logical ones. -/
structure ValidLayout (device : Target.Disk) (partitions : List Target.Partition) : Prop where
  sound : ∀ p ∈ partitions, Sound device p p
  beside : ∀ p ∈ partitions, ∀ q ∈ partitions, p ≠ q → Beside p q
  extended : ∀ p ∈ partitions, p.isLogical → ∃ e ∈ partitions, e.isExtended
  few : ((partitions.filter Target.Partition.isLogical).length : ℤ) ≤ maxExtParts
  size : ∀ p ∈ partitions, p.isExtended → logicalAdjustment ≤ (p.extent.size.sectors : ℤ)
  pools : ∀ p ∈ partitions, (p.inZpool ≠ none → device.inZpool ≠ p.inZpool) ∧
    (p.inVdev ≠ none → device.inVdev ≠ p.inVdev)

theorem extendedPart_ne_none {others : List Target.Partition} :
    extendedPart others ≠ none ↔ ∃ e ∈ others, e.isExtended := by
  rw [extendedPart, Ne, List.getLast?_eq_none_iff, List.filter_eq_nil_iff, not_forall]
  simp only [not_forall, not_not, exists_prop]

/-- With a logical partition that is not among them, not all logical ones are copied. -/
theorem length_logicalList_lt {partitions : List Target.Partition}
    (hdone : ∀ q ∈ done ++ [p], q ∈ partitions)
    (hnodup : (done ++ [p]).Nodup) (hlogical : p.isLogical) :
    (logicalList (done.map bare)).length <
    (partitions.filter Target.Partition.isLogical).length := by
  have hle : (logicalList (done.map bare)).length ≤
      (done.filter Target.Partition.isLogical).length := by
    rw [logicalList, List.filter_map, List.length_map]
    refine List.Sublist.length_le (List.monotone_filter_right done fun q hq ↦ ?_)
    exact (of_decide_eq_true hq).1
  have hsubset : (done ++ [p]).filter Target.Partition.isLogical ⊆
      partitions.filter Target.Partition.isLogical :=
    List.filter_subset _ hdone
  have hlength := (List.subperm_of_subset (hnodup.filter _) hsubset).length_le
  rw [List.filter_append, List.length_append, List.filter_singleton, hlogical] at hlength
  exact lt_of_le_of_lt hle hlength

/-- A copy passes the checks exactly if it is no logical one without an extended one. -/
theorem passes_iff {partitions : List Target.Partition} (hvalid : ValidLayout device partitions)
    (hactions : ∀ q ∈ partitions, q.action ≠ .create)
    (hnames : (done ++ [p]).Pairwise fun p q ↦ p.name ≠ q.name)
    (hdone : ∀ q ∈ done ++ [p], q ∈ partitions) :
    Passes device ((done.map bare).map Child.partition) (done.map bare) (bare p) (bare p) (bare p) ↔
      (p.isLogical → ∃ e ∈ done, e.isExtended) := by
  have hp : p ∈ partitions := hdone p (List.mem_append_right _ List.mem_cons_self)
  have hfresh : ∀ q ∈ done, q.name ≠ p.name := fun q hq ↦
    (List.pairwise_append.mp hnames).2.2 q hq p List.mem_cons_self
  have hextended : (∃ e ∈ done.map bare, e.isExtended) ↔ ∃ e ∈ done, e.isExtended := by
    simp only [List.mem_map, exists_exists_and_eq_and]
    rfl
  rw [← hextended, ← extendedPart_ne_none]
  constructor
  · intro h
    exact h.placed.extended
  · intro h
    refine ⟨?_, ⟨h, fun hlogical _ ↦ ?_⟩, ?_, ?_⟩
    · have hsound := hvalid.sound p hp
      exact ⟨hsound.typed, hsound.numbered, hsound.onDisk, hsound.free⟩
    · have hnodup : (done ++ [p]).Nodup := hnames.imp fun hne heq ↦
        hne (congrArg (fun p ↦ p.name) heq)
      have hlt : ((logicalList (done.map bare)).length : ℤ) <
          (partitions.filter Target.Partition.isLogical).length := by
        exact_mod_cast length_logicalList_lt hdone hnodup hlogical
      exact hlt.trans_le hvalid.few
    · intro q hq
      obtain ⟨other, hother, rfl⟩ := List.mem_map.mp hq
      have hbeside :=
          hvalid.beside p hp other (hdone other (List.mem_append_left _ hother)) fun heq ↦
        hfresh other hother (congrArg (fun p ↦ p.name) heq).symm
      exact ⟨hbeside.active, hbeside.inside, hbeside.apart, hbeside.extended⟩
    · refine ⟨fun child hchild ↦ ?_, hvalid.size p hp, fun _ hcreate ↦
        absurd hcreate (hactions p hp), (hvalid.pools p hp).1, (hvalid.pools p hp).2⟩
      have hmem := List.mem_of_mem_filter hchild
      obtain ⟨q, hq, rfl⟩ := List.mem_map.mp hmem
      obtain ⟨other, hother, rfl⟩ := List.mem_map.mp hq
      exact hfresh other hother

theorem NameLT.name_ne {p q : Target.Partition} (h : NameLT p q) : p.name ≠ q.name := by
  intro heq
  have hirrefl : NameLT p p := by
    rw [NameLT, nameText, nameText, ← heq] at h
    exact h
  exact nameLT_asymm hirrefl hirrefl

/-- No copy posts an error exactly if an extended partition is copied before each logical one. -/
theorem silent_iff (sel : Selection) {partitions : List Target.Partition}
    (hvalid : ValidLayout device partitions)
    (hactions : ∀ q ∈ partitions, q.action ≠ .create) (hsorted : (done ++ l).Pairwise NameLT)
    (hdone : ∀ q ∈ done ++ l, q ∈ partitions) :
    Silent sel device (mergeOf skip base done []) l ↔ ∀ p ∈ copiedOf base skip l, p.isLogical →
      ∃ e ∈ done ++ copiedOf base skip l, e.isExtended ∧ NameLT e p := by
  induction l generalizing skip done with
  | nil => exact ⟨fun _ p hp ↦ absurd hp List.not_mem_nil, fun _ ↦ trivial⟩
  | cons p rest ih =>
    have hp : p ∈ partitions := hdone p (List.mem_append_right _ List.mem_cons_self)
    have hfresh : ∀ q ∈ done, q.name ≠ p.name := fun q hq ↦
      ((List.pairwise_append.mp hsorted).2.2 q hq p List.mem_cons_self).name_ne
    have hsublist : (done ++ rest).Sublist (done ++ p :: rest) :=
      List.Sublist.append_left (List.sublist_cons_self p rest) done
    have hskipped : ∀ q ∈ done ++ rest, q ∈ partitions := fun q hq ↦ hdone q (hsublist.subset hq)
    have hsilent : ∀ {skip'}, copyExisting sel device (mergeOf skip base done []) p =
        .ok (mergeOf skip' base done []) →
        (Silent sel device (mergeOf skip base done []) (p :: rest) ↔
          Silent sel device (mergeOf skip' base done []) rest) := by
      intro skip' hcopy
      constructor
      · intro h
        exact (h _ hcopy).2
      · intro h next hnext
        obtain rfl : mergeOf skip' base done [] = next := Except.ok.inj (hcopy.symm.trans hnext)
        exact ⟨rfl, h⟩
    rw [copiedOf]
    split_ifs with hnamed hleft
    · rw [hsilent (copyExisting_named sel device hfresh hnamed)]
      exact ih (hsorted.sublist hsublist) hskipped
    · rw [hsilent (copyExisting_left sel device hfresh (Bool.eq_false_iff.mpr hnamed) hleft)]
      exact ih (hsorted.sublist hsublist) hskipped
    · obtain ⟨errors', hcopied, hpasses⟩ :=
        copyExisting_copied sel device [] (hactions p hp) hfresh
          (Bool.eq_false_iff.mpr hnamed) hleft
      have hnext : (done ++ [p] ++ rest).Pairwise NameLT := by rwa [← List.append_cons]
      have hdone' : ∀ q ∈ done ++ [p] ++ rest, q ∈ partitions := by rwa [← List.append_cons]
      have hnames : (done ++ [p]).Pairwise fun p q ↦ p.name ≠ q.name :=
        (List.pairwise_append.mp hnext).1.imp NameLT.name_ne
      rw [passes_iff hvalid hactions hnames fun q hq ↦
        hdone' q (List.mem_append_left _ hq)] at hpasses
      rw [List.append_cons done p (copiedOf base skip rest), List.forall_mem_cons]
      have hfirst : (Silent sel device (mergeOf skip base done []) (p :: rest) ↔
          (p.isLogical → ∃ e ∈ done, e.isExtended) ∧
              Silent sel device (mergeOf skip base (done ++ [p]) []) rest) := by
        constructor
        · intro h
          obtain ⟨hnil, hrest⟩ := h _ hcopied
          obtain rfl : errors' = [] := hnil
          exact ⟨hpasses.mp rfl, hrest⟩
        · rintro ⟨hextended, hrest⟩ next hmerge
          obtain rfl := Except.ok.inj (hcopied.symm.trans hmerge)
          obtain rfl : errors' = [] := hpasses.mpr hextended
          exact ⟨rfl, hrest⟩
      rw [hfirst, ih hnext hdone']
      refine and_congr ⟨fun h hlogical ↦ ?_, fun h hlogical ↦ ?_⟩ Iff.rfl
      · obtain ⟨e, he, hextended⟩ := h hlogical
        exact ⟨e, List.mem_append_left _ (List.mem_append_left _ he), hextended,
          (List.pairwise_append.mp hsorted).2.2 e he p List.mem_cons_self⟩
      · obtain ⟨e, he, hextended, hlt⟩ := h hlogical
        rcases List.mem_append.mp he with he | he
        · rcases List.mem_append.mp he with he | he
          · exact ⟨e, he, hextended⟩
          · rw [List.mem_singleton.mp he] at hlt
            exact absurd hlt (nameLT_asymm hlt)
        · have hmem := ((mem_copiedOf (List.pairwise_append.mp hnext).2.1).mp he).1
          exact absurd hlt
            (nameLT_asymm ((List.pairwise_cons.mp (List.pairwise_append.mp hsorted).2.1).1 e hmem))

end Copies

/-! ### One partition of the manifest -/

section Handle

variable {sel : Selection} {discovered : DiscoveredDisk} {device : Target.Disk}
  {others : List Target.Partition}
  {errors : List ShadowError} {s : Shadow} {partition : MfPartition}

/-- What a manifest partition adds to the new disk. -/
structure Added (existing : Option Target.Partition) (partition : MfPartition)
    (others : List Target.Partition) (v : Target.Partition) : Prop where
  named : ∀ name, partition.name = some name → v.name = name
  left : partition.action ≠ .create → partition.action ≠ .delete → ∃ p, existing = some p ∧ Left p v
  extended : partition.action = .useExistingSolaris2 → v.isLogical → extendedPart others ≠ none

theorem sliceLast_spec {existing : Option Target.Partition} {v : Target.Partition}
    (h : sliceLast sel device existing partition (shadowOf (others ++ [v]) errors) = .ok s) :
    ∃ v' errors', s = shadowOf (others ++ [v']) errors' ∧ v'.name = v.name ∧ v'.extent = v.extent ∧
      v'.partType = v.partType ∧ v'.action = v.action := by
  have hlast : (shadowOf (others ++ [v]) errors).children.getLast? = some (.partition v) := by
    rw [shadowOf, List.map_append]
    exact List.getLast?_concat
  rw [sliceLast, hlast] at h
  obtain ⟨result, -, rfl⟩ := map_eq_ok h
  refine ⟨{ v with slices := result.slices, inZpool := result.inZpool, inVdev := result.inVdev },
    result.errors, ?_, rfl, rfl, rfl, rfl⟩
  rw [shadowOf, shadowOf, List.map_append, List.map_append, List.map_singleton,
    List.dropLast_concat]
  rfl

theorem newPartition_cases {existing : Option Target.Partition} {result : Option MfPartition}
    (h : newPartition existing partition = .ok result) :
    result = none ∧ partition.action = .delete ∨
      (∃ p inZpool inVdev, existing = some p ∧ partition.action ≠ .create ∧ result =
        some { MfPartition.ofPartition p with action := partition.action, inZpool := inZpool, inVdev := inVdev }) ∨
      partition.action = .create ∧ result = some { partition with slices := [] } := by
  by_cases hkept : partition.action = .preserve ∨ partition.action = .delete ∨
    partition.action = .useExistingSolaris2
  · have hne : partition.action ≠ .create := by
      rcases hkept with h | h | h <;> rw [h] <;> decide
    replace h := (if_pos hkept).symm.trans h
    rcases existing with _ | p
    · by_cases hdelete : partition.action = .delete
      · replace h := (if_pos hdelete).symm.trans h
        exact Or.inl ⟨(Except.ok.inj h).symm, hdelete⟩
      · replace h := (if_neg hdelete).symm.trans h
        cases h
    · replace h := Except.ok.inj h
      split_ifs at h
      · exact Or.inr (Or.inl ⟨p, none, none, rfl, hne, h.symm⟩)
      · exact Or.inr (Or.inl ⟨p, p.inZpool, p.inVdev, rfl, hne, h.symm⟩)
  · replace h := (if_neg hkept).symm.trans h
    split_ifs at h with hcreate
    exact Or.inr (Or.inr ⟨hcreate, (Except.ok.inj h).symm⟩)

theorem toPartition_ofPartition (p : Target.Partition) (action : Action)
    (inZpool inVdev : Option (List Char)) (bootid : ℤ) :
    MfPartition.toPartition { MfPartition.ofPartition p with
      action := action, inZpool := inZpool, inVdev := inVdev, bootid := bootid } =
        .ok { p with action := action, inZpool := inZpool, inVdev := inVdev, bootid := bootid, slices := [] } :=
  rfl

/-- The insertion of a discovered partition, as it is but for its action, its pool and whether it is
active. -/
theorem added_of_kept {existing : Option Target.Partition} {p v' : Target.Partition}
    (hexisting : existing = some p)
    (hname : ∀ name, partition.name = some name → p.name = name)
    (haction : partition.action ≠ .create)
    (hv : v'.name = p.name ∧ v'.extent = p.extent ∧ v'.partType = p.partType ∧
      v'.action = partition.action)
    (hextended : partition.action = .useExistingSolaris2 → v'.isLogical →
      extendedPart others ≠ none) :
    Added existing partition others v' := by
  refine ⟨fun name h ↦ hv.1.trans (hname name h), fun _ hdelete ↦
    ⟨p, hexisting, hv.1, hv.2.1, hv.2.2.1, ?_, ?_⟩, hextended⟩
  · rw [hv.2.2.2]
    exact haction
  · rw [hv.2.2.2]
    exact hdelete

theorem mem_of_existingPartition {p : Target.Partition}
    (h : existingPartition discovered partition = some p) :
    p ∈ discovered.partitions := by
  rw [existingPartition] at h
  split at h
  · exact List.mem_of_find?_eq_some h
  · exact List.mem_of_head? h

theorem existingPartition_name {p : Target.Partition} {name : Name}
    (h : existingPartition discovered partition = some p)
    (hname : partition.name = some name) : p.name = name := by
  rw [existingPartition, hname] at h
  have hfound := List.find?_some (p := fun p : Target.Partition ↦ decide (p.name = name)) h
  exact of_decide_eq_true hfound

/-- A partition that is made or used is inserted without an error. -/
theorem makeOrUse_cases {existing : Option Target.Partition} {v : MfPartition} {s' : Shadow}
    (h : makeOrUse sel discovered device s existing partition v = .ok s') :
    ∃ v' new middle, placed sel device s partition
        (if v.isSolaris ∧ partition.isPrimary then { v with bootid := Partition.active }
          else v) = .ok v' ∧
      v'.toPartition = .ok new ∧ insertChildren sel device s new = .ok middle ∧ middle.errors = [] ∧
      sliceLast sel device existing partition middle = .ok s' := by
  obtain ⟨v', hplaced, h⟩ := bind_eq_ok h
  split_ifs at h
  obtain ⟨new, hnew, h⟩ := bind_eq_ok h
  obtain ⟨middle, hinsert, h⟩ := bind_eq_ok h
  rcases herrors : middle.errors with _ | ⟨error, rest⟩
  · rw [herrors] at h
    exact ⟨v', new, middle, hplaced, hnew, hinsert, herrors, h⟩
  · rw [herrors] at h
    cases h

/-- Only what is made is given a place. -/
theorem placed_of_ne_create {v v' : MfPartition} (haction : partition.action ≠ .create)
    (h : placed sel device s partition v = .ok v') : v' = v := by
  rw [placed, if_neg haction] at h
  split_ifs at h
  exact (Except.ok.inj h).symm

theorem placed_name {v v' : MfPartition} (h : placed sel device s partition v = .ok v') :
    v'.name = v.name := by
  rw [placed] at h
  split_ifs at h with hsize hcreate hlogical
  · split at h
    · cases h
    · split at h
      · cases h
      · rw [← Except.ok.inj h]
  · split at h
    · cases h
    · split at h
      · cases h
      · rw [← Except.ok.inj h]
  · rw [Except.ok.inj h]

theorem handlePartition_spec
    (h : handlePartition sel discovered device (shadowOf others errors) partition = .ok s) :
    s = shadowOf others errors ∧ partition.action = .delete ∨
      ∃ v errors', s = shadowOf (others ++ [v]) errors' ∧
        Added (existingPartition discovered partition) partition others v := by
  obtain ⟨result, hresult, h⟩ := bind_eq_ok h
  rcases newPartition_cases hresult with ⟨rfl, hdelete⟩ | ⟨p, inZpool, inVdev, hexisting, haction,
    rfl⟩ | ⟨hcreate, rfl⟩
  · exact Or.inl ⟨(Except.ok.inj h).symm, hdelete⟩
  · right
    by_cases huse : partition.action = .useExistingSolaris2 ∨ partition.action = .create
    · obtain ⟨v', new, middle, hplaced, hnew, hinsert, herrors, hsliced⟩ :=
        makeOrUse_cases ((if_pos huse).symm.trans h)
      obtain ⟨bootid, hv⟩ : ∃ bootid, v' = { MfPartition.ofPartition p with
          action := partition.action, inZpool := inZpool, inVdev := inVdev, bootid := bootid } := by
        rw [placed_of_ne_create haction hplaced]
        split_ifs
        · exact ⟨_, rfl⟩
        · exact ⟨p.bootid, rfl⟩
      rw [hv, toPartition_ofPartition] at hnew
      obtain rfl := Except.ok.inj hnew
      obtain ⟨errors', hkept, hpasses⟩ :=
          insertChildren_kept sel device others errors (v := { p with
        action := partition.action, inZpool := inZpool, inVdev := inVdev, bootid := bootid,
          slices := [] }) haction
      obtain rfl := Except.ok.inj (hkept.symm.trans hinsert)
      obtain ⟨w, errors'', hs, hw⟩ := sliceLast_spec hsliced
      refine ⟨w, errors'', hs, added_of_kept hexisting (fun name ↦
        existingPartition_name hexisting) haction hw
        fun _ hlogical ↦ ?_⟩
      refine (hpasses.mp herrors).placed.extended ?_
      rw [Partition.isLogical, Partition.isPrimary, hw.1] at hlogical
      exact hlogical
    · replace h := (if_neg huse).symm.trans h
      obtain ⟨errors', hinsert, -⟩ := insertChildren_kept sel device others errors
        (v := { p with action := partition.action, inZpool := inZpool, inVdev := inVdev, slices := [] }) haction
      obtain rfl := Except.ok.inj (hinsert.symm.trans h)
      exact ⟨_, errors', rfl, added_of_kept hexisting (fun name ↦
        existingPartition_name hexisting) haction
        ⟨rfl, rfl, rfl, rfl⟩ fun h ↦ absurd (Or.inl h) huse⟩
  · right
    obtain ⟨v', new, middle, hplaced, hnew, hinsert, herrors, hsliced⟩ :=
      makeOrUse_cases ((if_pos (Or.inr hcreate)).symm.trans h)
    obtain ⟨name, hname, hnewName⟩ : ∃ name, v'.name = some name ∧ new.name = name := by
      rw [MfPartition.toPartition] at hnew
      split at hnew
      · rename_i name startSector hname hstart
        exact ⟨name, hname, by rw [← Except.ok.inj hnew]⟩
      · cases hnew
    have hsame : partition.name = some name := by
      rw [placed_name hplaced] at hname
      split_ifs at hname
      · exact hname
      · exact hname
    obtain ⟨extent, errors', rfl, -⟩ := insertChildren_spec hinsert
    obtain ⟨w, errors'', hs, hw⟩ := sliceLast_spec hsliced
    refine ⟨w, errors'', hs, fun other hother ↦ ?_, fun hne ↦ absurd hcreate hne, fun huse ↦ ?_⟩
    · rw [hw.1, ← Option.some.inj (hsame.symm.trans hother)]
      exact hnewName
    · rw [hcreate] at huse
      cases huse

/-! ### The loop over the partitions to process -/

/-- Where a new partition comes from. -/
structure Origin (discovered : DiscoveredDisk) (partition : MfPartition) (v : Target.Partition) :
    Prop where
  named : partition.name = some v.name ∨ partition.name = none ∧ v.isLogical = false
  left : partition.action ≠ .create → partition.action ≠ .delete →
    ∃ p, existingPartition discovered partition = some p ∧ Left p v

/-- What the loop makes of the partitions of the new disk. -/
structure Grown (discovered : DiscoveredDisk) (partitions : List MfPartition)
    (others final : List Target.Partition) :
    Prop where
  kept : ∀ v ∈ others, v ∈ final
  origin : ∀ v ∈ final, v ∈ others ∨ ∃ partition ∈ partitions, Origin discovered partition v
  distinct : (others.map fun v ↦ v.name).Nodup → (final.map fun v ↦ v.name).Nodup
  present : ∀ partition ∈ partitions, partition.action ≠ .delete →
    ∀ name, partition.name = some name →
    ∃ v ∈ final, v.name = name

theorem inTemporaryPool_eq (sel : Selection) (partition : MfPartition) :
    (inTemporaryPool sel partition).name = partition.name ∧
    (inTemporaryPool sel partition).action = partition.action := by
  rw [inTemporaryPool]
  split_ifs
  · exact ⟨rfl, rfl⟩
  · exact ⟨rfl, rfl⟩

theorem hasChild_some {name : Name} :
    hasChild (shadowOf others errors) (some name) = false ↔ name ∉ others.map fun v ↦ v.name := by
  rw [hasChild, shadowOf]
  simp only [List.any_map, List.any_eq_false, Function.comp_apply, decide_eq_true_eq, List.mem_map,
    not_exists, not_and]
  rfl

theorem hasChild_none : hasChild (shadowOf others errors) none = false ↔ others = [] := by
  rw [hasChild, shadowOf]
  simp only [Bool.not_eq_false', List.isEmpty_iff, List.map_eq_nil_iff]

/-- A step of the loop adds at most one partition, with a name that is new. -/
theorem handleEach_cases (hnamed : partition.name = none → partition.action = .useExistingSolaris2)
    (h : handleEach sel discovered device false (shadowOf others errors) partition = .ok s) :
    (s = shadowOf others errors ∧
      ∀ name, partition.name = some name → partition.action ≠ .delete →
      name ∈ others.map fun v ↦ v.name) ∨
    ∃ v errors', s = shadowOf (others ++ [v]) errors' ∧ v.name ∉ (others.map fun v ↦ v.name) ∧
      Origin discovered partition v := by
  obtain ⟨hname, haction⟩ := inTemporaryPool_eq sel partition
  rw [handleEach] at h
  split_ifs at h with hchild
  · refine Or.inl ⟨(Except.ok.inj h).symm, fun name heq _ ↦ ?_⟩
    by_contra hnot
    rw [heq, hasChild_some.mpr hnot] at hchild
    exact absurd hchild.2 Bool.false_ne_true
  · have hfalse : hasChild (shadowOf others errors) partition.name = false :=
      Bool.eq_false_iff.mpr fun htrue ↦ hchild ⟨rfl, htrue⟩
    rcases handlePartition_spec h with ⟨hs, hdelete⟩ | ⟨v, errors', hs, hadded⟩
    · exact Or.inl ⟨hs, fun name _ hne ↦ absurd (haction.symm.trans hdelete) hne⟩
    · right
      have hexisting : existingPartition discovered (inTemporaryPool sel partition) =
          existingPartition discovered partition := by
        rw [existingPartition, hname]
        rfl
      rw [hexisting] at hadded
      refine ⟨v, errors', hs, ?_, ?_, fun hcreate hdelete ↦
        hadded.left (haction ▸ hcreate) (haction ▸ hdelete)⟩
      · rcases hcase : partition.name with _ | name
        · rw [hcase] at hfalse
          rw [hasChild_none.mp hfalse]
          exact List.not_mem_nil
        · rw [hcase] at hfalse
          rw [hadded.named name (hname.trans hcase)]
          exact hasChild_some.mp hfalse
      · rcases hcase : partition.name with _ | name
        · rw [hcase] at hfalse
          refine Or.inr ⟨rfl, Bool.eq_false_iff.mpr fun hlogical ↦ ?_⟩
          refine hadded.extended (haction.trans (hnamed hcase)) hlogical ?_
          rw [hasChild_none.mp hfalse]
          rfl
        · rw [hadded.named name (hname.trans hcase)]
          exact Or.inl rfl

/-- The run of the loop. -/
theorem foldlM_handleEach {partitions : List MfPartition}
    (hnamed : ∀ partition ∈ partitions, partition.name = none →
      partition.action = .useExistingSolaris2)
    (h : partitions.foldlM (handleEach sel discovered device false)
      (shadowOf others errors) = .ok s) :
    ∃ final errors', s = shadowOf final errors' ∧ Grown discovered partitions others final := by
  induction partitions generalizing others errors with
  | nil =>
    refine ⟨others, errors, (Except.ok.inj h).symm, fun _ hv ↦ hv, fun _ hv ↦ Or.inl hv, id, ?_⟩
    exact fun _ hpartition ↦ absurd hpartition List.not_mem_nil
  | cons partition rest ih =>
    obtain ⟨hfirst, hrest⟩ := List.forall_mem_cons.mp hnamed
    rw [List.foldlM_cons] at h
    obtain ⟨middle, hmiddle, h⟩ := bind_eq_ok h
    rcases handleEach_cases hfirst hmiddle with ⟨rfl, hpresent⟩ | ⟨v, errors', rfl, hfresh, horigin⟩
    · obtain ⟨final, errors', hs, hgrown⟩ := ih hrest h
      refine ⟨final, errors', hs, hgrown.kept, fun w hw ↦ ?_, hgrown.distinct, ?_⟩
      · exact (hgrown.origin w hw).imp_right fun ⟨p, hp, ho⟩ ↦ ⟨p, List.mem_cons_of_mem _ hp, ho⟩
      · refine List.forall_mem_cons.mpr ⟨fun hne name heq ↦ ?_, hgrown.present⟩
        obtain ⟨w, hw, hname⟩ := List.mem_map.mp (hpresent name heq hne)
        exact ⟨w, hgrown.kept w hw, hname⟩
    · obtain ⟨final, errors'', hs, hgrown⟩ := ih hrest h
      have hv : v ∈ final := hgrown.kept v (List.mem_append_right _ List.mem_cons_self)
      refine ⟨final, errors'', hs, fun w hw ↦ hgrown.kept w (List.mem_append_left _ hw),
        fun w hw ↦ ?_, fun hdistinct ↦ ?_, ?_⟩
      · rcases hgrown.origin w hw with hw | ⟨p, hp, ho⟩
        · rcases List.mem_append.mp hw with hw | hw
          · exact Or.inl hw
          · rw [List.mem_singleton.mp hw]
            exact Or.inr ⟨partition, List.mem_cons_self, horigin⟩
        · exact Or.inr ⟨p, List.mem_cons_of_mem _ hp, ho⟩
      · refine hgrown.distinct ?_
        rw [List.map_append, List.map_singleton]
        exact List.nodup_append.mpr ⟨hdistinct, List.nodup_singleton _,
            fun name hname other hother heq ↦
          hfresh (List.mem_singleton.mp hother ▸ heq ▸ hname)⟩
      · refine List.forall_mem_cons.mpr ⟨fun hne name heq ↦ ⟨v, hv, ?_⟩, hgrown.present⟩
        rcases horigin.named with hname | ⟨hnone, -⟩
        · exact Option.some.inj (hname.symm.trans heq)
        · rw [hnone] at heq
          cases heq

end Handle

/-! ### The partition without a name -/

/-- A discovered partition that a manifest partition without a name stands for. -/
def UsedSolaris (discovered : DiscoveredDisk) (disk : MfDisk) (p : Target.Partition) : Prop :=
  (∃ mf ∈ disk.partitions, mf.name = none) ∧ solarisPartition discovered = some p

section Substituted

variable {sel : Selection} {discovered : DiscoveredDisk} {disk : MfDisk} {base : List MfPartition}
  {p : Target.Partition}

theorem isNameless_iff {mf : MfPartition} (hmf : mf ∈ disk.partitions) :
    isNameless mf ↔ mf.name = none := by
  rw [isNameless, decide_eq_true_eq, Option.isNone_iff_eq_none]
  exact ⟨And.left, fun h ↦ ⟨h, disk.named mf hmf h⟩⟩

theorem find?_insertIdx {α : Type} {q : α → Bool} {x : α} (hx : q x = false) (k : ℕ) (l : List α) :
    (l.insertIdx k x).find? q = l.find? q := by
  induction l generalizing k with
  | nil =>
    cases k with
    | zero => exact List.find?_cons_of_neg (Bool.eq_false_iff.mp hx)
    | succ k => rfl
  | cons y rest ih =>
    cases k with
    | zero => exact List.find?_cons_of_neg (Bool.eq_false_iff.mp hx)
    | succ k => rw [List.insertIdx_succ_cons, List.find?_cons, List.find?_cons, ih]

theorem find?_eraseP {α : Type} {q r : α → Bool} {l : List α} (h : ∀ x ∈ l, r x → q x = false) :
    (l.eraseP r).find? q = l.find? q := by
  induction l with
  | nil => rfl
  | cons x rest ih =>
    obtain ⟨hx, hrest⟩ := List.forall_mem_cons.mp h
    by_cases hr : r x
    · rw [List.eraseP_cons_of_pos hr, List.find?_cons_of_neg (Bool.eq_false_iff.mp (hx hr))]
    · rw [List.eraseP_cons_of_neg hr, List.find?_cons, List.find?_cons, ih hrest]

theorem substitute_eq {wipeDisk : Bool} {solaris : Target.Partition}
    {partition copied : MfPartition} (h : substitute sel wipeDisk solaris partition = .ok copied) :
    copied.name = some solaris.name ∧ copied.action = partition.action := by
  rw [substitute] at h
  by_cases hslices : partition.slices.isEmpty
  · replace h := (if_pos hslices).symm.trans h
    rcases hpool : sel.rootPool with _ | rootPool
    · rw [hpool] at h
      cases h
    · rw [hpool] at h
      rw [← Except.ok.inj h]
      exact ⟨rfl, rfl⟩
  · replace h := (if_neg hslices).symm.trans h
    rw [← Except.ok.inj h]
    exact ⟨rfl, rfl⟩

/-- Either nothing is replaced, or a copy of a Solaris partition is put in place of a partition
without a name. -/
theorem substituted_cases (h : substituted sel discovered disk = .ok base) :
    base = disk.partitions ∧ (∀ mf ∈ disk.partitions, mf.name ≠ none) ∨
    ∃ solaris copied k, UsedSolaris discovered disk solaris ∧ copied.name = some solaris.name ∧
      copied.action = .useExistingSolaris2 ∧ k ≤ (disk.partitions.eraseP isNameless).length ∧
      base = (disk.partitions.eraseP isNameless).insertIdx k copied := by
  rw [substituted] at h
  rcases hfind : disk.partitions.find? isNameless with _ | partition
  · rw [hfind] at h
    refine Or.inl ⟨(Except.ok.inj h).symm, fun mf hmf hname ↦ ?_⟩
    exact List.find?_eq_none.mp hfind mf hmf ((isNameless_iff hmf).mpr hname)
  · rw [hfind] at h
    have hmem := List.mem_of_find?_eq_some hfind
    have hname := (isNameless_iff hmem).mp (List.find?_some hfind)
    rcases hsolaris : solarisPartition discovered with _ | solaris
    · rw [hsolaris] at h
      cases h
    · rw [hsolaris] at h
      obtain ⟨copied, hcopied, rfl⟩ := map_eq_ok h
      refine Or.inr ⟨solaris, copied, _, ⟨⟨partition, hmem, hname⟩, hsolaris⟩, ?_, ?_, ?_, rfl⟩
      · exact (substitute_eq hcopied).1
      · exact (substitute_eq hcopied).2.trans (disk.named partition hmem hname)
      · exact insertPlace_le _ _

theorem UsedSolaris.mem (h : UsedSolaris discovered disk p) :
    p ∈ discovered.partitions ∧ isSolaris p.partType p.isLinuxSwap :=
  List.mem_filter.mp (List.mem_of_getLast? h.2)

/-- The partitions of the list. -/
theorem mem_substituted (h : substituted sel discovered disk = .ok base) {mf : MfPartition}
    (hmf : mf ∈ base) :
    mf ∈ disk.partitions ∨ ∃ solaris, UsedSolaris discovered disk solaris ∧
    mf.name = some solaris.name ∧
      mf.action = .useExistingSolaris2 := by
  rcases substituted_cases h with ⟨rfl, -⟩ | ⟨solaris, copied, k, hused, hname, haction, hk, rfl⟩
  · exact Or.inl hmf
  · rcases (List.mem_insertIdx hk).mp hmf with rfl | hmf
    · exact Or.inr ⟨solaris, hused, hname, haction⟩
    · exact Or.inl (List.mem_of_mem_eraseP hmf)

/-- The Solaris partition that is used is in the list. -/
theorem exists_of_used (h : substituted sel discovered disk = .ok base)
    (hused : UsedSolaris discovered disk p) :
    ∃ mf ∈ base, mf.name = some p.name ∧ mf.action = .useExistingSolaris2 := by
  rcases substituted_cases h with ⟨-, hnamed⟩ | ⟨solaris, copied, k, hused', hname,
    haction, hk, rfl⟩
  · obtain ⟨mf, hmf, hnone⟩ := hused.1
    exact absurd hnone (hnamed mf hmf)
  · obtain rfl := Option.some.inj (hused.2.symm.trans hused'.2)
    exact ⟨copied, (List.mem_insertIdx hk).mpr (Or.inl rfl), hname, haction⟩

/-- No partition with a name is removed. -/
theorem mem_of_named (h : substituted sel discovered disk = .ok base) {mf : MfPartition}
    (hmf : mf ∈ disk.partitions) (hname : mf.name ≠ none) : mf ∈ base := by
  rcases substituted_cases h with ⟨rfl, -⟩ | ⟨solaris, copied, k, -, -, -, hk, rfl⟩
  · exact hmf
  · refine (List.mem_insertIdx hk).mpr (Or.inr ((List.mem_eraseP_of_neg ?_).mpr hmf))
    exact fun hnameless ↦ hname ((isNameless_iff hmf).mp hnameless)

/-- What the list names. -/
theorem namedBy_eq_none_iff (h : substituted sel discovered disk = .ok base) :
    (namedBy base p).isSome = false ↔
    Unnamed disk p ∧ ∀ solaris, UsedSolaris discovered disk solaris →
      solaris.name ≠ p.name := by
  rw [Option.isSome_eq_false_iff, Option.isNone_iff_eq_none, namedBy, List.find?_eq_none]
  simp only [decide_eq_true_eq]
  constructor
  · intro hall
    refine ⟨fun mf hmf hname ↦ ?_, fun solaris hused heq ↦ ?_⟩
    · exact hall mf (mem_of_named h hmf (hname ▸ Option.some_ne_none _)) hname
    · obtain ⟨mf, hmf, hname, -⟩ := exists_of_used h hused
      exact hall mf hmf (hname.trans (congrArg some heq))
  · rintro ⟨hunnamed, hused⟩ mf hmf hname
    rcases mem_substituted h hmf with hmf | ⟨solaris, hsolaris, hsame, -⟩
    · exact hunnamed mf hmf hname
    · exact hused solaris hsolaris (Option.some.inj (hsame.symm.trans hname))

theorem not_isSolaris_of_isExtended (h : p.isExtended) :
    isSolaris p.partType p.isLinuxSwap = false := by
  rw [Partition.isExtended, Bool.and_eq_true, Option.any_eq_true_iff_get] at h
  obtain ⟨-, hsome, hmem⟩ := h
  obtain ⟨partType, hpartType⟩ := Option.isSome_iff_exists.mp hsome
  rw [isSolaris, decide_eq_false_iff_not, hpartType]
  simp only [hpartType, Option.get_some, List.contains_iff_mem, Partition.extendedIdList,
    List.mem_cons, List.not_mem_nil, or_false] at hmem
  simp only [Option.some.injEq, Partition.solarisLinuxSwap, Partition.solaris2]
  omega

/-- An extended partition is replaced by the list exactly if it is by the manifest. -/
theorem replaces_iff (h : substituted sel discovered disk = .ok base)
    (hnames : ∀ q ∈ discovered.partitions, q.name = p.name → q = p) :
    replaces base p ↔ Replaced disk p := by
  have hfind : p.isExtended → namedBy base p = disk.partitions.find? fun mf ↦
      mf.name = some p.name := by
    intro hextended
    rcases substituted_cases h with ⟨rfl, -⟩ | ⟨solaris, copied, k, hused, hname, -, -, rfl⟩
    · rfl
    · have hne : solaris.name ≠ p.name := by
        intro heq
        have hsolaris := hused.mem.2
        rw [hnames solaris hused.mem.1 heq, not_isSolaris_of_isExtended hextended] at hsolaris
        cases hsolaris
      rw [namedBy, find?_insertIdx, find?_eraseP]
      · intro mf hmf hnameless
        rw [decide_eq_false_iff_not, (isNameless_iff hmf).mp hnameless]
        exact (Option.some_ne_none _).symm
      · rw [decide_eq_false_iff_not, hname]
        exact fun heq ↦ hne (Option.some.inj heq)
  rw [replaces, Replaced, Bool.and_eq_true, Option.any_eq_true]
  constructor
  · rintro ⟨hextended, mf, hmf, haction⟩
    exact ⟨hextended, mf, (hfind hextended).symm.trans hmf, of_decide_eq_true haction⟩
  · rintro ⟨hextended, mf, hmf, haction⟩
    exact ⟨hextended, mf, (hfind hextended).trans hmf, decide_eq_true haction⟩

end Substituted

/-! ### The disk -/

section Disk

variable {sel : Selection} {discovered : DiscoveredDisk} {disk : MfDisk} {p q : Target.Partition}

instance : Std.Total NameLE := ⟨fun p q ↦ List.le_total (nameText p) (nameText q)⟩

instance : IsTrans Target.Partition NameLE := ⟨fun _ _ _ h h' ↦ List.le_trans h h'⟩

theorem DiscoveredDisk.mem_sorted : p ∈ discovered.sorted ↔ p ∈ discovered.partitions :=
  List.mem_insertionSort NameLE

/-- The texts of the names are in order, no two the same. -/
theorem DiscoveredDisk.sorted_pairwise (discovered : DiscoveredDisk) :
    discovered.sorted.Pairwise NameLT := by
  have hperm : discovered.sorted.Perm discovered.partitions :=
    List.perm_insertionSort NameLE discovered.partitions
  have hdistinct : discovered.sorted.Pairwise fun p q ↦ nameText p ≠ nameText q :=
    List.pairwise_map.mp ((hperm.map nameText).nodup_iff.mpr discovered.distinct)
  have hle : discovered.sorted.Pairwise NameLE :=
    List.pairwise_insertionSort NameLE discovered.partitions
  refine (hle.and hdistinct).imp fun ⟨hle, hne⟩ ↦ ?_
  exact (List.le_iff_lt_or_eq.mp hle).resolve_right hne

/-- A discovered partition is known by its name. -/
theorem DiscoveredDisk.eq_of_name (hp : p ∈ discovered.partitions) (hq : q ∈ discovered.partitions)
    (h : q.name = p.name) : q = p := by
  refine List.inj_on_of_nodup_map discovered.distinct hq hp ?_
  rw [nameText, nameText, h]

theorem DiscoveredDisk.action_ne (hp : p ∈ discovered.partitions) :
    p.action ≠ .create ∧ p.action ≠ .delete := by
  rw [discovered.preserved p hp]
  exact ⟨by decide, by decide⟩

/-- The copies and what is made of them. -/
theorem handleDisk_cases (hwhole : disk.wholeDisk = false) {s : Shadow}
    (h : handleDisk sel discovered disk = .ok s) :
    ∃ base final errors, substituted sel discovered disk = .ok base ∧ s = shadowOf final errors ∧
      Grown discovered (base ++ (copiedOf base false discovered.sorted).map MfPartition.ofPartition)
        ((copiedOf base false discovered.sorted).map bare) final := by
  rw [handleDisk, hwhole] at h
  by_cases hempty : disk.partitions.isEmpty
  · cases (if_pos hempty).symm.trans h
  obtain ⟨base, hbase, h⟩ := bind_eq_ok ((if_neg hempty).symm.trans h)
  obtain ⟨merge, hmerge, h⟩ := bind_eq_ok h
  have hnames : ([] ++ discovered.sorted).Pairwise fun p q : Target.Partition ↦ p.name ≠ q.name :=
    discovered.sorted_pairwise.imp NameLT.name_ne
  obtain ⟨skip, errors, hcopied⟩ := foldlM_copyExisting sel (newDevice sel discovered) base false []
    (fun p hp ↦ (DiscoveredDisk.action_ne (DiscoveredDisk.mem_sorted.mp hp)).1) hnames
  have hstart : mergeOf false base [] [] = ⟨false, base, ⟨[], []⟩⟩ := by
    rw [mergeOf, List.map_nil, List.append_nil]
    rfl
  rw [hstart] at hcopied
  obtain rfl := Except.ok.inj (hcopied.symm.trans ((if_neg Bool.false_ne_true).symm.trans hmerge))
  by_cases hseveral : 1 <
      ((mergeOf skip base ([] ++ copiedOf base false discovered.sorted) errors).partitions.filter
      MfPartition.isExtended).length
  · cases (if_pos hseveral).symm.trans h
  obtain ⟨last, hlast, h⟩ := bind_eq_ok ((if_neg hseveral).symm.trans h)
  have hnamed : ∀ mf ∈ base ++ (copiedOf base false discovered.sorted).map MfPartition.ofPartition,
      mf.name = none → mf.action = .useExistingSolaris2 := by
    intro mf hmf hname
    rcases List.mem_append.mp hmf with hmf | hmf
    · rcases mem_substituted hbase hmf with hmf | ⟨solaris, -, hsome, -⟩
      · exact disk.named mf hmf hname
      · rw [hname] at hsome
        cases hsome
    · obtain ⟨p, -, rfl⟩ := List.mem_map.mp hmf
      cases hname
  obtain ⟨final, errors', hs, hgrown⟩ := foldlM_handleEach hnamed hlast
  refine ⟨base, final, errors', hbase, ?_, hgrown⟩
  split_ifs at h
  rw [← Except.ok.inj h]
  exact hs

section Final

variable {base : List MfPartition} {final : List Target.Partition}
  (hbase : substituted sel discovered disk = .ok base)
  (hgrown : Grown discovered
    (base ++ (copiedOf base false discovered.sorted).map MfPartition.ofPartition)
    ((copiedOf base false discovered.sorted).map bare) final)

include hbase

/-- The copies. -/
theorem mem_copied_iff (hp : p ∈ discovered.partitions) :
    p ∈ copiedOf base false discovered.sorted ↔ Unnamed disk p ∧ ¬ UsedSolaris discovered disk p ∧
      (p.isLogical → ∀ r ∈ discovered.partitions, Replaced disk r → ¬ NameLT r p) := by
  have hused : (∀ solaris, UsedSolaris discovered disk solaris → solaris.name ≠ p.name) ↔
      ¬ UsedSolaris discovered disk p := by
    constructor
    · exact fun h hused ↦ h p hused rfl
    · intro h solaris hused heq
      rw [DiscoveredDisk.eq_of_name hp hused.mem.1 heq] at hused
      exact h hused
  rw [mem_copiedOf discovered.sorted_pairwise, namedBy_eq_none_iff hbase, hused,
    DiscoveredDisk.mem_sorted, and_assoc]
  have hreplaces : (∀ r ∈ discovered.sorted, replaces base r → ¬ NameLT r p) ↔
      ∀ r ∈ discovered.partitions, Replaced disk r → ¬ NameLT r p := by
    refine forall_congr' fun r ↦ ?_
    rw [DiscoveredDisk.mem_sorted]
    refine forall_congr' fun hr ↦ ?_
    rw [replaces_iff hbase fun q hq ↦ DiscoveredDisk.eq_of_name hr hq]
  rw [hreplaces]
  simp only [hp, true_and]

include hgrown

/-- A partition of the new disk with the name of one that the manifest does not name. -/
theorem origin_of_unnamed (hp : p ∈ discovered.partitions) (hunnamed : Unnamed disk p)
    {v : Target.Partition} (hv : v ∈ final) (hname : v.name = p.name) :
    Left p v ∧ (p ∈ copiedOf base false discovered.sorted ∨ UsedSolaris discovered disk p ∨
      v.isLogical = false) := by
  rcases hgrown.origin v hv with hv | ⟨mf, hmf, horigin⟩
  · obtain ⟨q, hq, rfl⟩ := List.mem_map.mp hv
    have hmem := ((mem_copiedOf discovered.sorted_pairwise).mp hq).1
    obtain rfl := DiscoveredDisk.eq_of_name hp (DiscoveredDisk.mem_sorted.mp hmem) hname
    exact ⟨⟨rfl, rfl, rfl, (DiscoveredDisk.action_ne hp).1, (DiscoveredDisk.action_ne hp).2⟩,
      Or.inl hq⟩
  · have hkinds : mf.action = .useExistingSolaris2 ∧
        (UsedSolaris discovered disk p ∨ v.isLogical = false) ∨
        mf.action = .preserve ∧ p ∈ copiedOf base false discovered.sorted := by
      rcases List.mem_append.mp hmf with hmf | hmf
      · left
        rcases mem_substituted hbase hmf with hmf | ⟨solaris, hused, hsolaris, haction⟩
        · rcases horigin.named with hsome | ⟨hnone, hlogical⟩
          · exact absurd (hsome.trans (congrArg some hname)) (hunnamed mf hmf)
          · exact ⟨disk.named mf hmf hnone, Or.inr hlogical⟩
        · refine ⟨haction, horigin.named.imp (fun hsome ↦ ?_) And.right⟩
          have heq : solaris.name = p.name :=
            (Option.some.inj (hsolaris.symm.trans hsome)).trans hname
          rw [← DiscoveredDisk.eq_of_name hp hused.mem.1 heq]
          exact hused
      · right
        obtain ⟨q, hq, rfl⟩ := List.mem_map.mp hmf
        have hmem :=
          DiscoveredDisk.mem_sorted.mp ((mem_copiedOf discovered.sorted_pairwise).mp hq).1
        rcases horigin.named with hsome | ⟨hnone, -⟩
        · have heq : q.name = p.name := (Option.some.inj hsome).trans hname
          rw [DiscoveredDisk.eq_of_name hp hmem heq] at hq
          exact ⟨discovered.preserved q hmem, hq⟩
        · cases hnone
    have hactions : mf.action ≠ .create ∧ mf.action ≠ .delete := by
      rcases hkinds with ⟨haction, -⟩ | ⟨haction, -⟩ <;> rw [haction] <;>
        exact ⟨by decide, by decide⟩
    obtain ⟨other, hother, hleft⟩ := horigin.left hactions.1 hactions.2
    have heq := DiscoveredDisk.eq_of_name hp (mem_of_existingPartition hother)
      (hleft.name.symm.trans hname)
    rw [heq] at hleft
    exact ⟨hleft, hkinds.elim (fun h ↦ Or.inr h.2) fun h ↦ Or.inl h.2⟩

/-- A partition that is copied or used is left as it is. -/
theorem exists_left (hp : p ∈ discovered.partitions) (hunnamed : Unnamed disk p)
    (h : p ∈ copiedOf base false discovered.sorted ∨ UsedSolaris discovered disk p) :
    ∃ v ∈ final, Left p v := by
  obtain ⟨v, hv, hname⟩ : ∃ v ∈ final, v.name = p.name := by
    rcases h with hcopied | hused
    · exact ⟨bare p, hgrown.kept _ (List.mem_map_of_mem hcopied), rfl⟩
    · obtain ⟨mf, hmf, hname, haction⟩ := exists_of_used hbase hused
      refine hgrown.present mf (List.mem_append_left _ hmf) ?_ p.name hname
      rw [haction]
      decide
  exact ⟨v, hv, (origin_of_unnamed hbase hgrown hp hunnamed hv hname).1⟩

/-- A logical partition that is neither copied nor used is not on the new disk. -/
theorem name_ne_of_dropped (hp : p ∈ discovered.partitions) (hunnamed : Unnamed disk p)
    (hlogical : p.isLogical)
    (hcopied : p ∉ copiedOf base false discovered.sorted)
    (hused : ¬ UsedSolaris discovered disk p) :
    ∀ v ∈ final, v.name ≠ p.name := by
  intro v hv hname
  rcases (origin_of_unnamed hbase hgrown hp hunnamed hv hname).2 with h | h | h
  · exact hcopied h
  · exact hused h
  · rw [Partition.isLogical, Partition.isPrimary, hname] at h
    exact Bool.false_ne_true (h.symm.trans hlogical)

omit hbase in
theorem nodup_final : (final.map fun v ↦ v.name).Nodup := by
  refine hgrown.distinct ?_
  rw [List.map_map]
  have hcopied := discovered.sorted_pairwise.sublist (copiedOf_sublist base false discovered.sorted)
  exact List.pairwise_map.mpr (hcopied.imp NameLT.name_ne)

end Final

/-! ### When the promise is kept -/

/-- A logical partition that the manifest does not name is not the Solaris partition that an entry
without a name stands for. It comes after an extended one that is replaced, if there is one, and in
a valid layout after one that is replaced or not named. -/
structure InOrder (discovered : DiscoveredDisk) (disk : MfDisk) (device : Target.Disk) : Prop where
  replaced : (∃ e ∈ discovered.partitions, Replaced disk e) → ∀ p ∈ discovered.partitions,
    Unnamed disk p → p.isLogical →
    ¬ UsedSolaris discovered disk p ∧ ∃ r ∈ discovered.partitions, Replaced disk r ∧ NameLT r p
  copied : ValidLayout device discovered.partitions → ∀ p ∈ discovered.partitions, Unnamed disk p →
    p.isLogical →
    ¬ UsedSolaris discovered disk p → ∃ e ∈ discovered.partitions,
      e.isExtended ∧ (Replaced disk e ∨ Unnamed disk e) ∧
      NameLT e p

/-- The copies of a valid layout post no error exactly if its logical partitions are in order. -/
theorem copiesQuiet_iff {base : List MfPartition}
    (hbase : substituted sel discovered disk = .ok base)
    (hvalid : ValidLayout (newDevice sel discovered) discovered.partitions) :
    CopiesQuiet sel discovered disk ↔ ∀ p ∈ discovered.partitions, Unnamed disk p → p.isLogical →
      ¬ UsedSolaris discovered disk p → ∃ e ∈ discovered.partitions, e.isExtended ∧
        (Replaced disk e ∨ Unnamed disk e) ∧ NameLT e p := by
  have hsilent : CopiesQuiet sel discovered disk ↔
      Silent sel (newDevice sel discovered) (mergeOf false base [] []) discovered.sorted := by
    have hstart : mergeOf false base [] [] = ⟨false, base, ⟨[], []⟩⟩ := by
      rw [mergeOf, List.map_nil, List.append_nil]
      rfl
    rw [hstart]
    constructor
    · exact fun h ↦ h base hbase
    · intro h partitions hpartitions
      obtain rfl := Except.ok.inj (hbase.symm.trans hpartitions)
      exact h
  rw [hsilent, silent_iff sel hvalid (fun p hp ↦
    (DiscoveredDisk.action_ne hp).1) discovered.sorted_pairwise
    fun p hp ↦ DiscoveredDisk.mem_sorted.mp hp]
  constructor
  · intro hcopies p hp hunnamed hlogical hused
    by_cases hcopied : p ∈ copiedOf base false discovered.sorted
    · obtain ⟨e, he, hextended, hlt⟩ := hcopies p hcopied hlogical
      have hmem := DiscoveredDisk.mem_sorted.mp ((mem_copiedOf discovered.sorted_pairwise).mp he).1
      exact ⟨e, hmem, hextended, Or.inr ((mem_copied_iff hbase hmem).mp he).1, hlt⟩
    · rw [mem_copied_iff hbase hp] at hcopied
      by_contra hnone
      refine hcopied ⟨hunnamed, hused, fun _ r hr hreplaced hlt ↦
        hnone ⟨r, hr, hreplaced.1, Or.inl hreplaced, hlt⟩⟩
  · intro horder p hcopied hlogical
    have hp := DiscoveredDisk.mem_sorted.mp ((mem_copiedOf discovered.sorted_pairwise).mp hcopied).1
    obtain ⟨hunnamed, hused, hreplaced⟩ := (mem_copied_iff hbase hp).mp hcopied
    obtain ⟨e, he, hextended, hkind, hlt⟩ := horder p hp hunnamed hlogical hused
    refine ⟨e, (mem_copied_iff hbase he).mpr ⟨?_, ?_, ?_⟩, hextended, hlt⟩
    · exact hkind.resolve_left fun h ↦ hreplaced hlogical e he h hlt
    · intro hsolaris
      have hboth := hsolaris.mem.2
      rw [not_isSolaris_of_isExtended hextended] at hboth
      cases hboth
    · intro hlogical'
      have hprimary := (Bool.and_eq_true _ _ ▸ hextended : e.isPrimary = true ∧ _).1
      rw [Partition.isLogical, hprimary] at hlogical'
      cases hlogical'

/-- The partitions that the manifest does not name survive exactly if the logical ones are in order.
-/
theorem unnamedSurvive_iff (sel : Selection) (discovered : DiscoveredDisk) (disk : MfDisk)
    (hwhole : disk.wholeDisk = false) {s : Shadow} (h : handleDisk sel discovered disk = .ok s) :
    UnnamedSurvive discovered disk s.children ∧
        (ValidLayout (newDevice sel discovered) discovered.partitions →
          CopiesQuiet sel discovered disk) ↔
      InOrder discovered disk (newDevice sel discovered) := by
  obtain ⟨base, final, errors, hbase, rfl, hgrown⟩ := handleDisk_cases hwhole h
  have hnames : (shadowOf final errors).children.map (fun child ↦ child.physical.name) =
      final.map fun v ↦ v.name := by
    rw [shadowOf, List.map_map]
    rfl
  constructor
  · rintro ⟨hsurvive, hquiet⟩
    refine ⟨fun ⟨e, he, hreplaced⟩ p hp hunnamed hlogical ↦ ?_, fun hvalid ↦
      (copiesQuiet_iff hbase hvalid).mp (hquiet hvalid)⟩
    have hnot : ∀ v ∈ final, ¬ Left p v := fun v hv hleft ↦
      hsurvive.dropped e he hreplaced p hp hunnamed hlogical (.partition v)
        (List.mem_map_of_mem hv) hleft.name
    have hneither : ¬ (p ∈ copiedOf base false discovered.sorted ∨
        UsedSolaris discovered disk p) := by
      intro h
      obtain ⟨v, hv, hleft⟩ := exists_left hbase hgrown hp hunnamed h
      exact hnot v hv hleft
    refine ⟨fun hused ↦ hneither (Or.inr hused), ?_⟩
    by_contra hnone
    refine hneither (Or.inl ((mem_copied_iff hbase hp).mpr ⟨hunnamed,
      fun hused ↦ hneither (Or.inr hused), ?_⟩))
    exact fun _ r hr hreplaced hlt ↦ hnone ⟨r, hr, hreplaced, hlt⟩
  · intro horder
    refine ⟨⟨?_, fun p hp hunnamed hexempt ↦ ?_,
        fun e he hreplaced p hp hunnamed hlogical child hchild ↦ ?_⟩, fun hvalid ↦
      (copiesQuiet_iff hbase hvalid).mpr (horder.copied hvalid)⟩
    · rw [hnames]
      exact nodup_final hgrown
    · obtain ⟨v, hv, hleft⟩ := exists_left hbase hgrown hp hunnamed (by
        by_cases hused : UsedSolaris discovered disk p
        · exact Or.inr hused
        · exact Or.inl ((mem_copied_iff hbase hp).mpr ⟨hunnamed, hused,
              fun hlogical r hr hreplaced _ ↦
            hexempt hlogical r hr hreplaced⟩))
      refine ⟨v, ?_, hleft⟩
      rw [shadowOf, partitionsOf_map]
      exact hv
    · obtain ⟨v, hv, rfl⟩ := List.mem_map.mp hchild
      obtain ⟨hused, r, hr, hreplaced', hlt⟩ :=
        horder.replaced ⟨e, he, hreplaced⟩ p hp hunnamed hlogical
      exact name_ne_of_dropped hbase hgrown hp hunnamed hlogical
        (fun hcopied ↦ ((mem_copied_iff hbase hp).mp hcopied).2.2 hlogical r hr hreplaced' hlt)
          hused v hv

end Disk

/-! ### An extended partition with six logical ones -/

/-- A selection without pools. -/
def withoutPools : Selection where
  floats := noFloats
  rootPool := none
  rootVdev := none
  isGeneratedRootPool := false
  vdevMap := []
  setVtoc := id
  handleSlices _ v _ errors := .ok ⟨v.slices, v.inZpool, v.inVdev, errors⟩

/-- A discovered partition. -/
def found (name : Name) (partType startSector : ℤ) (sectors : ℕ) : Target.Partition where
  name := name
  action := .preserve
  extent := ⟨startSector, Size.secs sectors⟩
  inZpool := none
  inVdev := none
  partType := some partType
  bootid := 0
  isLinuxSwap := false
  slices := []

def two : Name := ⟨.text ['2'], 2, rfl⟩

def ten : Name := ⟨.text ['1', '0'], 10, rfl⟩

/-- Partition 2 is an extended one with logical partitions 5 to 10. -/
def sixLogicals : DiscoveredDisk where
  device := { tenCylinders with devSize := Size.secs 10000, label := vtoc }
  partitions := [found two 5 10 9000, found ⟨.text ['5'], 5, rfl⟩ 131 1000 500,
    found ⟨.text ['6'], 6, rfl⟩ 131 2000 500,
    found ⟨.text ['7'], 7, rfl⟩ 131 3000 500, found ⟨.text ['8'], 8, rfl⟩ 131 4000 500,
    found ⟨.text ['9'], 9, rfl⟩ 131 5000 500, found ten 131 6000 500]
  texts := by decide
  distinct := by decide
  preserved := by decide

/-- The manifest deletes partition 2. -/
def deleteTwo : MfDisk where
  wholeDisk := false
  partitions := [⟨some two, .delete, none, Size.secs 0, none, none, some 5, 0, false, []⟩]
  named := by decide

theorem unnamedSurvive_sample :
    UnnamedSurvive sixLogicals deleteTwo
        (shadowOf [found ten 131 6000 500, { found two 5 10 9000 with action := .delete }]
          []).children ∧
      (ValidLayout (newDevice withoutPools sixLogicals) sixLogicals.partitions →
        CopiesQuiet withoutPools sixLogicals deleteTwo) ↔
      InOrder sixLogicals deleteTwo (newDevice withoutPools sixLogicals) :=
  unnamedSurvive_iff withoutPools sixLogicals deleteTwo rfl rfl

/-- The text of name 10 is before that of name 2, and the logical partition stays when the extended
one is deleted. -/
theorem not_unnamedSurvive_ten :
    handleDisk withoutPools sixLogicals deleteTwo =
      .ok (shadowOf [found ten 131 6000 500, { found two 5 10 9000 with action := .delete }] []) ∧
    ¬ UnnamedSurvive sixLogicals deleteTwo
      (shadowOf [found ten 131 6000 500, { found two 5 10 9000 with action := .delete }]
          []).children := by
  refine ⟨rfl, fun h ↦ ?_⟩
  have hreplaced : Replaced deleteTwo (found two 5 10 9000) := ⟨rfl, _, rfl, Or.inr rfl⟩
  have hunnamed : Unnamed deleteTwo (found ten 131 6000 500) := by
    intro mf hmf
    rw [List.mem_singleton.mp hmf]
    decide
  exact h.dropped (found two 5 10 9000) List.mem_cons_self hreplaced (found ten 131 6000 500)
    (List.mem_of_getLast? rfl) hunnamed rfl (.partition (found ten 131 6000 500))
      List.mem_cons_self rfl

end Userland.Install.TargetSelection.HandleDisk
