import Userland.Install.Target.ShadowPhysical

/-!
# Slices that are inserted and removed

Every insertion that leaves no posted error keeps the slices apart. What it does not look at is the
end of a slice, which may be after that of the container, and names that differ and stand for one
number. In every run whose insertions have neither (`Sits`), the layout is right in every state
(`layout_of_reached`).
-/

set_option autoImplicit false
set_option relaxedAutoImplicit false

namespace Userland.Install.Target

open Library Library.Program

/-- The sectors of a child. -/
def Child.sectors (child : Child) : Set ℤ :=
  Set.Ico child.physical.extent.startSector child.physical.extent.stop

/-- The children that are not to be deleted. -/
def live (children : List Child) : List Child :=
  children.filter fun child ↦ child.physical.action ≠ .delete

/-- Slice 2 of a VTOC label is over the others. -/
def Container.IsOverlay (container : Container) (child : Child) : Prop :=
  container.drive.label = vtoc ∧ child.physical.name.number = 2

/-- The slices have distinct numbers and are not too many, end in the container, and no two of them
have a sector in common. -/
structure Layout (container : Container) (children : List Child) : Prop where
  numbers : (live children).Pairwise fun a b ↦ a.physical.name.number ≠ b.physical.name.number
  count : (live children).length ≤ container.drive.kernelArch.vNumpar
  ends : ∀ child ∈ live children, child.physical.extent.stop ≤ container.parentSize
  disjoint : (live children).Pairwise fun a b ↦ ¬ container.IsOverlay a → ¬ container.IsOverlay b →
    Disjoint a.sectors b.sectors

/-- Where a slice ends after it was moved to cylinders. -/
def roundedStop (container : Container) (v : Slice) : ℤ :=
  if isRounded container v ∧ v.action = .create then
    (firstCyl container.drive.cylsize v.extent + capCyls container.drive .slice
      (lastCyl container.drive.cylsize v.extent - firstCyl container.drive.cylsize v.extent)) *
        container.drive.cylsize
  else v.extent.stop

/-- A slice that is not to be deleted ends in the container, and its number is that of no slice with
another name. -/
def Sits (container : Container) (children : List Child) (v : Slice) : Prop :=
  v.action ≠ .delete → roundedStop container v ≤ container.parentSize ∧
    ∀ child ∈ live children, child.physical.name.number = v.name.number →
      child.physical.name = v.name

/-- The states of the runs of insertions and removals in which every insertion is of a slice that
sits and leaves no posted error. -/
inductive Reached (floats : Floats) (container : Container) : Shadow → Prop
  | start : Reached floats container ⟨[], []⟩
  | insert (s s' : Shadow) (index : ℤ) (v : Slice) (result : Except TargetError Unit) :
      Reached floats container s →
      Sits container s.children v → exec (insert floats container true index (.slice v)) s =
        (result, s') →
      s'.errors = [] → Reached floats container s'
  | remove {s : Shadow} (place : ℕ) : Reached floats container s →
      Reached floats container (exec (remove place) s).2

/-! ### Checks that are passed -/

section Checks

variable {old : List Child} {fact : Prop} {E : TargetError → Shadow → Prop}

/-- The list is as it was, and if no error was posted, this is a fact. -/
def Passed (old : List Child) (fact : Prop) (s : Shadow) : Prop :=
  s.children = old ∧ (s.errors = [] → fact)

theorem triple_postIf (failed : Bool) (error : ShadowError) :
    Triple (Passed old fact) (postIf failed error) (fun _ ↦
      Passed old (fact ∧ failed = false)) E := by
  unfold postIf
  split_ifs with h
  · refine Triple.modify fun s hs ↦ ⟨hs.1, fun hnil ↦ ?_⟩
    simp at hnil
  · exact Triple.pure fun s hs ↦ ⟨hs.1, fun hnil ↦ ⟨hs.2 hnil, Bool.eq_false_iff.mpr h⟩⟩

theorem Passed.imp {fact' : Prop} (h : fact → fact') {s : Shadow} (hs : Passed old fact s) :
    Passed old fact' s :=
  ⟨hs.1, fun hnil ↦ h (hs.2 hnil)⟩

/-- A loop of checks about which nothing is asked. -/
theorem triple_forEach_postIf {α : Type} (failed : α → Bool) (error : ShadowError) (list : List α) :
    Triple (Passed old fact) (forEach (fun x ↦ postIf (failed x) error) list) (fun _ ↦
      Passed old fact) E :=
  Triple.forEach_same fun x _ ↦ (triple_postIf (failed x) error).weaken (fun _ hs ↦ hs)
    (fun _ _ hs ↦ hs.imp And.left) fun _ _ hs ↦ hs

end Checks

/-! ### What an insertion without posted errors has checked -/

/-- Ranges that do not overlap, in the words of the checks, have no sector in common. -/
theorem disjoint_of_overlapping_eq_false {a b : Extent}
    (h : overlapping a.startSector (a.stop - 1) b.startSector (b.stop - 1) = false) :
    Disjoint (Set.Ico a.startSector a.stop) (Set.Ico b.startSector b.stop) := by
  rw [overlapping, decide_eq_false_iff_not] at h
  rw [Set.disjoint_left]
  intro sector ha hb
  rw [Set.mem_Ico] at ha hb
  omega

section Insertion

variable {floats : Floats} {container : Container} {E : TargetError → Shadow → Prop}

/-- Two slices of which neither is to be deleted or over the others have no sector in common. -/
def Apart (container : Container) (a b : Child) : Prop :=
  a.physical.action ≠ .delete → b.physical.action ≠ .delete → ¬ container.IsOverlay a →
    ¬ container.IsOverlay b →
    Disjoint a.sectors b.sectors

theorem triple_checkOverlaps (v : Slice) {old : List Child} {fact : Prop} (rest : List Child) :
    Triple (Passed old fact) (checkOverlaps container v rest)
      (fun _ ↦ Passed old (fact ∧ ∀ child ∈ rest, Apart container (.slice v) child)) E := by
  induction rest generalizing fact with
  | nil => exact Triple.pure fun s hs ↦ hs.imp fun hfact ↦
    ⟨hfact, fun child hchild ↦ (nomatch hchild)⟩
  | cons child rest ih =>
    unfold checkOverlaps
    dsimp only
    split_ifs with hself hother
    · refine Triple.pure fun s hs ↦ hs.imp fun hfact ↦
        ⟨hfact, fun other _ _ _ hoverlay ↦ absurd hself hoverlay⟩
    · refine ih.weaken (fun _ hs ↦ hs) (fun _ s hs ↦ hs.imp ?_) fun _ _ hs ↦ hs
      rintro ⟨hfact, hrest⟩
      refine ⟨hfact, List.forall_mem_cons.mpr ⟨fun _ _ _ hoverlay ↦ absurd hother hoverlay, hrest⟩⟩
    · refine Triple.bind (triple_postIf _ _) fun _ ↦ ?_
      refine ih.weaken (fun _ hs ↦ hs) (fun _ s hs ↦ hs.imp ?_) fun _ _ hs ↦ hs
      rintro ⟨⟨hfact, hcheck⟩, hrest⟩
      refine ⟨hfact, List.forall_mem_cons.mpr ⟨fun hlive hlive' _ _ ↦ ?_, hrest⟩⟩
      rw [decide_eq_false_iff_not] at hcheck
      refine (disjoint_of_overlapping_eq_false (Bool.eq_false_iff.mpr fun hover ↦ hcheck ?_)).symm
      exact ⟨hlive, hlive', hover⟩

/-- What an insertion that leaves no posted error has found out about the slice as it was given and
as it is now. -/
structure Checked (container : Container) (old : List Child) (given v : Slice) : Prop where
  start_nonneg : 0 ≤ given.extent.startSector
  apart : ∀ child ∈ old, Apart container (.slice v) child
  room : old.length < container.drive.kernelArch.vNumpar
  newName : ∀ child ∈ live old, child.physical.name ≠ v.name

/-- What an insertion leaves. -/
structure Inserted (floats : Floats) (container : Container) (old : List Child) (index : ℤ)
    (given : Slice) (s : Shadow) (v : Slice) : Prop where
  rounded : rounded floats container given = .ok v
  children : s.children = old.insertIdx (insertPlace old.length index) (.slice v)
  checked : s.errors = [] → Checked container old given v

theorem hasName_eq_false_iff {s : Shadow} {name : Name} :
    hasName s name = false ↔ ∀ child ∈ live s.children, child.physical.name ≠ name := by
  rw [hasName, List.any_eq_false]
  unfold live
  simp only [List.mem_filter, decide_eq_true_eq, not_and]
  exact ⟨fun h child hchild ↦ h child hchild.1 hchild.2, fun h child hmem hlive ↦
    h child ⟨hmem, hlive⟩⟩

theorem triple_insertSlice (floats : Floats) (container : Container) (old : List Child) (index : ℤ)
    (given : Slice) :
    Triple (Passed old True) (insertSlice floats container index given)
      (fun _ s ↦ ∃ v, Inserted floats container old index given s v) fun _ s ↦
      s.children = old := by
  unfold insertSlice
  refine Triple.bind (triple_postIf _ _) fun _ ↦ ?_
  refine Triple.bind (triple_postIf _ _) fun _ ↦ ?_
  refine Triple.bind (Triple.lift (Q := fun v s ↦ rounded floats container given = .ok v ∧
    Passed old _ s)
    (fun v s hv hs ↦ ⟨hv, hs⟩) fun _ s _ hs ↦ hs.1) fun v ↦ Triple.assume fun hrounded ↦ ?_
  refine Triple.bind (Triple.get (Q := fun now s ↦ now.children = old ∧ Passed old _ s)
    fun s hs ↦ ⟨hs.1, hs⟩) fun now ↦ Triple.assume fun hnow ↦ ?_
  refine Triple.bind (triple_checkOverlaps v now.children) fun _ ↦ ?_
  refine Triple.bind (triple_postIf _ _) fun _ ↦ ?_
  refine Triple.bind (triple_postIf _ _) fun _ ↦ ?_
  refine Triple.bind (triple_forEach_postIf _ _ _) fun _ ↦ ?_
  refine Triple.bind (triple_forEach_postIf _ _ _) fun _ ↦ ?_
  refine Triple.modify fun s hs ↦ ⟨v, hrounded, ?_, fun hnil ↦ ?_⟩
  · show s.children.insertIdx _ _ = _
    rw [hs.1]
  · obtain ⟨⟨⟨⟨-, hstart⟩, hapart⟩, hroom⟩, hname⟩ := hs.2 hnil
    simp only [Bool.not_eq_false', decide_eq_true_eq] at hstart
    rw [hnow] at hapart hroom
    exact ⟨hstart.1, hapart, not_le.mp (decide_eq_false_iff_not.mp hroom),
      hnow ▸ hasName_eq_false_iff.mp hname⟩

end Insertion

/-! ### What one step keeps -/

section Steps

variable {floats : Floats} {container : Container} {old children : List Child}
  {given v : Slice} {index : ℤ} {s : Shadow}

theorem Layout.of_sublist (h : Layout container old) (hsub : children.Sublist old) :
    Layout container children where
  numbers := h.numbers.sublist (hsub.filter _)
  count := (hsub.filter _).length_le.trans h.count
  ends child hchild := h.ends child ((hsub.filter _).mem hchild)
  disjoint := h.disjoint.sublist (hsub.filter _)

theorem Layout.of_perm (h : Layout container old) (hperm : children.Perm old) :
    Layout container children where
  numbers := ((hperm.filter _).pairwise_iff fun hne ↦ hne.symm).mpr h.numbers
  count := (hperm.filter _).length_eq ▸ h.count
  ends child hchild := h.ends child ((hperm.filter _).mem_iff.mp hchild)
  disjoint := ((hperm.filter _).pairwise_iff fun hdisjoint hb ha ↦
    (hdisjoint ha hb).symm).mpr h.disjoint

theorem live_cons_of_delete {child : Child} (h : child.physical.action = .delete) :
    live (child :: old) = live old :=
  List.filter_cons_of_neg (by simp [h])

theorem live_cons_of_ne {child : Child} (h : child.physical.action ≠ .delete) :
    live (child :: old) = child :: live old :=
  List.filter_cons_of_pos (by simp [h])

/-- A slice that was moved to cylinders ends where it is said to. -/
theorem rounded_spec (hstart : 0 ≤ given.extent.startSector)
    (h : rounded floats container given = .ok v) :
    v.name = given.name ∧ v.action = given.action ∧
    v.extent.stop = roundedStop container given := by
  unfold rounded at h
  unfold roundedStop
  by_cases hrounded : isRounded container given
  · rw [if_pos hrounded] at h
    rcases hadjusted : cylinderBoundaryAdjustment floats container .slice given.action
      given.extent with error | after
    · rw [hadjusted] at h
      cases h
    rw [hadjusted] at h
    cases h
    refine ⟨rfl, rfl, ?_⟩
    by_cases haction : given.action = .create
    · rw [if_pos ⟨hrounded, haction⟩]
      rw [haction] at hadjusted
      obtain ⟨hsucceeds, hfails⟩ := adjustment_spec floats container .slice hstart
      have hboth := not_not.mp fun hnot ↦ nomatch hadjusted.symm.trans (hfails hnot)
      obtain ⟨after', hok, hafterStart, hafterSize⟩ := hsucceeds hboth.1 hboth.2
      obtain rfl : after' = after := Except.ok.inj (hok.symm.trans hadjusted)
      show after'.stop = _
      rw [Extent.stop, hafterStart, hafterSize, add_mul]
    · rw [if_neg fun hboth ↦ haction hboth.2]
      rw [cylinderBoundaryAdjustment, if_pos haction] at hadjusted
      exact congrArg Extent.stop (Except.ok.inj hadjusted).symm
  · rw [if_neg hrounded] at h
    cases h
    exact ⟨rfl, rfl, (if_neg fun hboth ↦ hrounded hboth.1).symm⟩

theorem insertPlace_le (length : ℕ) (index : ℤ) : insertPlace length index ≤ length := by
  unfold insertPlace
  split_ifs <;> omega

/-- A slice that sits and was inserted without a posted error leaves the layout right. -/
theorem Layout.insert (h : Layout container old) (hsits : Sits container old given)
    (hinserted : Inserted floats container old index given s v) (hnil : s.errors = []) :
    Layout container s.children := by
  have hchecked := hinserted.checked hnil
  obtain ⟨hname, haction, hstop⟩ := rounded_spec hchecked.start_nonneg hinserted.rounded
  rw [hinserted.children]
  refine Layout.of_perm ?_ (List.perm_insertIdx _ _ (insertPlace_le _ _))
  have hcount : (live (.slice v :: old)).length ≤ container.drive.kernelArch.vNumpar :=
    (List.length_filter_le _ _).trans hchecked.room
  by_cases hdelete : v.action = .delete
  · have hlive : live (.slice v :: old) = live old := live_cons_of_delete hdelete
    exact ⟨hlive ▸ h.numbers, hcount, hlive ▸ h.ends, hlive ▸ h.disjoint⟩
  · have hlive : live (.slice v :: old) = .slice v :: live old := live_cons_of_ne hdelete
    obtain ⟨hend, hnames⟩ := hsits (haction ▸ hdelete)
    refine ⟨?_, hcount, ?_, ?_⟩ <;> rw [hlive]
    · refine List.pairwise_cons.mpr ⟨fun child hchild heq ↦ ?_, h.numbers⟩
      have hnumber : child.physical.name.number = given.name.number :=
        heq.symm.trans (congrArg Name.number hname)
      exact hchecked.newName child hchild ((hnames child hchild hnumber).trans hname.symm)
    · exact List.forall_mem_cons.mpr ⟨hstop.trans_le hend, h.ends⟩
    · refine List.pairwise_cons.mpr ⟨fun child hchild hself hother ↦ ?_, h.disjoint⟩
      obtain ⟨hmem, hchildLive⟩ := List.mem_filter.mp hchild
      exact hchecked.apart child hmem hdelete (of_decide_eq_true hchildLive) hself hother

theorem Layout.nil (container : Container) : Layout container [] :=
  ⟨List.Pairwise.nil, Nat.zero_le _, fun _ h ↦ (nomatch h), List.Pairwise.nil⟩

/-- `insert` with `validate_children` set inserts the slice, or leaves the list as it was. -/
theorem insert_cases (s : Shadow) (index : ℤ) (given : Slice) {result : Except TargetError Unit}
    {s' : Shadow} (h : exec (insert floats container true index (.slice given)) s = (result, s')) :
    s'.children = s.children ∨ ∃ v, Inserted floats container s.children index given s' v := by
  have hrun := triple_insertSlice floats container s.children index given
    ⟨s.children, []⟩ ⟨rfl, fun _ ↦ trivial⟩
  have hexec : exec (insert floats container true index (.slice given)) s =
      exec (insertSlice floats container index given) ⟨s.children, []⟩ := by
    unfold insert
    rw [if_neg (by decide), exec_bind, exec_modify]
  rw [← hexec, h] at hrun
  cases result with
  | ok value => exact Or.inr hrun
  | error error => exact Or.inl hrun

end Steps

/-- In every run of insertions and removals in which every insertion is of a slice that sits and
leaves no posted error, the layout is right in every state. -/
theorem layout_of_reached (floats : Floats) (container : Container) (s : Shadow)
    (h : Reached floats container s) : Layout container s.children := by
  induction h with
  | start => exact Layout.nil container
  | insert s s' index v result _ hsits hexec hnil ih =>
    rcases insert_cases s index v hexec with hsame | ⟨v', hinserted⟩
    · exact hsame ▸ ih
    · exact ih.insert hsits hinserted hnil
  | @remove s place _ ih => exact ih.of_sublist (List.eraseIdx_sublist _ _)

/-! ### Slices of a disk of ten cylinders -/

/-- A slice with a number for its name, to be made. -/
def numbered (number startSector : ℤ) (sectors : ℕ) : Slice where
  name := ⟨.number number, number, RawName.int_number number⟩
  action := .create
  extent := ⟨startSector, Size.secs sectors⟩
  inZpool := none
  inVdev := none
  tag := 0
  flag := 0
  force := false
  isSwap := false

/-- The same with a text for its name. -/
def named (name : Char) (number : ℤ) (hname : RawName.int (.text [name]) = some number)
    (startSector : ℤ) (sectors : ℕ) : Slice :=
  { numbered number startSector sectors with name := ⟨.text [name], number, hname⟩ }

theorem layout_of_reached_sample :
    Layout (.disk tenCylinders) [.slice (numbered 1 50 20), .slice (numbered 0 10 20)] := by
  refine layout_of_reached noFloats (.disk tenCylinders)
    ⟨[.slice (numbered 1 50 20), .slice (numbered 0 10 20)], []⟩ ?_
  refine .insert ⟨[.slice (numbered 0 10 20)], []⟩ _ 0 (numbered 1 50 20) (.ok ()) ?_
    (fun _ ↦ ⟨by decide, fun child hchild ↦ ?_⟩) rfl rfl
  · exact .insert ⟨[], []⟩ _ 0 (numbered 0 10 20) (.ok ()) .start
      (fun _ ↦ ⟨by decide, fun child hchild ↦ (nomatch hchild)⟩) rfl rfl
  · obtain rfl : child = .slice (numbered 0 10 20) := List.mem_singleton.mp hchild
    decide

/-- A slice that ends after the disk is inserted, and so are two slices of one number, without a
posted error. -/
theorem not_layout_unchecked :
    (exec (insert noFloats (.disk tenCylinders) true 0 (.slice (numbered 0 90 20))) ⟨[], []⟩ =
        (.ok (), ⟨[.slice (numbered 0 90 20)], []⟩) ∧
      ¬ Layout (.disk tenCylinders) [.slice (numbered 0 90 20)]) ∧
    (exec (insert noFloats (.disk tenCylinders) true 0 (.slice (numbered 0 10 20))) ⟨[], []⟩ =
        (.ok (), ⟨[.slice (numbered 0 10 20)], []⟩) ∧
      exec (insert noFloats (.disk tenCylinders) true 0 (.slice (named '0' 0 rfl 50 20)))
        ⟨[.slice (numbered 0 10 20)], []⟩ =
          (.ok (), ⟨[.slice (named '0' 0 rfl 50 20), .slice (numbered 0 10 20)], []⟩) ∧
      ¬ Layout (.disk tenCylinders) [.slice (named '0' 0 rfl 50 20),
        .slice (numbered 0 10 20)]) := by
  refine ⟨⟨rfl, fun h ↦ ?_⟩, rfl, rfl, fun h ↦ ?_⟩
  · exact absurd (h.ends (.slice (numbered 0 90 20)) List.mem_cons_self) (by decide)
  · exact (List.pairwise_cons.mp h.numbers).1 (.slice (numbered 0 10 20)) List.mem_cons_self rfl

end Userland.Install.Target
