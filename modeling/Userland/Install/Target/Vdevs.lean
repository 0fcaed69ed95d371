import Mathlib.Data.List.Nodup
import Userland.Library.Dict

/-!
# Devices of a pool

`traverse` of `vdevs.py` collects the paths of the leaves of a tree of virtual devices under labels.
The label is that of the parent, but the loop over the children overwrites it at every child that
has a label of its own, so that later leaves get the label of a sibling. The mapping is as intended
exactly if the paths are distinct and no list has a leaf whose last sibling with an own label has
another one than the parent (`traverse_iff`).

Scope. A child has a path or children, with a type and a number. Spares and caches are collected
elsewhere.
-/

set_option autoImplicit false
set_option relaxedAutoImplicit false

namespace Userland.Install.Target

open Library

/-- A virtual device, as a list of names and values describes it. -/
inductive Vdev
  | leaf (isLog : Option ℕ) (path : List Char)
  | inner (type : List Char) (id : ℕ) (children : List Vdev)

namespace Vdev

/-- `"%s-%d" % (child_type, child_id)`. -/
def labelOf (type : List Char) (id : ℕ) : List Char :=
  type ++ '-' :: (Nat.repr id).toList

/-- The label of log devices. -/
def logs : List Char := "logs".toList

/-- The label of the devices right below the root. -/
def none : List Char := "none".toList

mutual

/-- `traverse`. -/
def traverse (vdevMap : List (List Char × List (List Char))) (vdevLabel : List Char) :
    List Vdev → List (List Char × List (List Char))
  | [] => vdevMap
  | child :: rest =>
    let visited := visit vdevMap vdevLabel child
    traverse visited.1 visited.2 rest

/-- The body of the loop: the mapping and the label that it leaves. -/
def visit (vdevMap : List (List Char × List (List Char))) (vdevLabel : List Char) :
    Vdev → List (List Char × List (List Char)) × List Char
  | .inner type id children => (traverse vdevMap (labelOf type id) children, labelOf type id)
  | .leaf isLog path =>
    let vdevLabel := if isLog = some 1 then logs else vdevLabel
    (Dict.append vdevMap vdevLabel path, vdevLabel)

end

/-! ### What is asked of the mapping -/

/-- The label that a child has of its own: that of its children, or that of log devices. -/
def ownLabel : Vdev → Option (List Char)
  | .inner type id _ => some (labelOf type id)
  | .leaf isLog _ => if isLog = some 1 then some logs else Option.none

mutual

/-- The leaves with the labels they are collected under. -/
def assigned (vdevLabel : List Char) : List Vdev → List (List Char × List Char)
  | [] => []
  | child :: rest => assignedOf vdevLabel child ++ assigned ((ownLabel child).getD vdevLabel) rest

/-- The leaves of a child with their labels. -/
def assignedOf (vdevLabel : List Char) : Vdev → List (List Char × List Char)
  | .inner type id children => assigned (labelOf type id) children
  | .leaf isLog path => [(if isLog = some 1 then logs else vdevLabel, path)]

end

mutual

/-- The leaves with the labels that are meant: that of log devices, or that of the parent. -/
def leaves (parent : List Char) : List Vdev → List (List Char × List Char)
  | [] => []
  | child :: rest => leavesOf parent child ++ leaves parent rest

/-- The leaves of a child with the labels that are meant. -/
def leavesOf (parent : List Char) : Vdev → List (List Char × List Char)
  | .inner type id children => leaves (labelOf type id) children
  | .leaf isLog path => [(if isLog = some 1 then logs else parent, path)]

end

/-- The lists of children in a tree with the labels of their parents. -/
inductive ChildList : List Char → List Vdev → List Char → List Vdev → Prop
  | here (label : List Char) (list : List Vdev) : ChildList label list label list
  | deeper {label : List Char} {list : List Vdev} {type : List Char} {id : ℕ} {children : List Vdev}
      {label' : List Char} {list' : List Vdev} (hmem : .inner type id children ∈ list)
      (hdeeper : ChildList (labelOf type id) children label' list') :
        ChildList label list label' list'

/-- In a list, the last sibling with an own label before a leaf that is no log device has this
label. -/
def Undisturbed (vdevLabel parent : List Char) (list : List Vdev) : Prop :=
  ∀ before isLog path after, list = before ++ .leaf isLog path :: after → isLog ≠ some 1 →
    ((before.filterMap ownLabel).getLast?).getD vdevLabel = parent

/-- No leaf of the tree comes after a sibling with another label than that of the parent. -/
def NoneStale (label : List Char) (children : List Vdev) : Prop :=
  ∀ label' list, ChildList label children label' list → Undisturbed label' label' list

/-- The paths of the leaves. -/
def paths (children : List Vdev) : List (List Char) :=
  (leaves none children).map Prod.snd

/-- The paths of the leaves of a label. -/
def under (label : List Char) (labelled : List (List Char × List Char)) : List (List Char) :=
  (labelled.filter fun leaf ↦ leaf.1 == label).map Prod.snd

/-- Every path is listed once, under the label that is meant for it. -/
def RightlyMapped (children : List Vdev) : Prop :=
  (paths children).Nodup ∧
    ∀ label, (((traverse [] none children).lookup label).getD []).Perm
      (under label (leaves none children))

/-! ### The labels of the leaves -/

variable {vdevLabel parent : List Char} {list children : List Vdev}

theorem snd_visit (vdevMap : List (List Char × List (List Char))) (vdevLabel : List Char)
    (child : Vdev) :
    (visit vdevMap vdevLabel child).2 = (ownLabel child).getD vdevLabel := by
  cases child with
  | inner type id children => rfl
  | leaf isLog path =>
    rw [visit, ownLabel]
    split_ifs <;> rfl

mutual

theorem traverse_eq_foldl (vdevMap : List (List Char × List (List Char))) (vdevLabel : List Char) :
    ∀ children : List Vdev, traverse vdevMap vdevLabel children =
      (assigned vdevLabel children).foldl (fun d leaf ↦ Dict.append d leaf.1 leaf.2) vdevMap
  | [] => rfl
  | child :: rest => by
    rw [traverse, assigned, List.foldl_append, ← fst_visit_eq_foldl vdevMap vdevLabel child,
      ← snd_visit vdevMap]
    exact traverse_eq_foldl _ _ rest

theorem fst_visit_eq_foldl (vdevMap : List (List Char × List (List Char))) (vdevLabel : List Char) :
    ∀ child : Vdev, (visit vdevMap vdevLabel child).1 =
      (assignedOf vdevLabel child).foldl (fun d leaf ↦ Dict.append d leaf.1 leaf.2) vdevMap
  | .inner type id children => traverse_eq_foldl vdevMap (labelOf type id) children
  | .leaf _ _ => rfl

end

mutual

theorem map_snd_assigned (vdevLabel parent : List Char) :
    ∀ children :
    List Vdev, (assigned vdevLabel children).map Prod.snd = (leaves parent children).map Prod.snd
  | [] => rfl
  | child :: rest => by
    rw [assigned, leaves, List.map_append, List.map_append, map_snd_assignedOf _ parent child,
      map_snd_assigned _ parent rest]

theorem map_snd_assignedOf (vdevLabel parent : List Char) :
    ∀ child : Vdev, (assignedOf vdevLabel child).map Prod.snd = (leavesOf parent child).map Prod.snd
  | .inner type id children => map_snd_assigned (labelOf type id) (labelOf type id) children
  | .leaf _ _ => rfl

end

theorem undisturbed_nil : Undisturbed vdevLabel parent [] := by
  intro before isLog path after h
  cases before <;> cases h

/-- A list is undisturbed if its rest is after the label that the first child leaves. -/
theorem undisturbed_cons (first : Vdev) :
    Undisturbed vdevLabel parent (first :: list) ↔
      (∀ isLog path, first = .leaf isLog path → isLog ≠ some 1 → vdevLabel = parent) ∧
        Undisturbed ((ownLabel first).getD vdevLabel) parent list := by
  have hlast : ∀ before, (((first :: before).filterMap ownLabel).getLast?).getD vdevLabel =
      ((before.filterMap ownLabel).getLast?).getD ((ownLabel first).getD vdevLabel) := by
    intro before
    rw [List.filterMap_cons]
    cases ownLabel first with
    | none => rfl
    | some own => cases h : before.filterMap ownLabel <;> simp [List.getLast?_cons]
  constructor
  · intro h
    refine ⟨fun isLog path hfirst hlog ↦ ?_, fun before isLog path after hlist hlog ↦ ?_⟩
    · exact h [] isLog path list (by rw [hfirst, List.nil_append]) hlog
    · rw [← hlast]
      exact h (first :: before) isLog path after (by rw [hlist, List.cons_append]) hlog
  · rintro ⟨hfirst, hrest⟩ before isLog path after hlist hlog
    cases before with
    | nil =>
      rw [List.nil_append, List.cons.injEq] at hlist
      exact hfirst isLog path hlist.1 hlog
    | cons other before =>
      rw [List.cons_append, List.cons.injEq] at hlist
      rw [← hlist.1, hlast]
      exact hrest before isLog path after hlist.2 hlog

/-- A child has the labels that are meant if it is no leaf with the label of a sibling, and what is
below it has its labels. -/
theorem assignedOf_eq_iff (vdevLabel parent : List Char) (child : Vdev) :
    assignedOf vdevLabel child = leavesOf parent child ↔
      (∀ isLog path, child = .leaf isLog path → isLog ≠ some 1 → vdevLabel = parent) ∧
        ∀ type id children, child = .inner type id children →
          assigned (labelOf type id) children = leaves (labelOf type id) children := by
  cases child with
  | inner type id children =>
    rw [assignedOf, leavesOf]
    refine ⟨fun h ↦ ⟨fun _ _ hleaf ↦ (nomatch hleaf), fun _ _ _ hinner ↦ ?_⟩, fun h ↦ h.2 _ _ _ rfl⟩
    cases hinner
    exact h
  | leaf isLog path =>
    rw [assignedOf, leavesOf, List.cons.injEq, Prod.mk.injEq]
    constructor
    · rintro ⟨⟨hlabel, -⟩, -⟩
      refine ⟨fun _ _ hleaf hlog ↦ ?_, fun _ _ _ hinner ↦ (nomatch hinner)⟩
      cases hleaf
      rwa [if_neg hlog, if_neg hlog] at hlabel
    · rintro ⟨hleaf, -⟩
      refine ⟨⟨?_, rfl⟩, rfl⟩
      split_ifs with hlog
      · rfl
      · exact hleaf isLog path rfl hlog

/-- The labels of a list are those that are meant exactly if it is undisturbed and the lists below
it have theirs. -/
theorem assigned_eq_iff (vdevLabel parent : List Char) (list : List Vdev) :
    assigned vdevLabel list = leaves parent list ↔ Undisturbed vdevLabel parent list ∧
      ∀ type id children, .inner type id children ∈ list →
        assigned (labelOf type id) children = leaves (labelOf type id) children := by
  induction list generalizing vdevLabel with
  | nil => exact ⟨fun _ ↦ ⟨undisturbed_nil, fun _ _ _ h ↦ (nomatch h)⟩, fun _ ↦ rfl⟩
  | cons first rest ih =>
    have hlength : (assignedOf vdevLabel first).length = (leavesOf parent first).length := by
      have := congrArg List.length (map_snd_assignedOf vdevLabel parent first)
      rwa [List.length_map, List.length_map] at this
    have hsplit : assigned vdevLabel (first :: rest) = leaves parent (first :: rest) ↔
        assignedOf vdevLabel first = leavesOf parent first ∧
          assigned ((ownLabel first).getD vdevLabel) rest = leaves parent rest :=
      ⟨fun h ↦ List.append_inj h hlength, fun h ↦ congrArg₂ (· ++ ·) h.1 h.2⟩
    rw [hsplit, assignedOf_eq_iff, ih, undisturbed_cons]
    constructor
    · rintro ⟨⟨hleaf, hinner⟩, hrest, hbelow⟩
      refine ⟨⟨hleaf, hrest⟩, fun type id children hmem ↦ ?_⟩
      rcases List.mem_cons.mp hmem with hfirst | hmem
      · exact hinner type id children hfirst.symm
      · exact hbelow type id children hmem
    · rintro ⟨⟨hleaf, hrest⟩, hbelow⟩
      exact ⟨⟨hleaf, fun type id children hfirst ↦
        hbelow type id children (hfirst ▸ List.mem_cons_self)⟩, hrest,
        fun type id children hmem ↦ hbelow type id children (List.mem_cons_of_mem _ hmem)⟩

/-- The lists below a list are itself and the lists below the children. -/
theorem noneStale_iff (label : List Char) (list : List Vdev) :
    NoneStale label list ↔ Undisturbed label label list ∧
      ∀ type id children, .inner type id children ∈ list →
      NoneStale (labelOf type id) children := by
  constructor
  · intro h
    exact ⟨h label list (.here label list), fun type id children hmem label' list' hlist ↦
      h label' list' (.deeper hmem hlist)⟩
  · rintro ⟨hhere, hdeeper⟩ label' list' hlist
    cases hlist with
    | here => exact hhere
    | deeper hmem hlist => exact hdeeper _ _ _ hmem label' list' hlist

/-- The leaves of a tree have the labels that are meant exactly if no label is stale. -/
theorem assigned_eq_leaves_iff (label : List Char) (list : List Vdev) :
    assigned label list = leaves label list ↔ NoneStale label list := by
  rw [assigned_eq_iff, noneStale_iff]
  refine and_congr_right fun _ ↦ forall₃_congr fun type id children ↦ forall_congr' fun hmem ↦ ?_
  have : sizeOf children < sizeOf list := by
    have hlt := List.sizeOf_lt_of_mem hmem
    rw [Vdev.inner.sizeOf_spec] at hlt
    omega
  exact assigned_eq_leaves_iff (labelOf type id) children
termination_by sizeOf list

/-! ### The mapping -/

/-- Lists of pairs with the same distinct second components are equal if all of one are in the
other. -/
theorem eq_of_subset {labelled labelled' : List (List Char × List Char)}
    (hsnd : labelled.map Prod.snd = labelled'.map Prod.snd)
    (hnodup : (labelled'.map Prod.snd).Nodup)
    (hsub : ∀ leaf ∈ labelled, leaf ∈ labelled') : labelled = labelled' := by
  induction labelled generalizing labelled' with
  | nil => exact (List.map_eq_nil_iff.mp hsnd.symm).symm
  | cons first rest ih =>
    cases labelled' with
    | nil => cases hsnd
    | cons first' rest' =>
      rw [List.map_cons, List.map_cons, List.cons.injEq] at hsnd
      rw [List.map_cons, List.nodup_cons] at hnodup
      have hfirst : first = first' := by
        rcases List.mem_cons.mp (hsub first List.mem_cons_self) with h | h
        · exact h
        · exact absurd (hsnd.1 ▸ List.mem_map_of_mem h) hnodup.1
      have hrest : rest = rest' := by
        refine ih hsnd.2 hnodup.2 fun leaf hleaf ↦ ?_
        rcases List.mem_cons.mp (hsub leaf (List.mem_cons_of_mem _ hleaf)) with rfl | h
        · exact absurd (hsnd.2 ▸ List.mem_map_of_mem hleaf) hnodup.1
        · exact h
      rw [hfirst, hrest]

theorem mem_under {label path : List Char} {labelled : List (List Char × List Char)} :
    path ∈ under label labelled ↔ (label, path) ∈ labelled := by
  simp only [under, List.mem_map, List.mem_filter, beq_iff_eq]
  exact ⟨fun ⟨_, ⟨h, hlabel⟩, hpath⟩ ↦ hlabel ▸ hpath ▸ h, fun h ↦ ⟨_, ⟨h, rfl⟩, rfl⟩⟩

theorem getD_lookup_traverse (label : List Char) (children : List Vdev) :
    ((traverse [] none children).lookup label).getD [] = under label (assigned none children) := by
  rw [traverse_eq_foldl, Dict.getD_lookup_foldl_append]
  rfl

/-- The mapping is right exactly if the paths are distinct and no leaf gets the label of a sibling.
-/
theorem traverse_iff (children : List Vdev) :
    RightlyMapped children ↔ (paths children).Nodup ∧ NoneStale none children := by
  unfold RightlyMapped
  refine and_congr_right fun hnodup ↦ ?_
  rw [← assigned_eq_leaves_iff]
  simp only [getD_lookup_traverse]
  constructor
  · intro h
    refine eq_of_subset (map_snd_assigned _ _ _) hnodup fun leaf hleaf ↦ ?_
    exact mem_under.mp ((h leaf.1).mem_iff.mp (mem_under.mpr hleaf))
  · intro h label
    rw [h]

/-- A mirror and a disk beside it. -/
def beside : List Vdev :=
  [.inner "mirror".toList 0 [.leaf Option.none ['a'], .leaf Option.none ['b']],
    .leaf Option.none ['c']]

/-- The disk gets the label of the mirror. -/
theorem not_rightlyMapped_beside : ¬ RightlyMapped beside := by
  intro h
  have hnone : (([] : List (List Char))).Perm [['c']] := h.2 none
  cases List.nil_perm.mp hnone

end Vdev

end Userland.Install.Target
