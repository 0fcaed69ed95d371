import Mathlib.Data.List.Pairwise
import Mathlib.Data.List.Sort
import Mathlib.Order.Lattice
import Mathlib.Tactic.Push
import Mathlib.Tactic.Tauto

/-!
# Groups of neighbours with one key

`groupby` splits a list into the runs of neighbours with one key. The groups make up the list
(`flatten_groupby`), and if the list is in the order of its keys, no two groups have the same key
(`pairwise_groupby`).
-/

set_option autoImplicit false
set_option relaxedAutoImplicit false

namespace Userland.Library.Grouping

variable {α κ : Type} [LinearOrder κ] (key : α → κ)

/-- The runs of neighbours with one key. -/
def groupby : List α → List (List α)
  | [] => []
  | element :: rest =>
    match groupby rest with
    | (first :: group) :: groups =>
      if key element = key first then (element :: first :: group) :: groups
      else [element] :: (first :: group) :: groups
    | groups => [element] :: groups

theorem flatten_groupby (list : List α) : (groupby key list).flatten = list := by
  induction list with
  | nil => rfl
  | cons element rest ih =>
    rw [groupby]
    split
    · rename_i first group groups hrest
      rw [hrest] at ih
      split_ifs
      · rw [List.flatten_cons, List.cons_append, ← List.flatten_cons, ih]
      · rw [List.flatten_cons, ih]
        rfl
    · rw [List.flatten_cons, ih]
      rfl

theorem exists_key_of_mem_groupby (list : List α) :
    ∀ group ∈ groupby key list, group ≠ [] ∧ ∃ k, ∀ element ∈ group, key element = k := by
  induction list with
  | nil => exact fun group hgroup ↦ absurd hgroup List.not_mem_nil
  | cons element rest ih =>
    have hsingle : [element] ≠ [] ∧ ∃ k, ∀ other ∈ [element], key other = k :=
      ⟨List.cons_ne_nil _ _, key element, by simp⟩
    rw [groupby]
    split
    · rename_i head group groups hrest
      rw [hrest, List.forall_mem_cons] at ih
      split_ifs with hkey
      · obtain ⟨⟨-, k, hk⟩, hgroups⟩ := ih
        refine List.forall_mem_cons.mpr ⟨⟨List.cons_ne_nil _ _, k,
          List.forall_mem_cons.mpr ⟨?_, hk⟩⟩, hgroups⟩
        rw [hkey]
        exact hk head List.mem_cons_self
      · exact List.forall_mem_cons.mpr ⟨hsingle, List.forall_mem_cons.mpr ih⟩
    · exact List.forall_mem_cons.mpr ⟨hsingle, ih⟩

variable {list group : List α}

/-- The elements of a group have one key. -/
theorem key_eq_of_mem_groupby (hgroup : group ∈ groupby key list) {first second : α}
    (hfirst : first ∈ group) (hsecond : second ∈ group) : key first = key second := by
  obtain ⟨-, k, hk⟩ := exists_key_of_mem_groupby key list group hgroup
  rw [hk first hfirst, hk second hsecond]

theorem mem_of_mem_groupby (hgroup : group ∈ groupby key list) {element : α}
    (h : element ∈ group) : element ∈ list := by
  rw [← flatten_groupby key list]
  exact List.mem_flatten.mpr ⟨group, hgroup, h⟩

/-- The groups of a list in the order of its keys have different keys. -/
theorem pairwise_groupby {list : List α}
    (h : list.Pairwise fun first second ↦ key first ≤ key second) :
    (groupby key list).Pairwise fun group other ↦
      ∀ first ∈ group, ∀ second ∈ other, key first ≠ key second := by
  induction list with
  | nil => exact List.Pairwise.nil
  | cons element rest ih =>
    obtain ⟨helement, hrest⟩ := List.pairwise_cons.mp h
    have ih := ih hrest
    have hmem : ∀ group ∈ groupby key rest, ∀ other ∈ group, key element ≤ key other :=
      fun group hgroup other hother ↦ helement other (mem_of_mem_groupby key hgroup hother)
    rw [groupby]
    split
    · rename_i first group groups hgroups
      rw [hgroups] at ih hmem
      obtain ⟨hfirst, hlater⟩ := List.pairwise_cons.mp ih
      split_ifs with hkey
      · refine List.pairwise_cons.mpr ⟨fun other hother ↦
          List.forall_mem_cons.mpr ⟨?_, hfirst other hother⟩, hlater⟩
        rw [hkey]
        exact hfirst other hother first List.mem_cons_self
      · refine List.pairwise_cons.mpr ⟨fun other hother ↦ ?_, ih⟩
        rw [List.forall_mem_singleton]
        intro second hsecond heq
        have hle : key first ≤ key second := by
          rcases List.mem_cons.mp hother with rfl | hother
          · have hgroup : (first :: group) ∈ groupby key rest := hgroups ▸ List.mem_cons_self
            exact le_of_eq (key_eq_of_mem_groupby key hgroup List.mem_cons_self hsecond)
          · rw [← flatten_groupby key rest, hgroups, List.flatten_cons,
              List.pairwise_append] at hrest
            exact hrest.2.2 first List.mem_cons_self second
              (List.mem_flatten.mpr ⟨other, hother, hsecond⟩)
        exact hkey (le_antisymm (hmem _ List.mem_cons_self first List.mem_cons_self) (heq ▸ hle))
    · rename_i hgroups
      refine List.pairwise_cons.mpr ⟨fun group hgroup ↦ ?_, ih⟩
      obtain ⟨hne, -⟩ := exists_key_of_mem_groupby key rest group hgroup
      cases hrest' : groupby key rest with
      | nil =>
        rw [hrest'] at hgroup
        exact absurd hgroup List.not_mem_nil
      | cons first groups =>
        cases first with
        | nil =>
          have hnil : ([] : List α) ∈ groupby key rest := hrest' ▸ List.mem_cons_self
          exact absurd rfl (exists_key_of_mem_groupby key rest [] hnil).1
        | cons head tail => exact absurd hrest' (hgroups head tail groups)

/-! ### Groups of a list that is sorted by its keys -/

/-- A stable sort leaves the elements with one key in their order. -/
theorem filter_insertionSort (list : List α) (k : κ) :
    ((list.insertionSort fun first second ↦ key first ≤ key second).filter fun element ↦
      key element = k) =
      list.filter fun element ↦ key element = k := by
  have hsorted : (list.filter fun element ↦ key element = k).Pairwise fun first second ↦
      key first ≤ key second := by
    refine List.pairwise_of_forall_mem_list fun first hfirst second hsecond ↦ ?_
    rw [of_decide_eq_true (List.mem_filter.mp hfirst).2,
      of_decide_eq_true (List.mem_filter.mp hsecond).2]
  have hsub := (List.sublist_insertionSort hsorted List.filter_sublist).filter fun element ↦
    key element = k
  rw [List.filter_filter, funext fun element ↦ Bool.and_self (decide (key element = k))] at hsub
  exact (hsub.eq_of_length_le (((List.perm_insertionSort _ list).filter _).length_eq.le)).symm

theorem pairwise_insertionSort (list : List α) :
    (list.insertionSort fun first second ↦ key first ≤ key second).Pairwise
      fun first second ↦ key first ≤ key second := by
  have htotal : Std.Total fun first second : α ↦ key first ≤ key second :=
    ⟨fun first second ↦ le_total (key first) (key second)⟩
  have htrans : IsTrans α fun first second ↦ key first ≤ key second := ⟨fun _ _ _ ↦ le_trans⟩
  exact List.pairwise_insertionSort _ list

/-- A group of a list in the order of its keys is all elements with its key. -/
theorem filter_eq_of_mem_groupby (h : list.Pairwise fun first second ↦ key first ≤ key second)
    (hgroup : group ∈ groupby key list) {element : α} (helement : element ∈ group) :
    (list.filter fun other ↦ key other = key element) = group := by
  obtain ⟨before, after, hsplit⟩ := List.append_of_mem hgroup
  have hpairwise := pairwise_groupby key h
  rw [hsplit, List.pairwise_append, List.pairwise_cons] at hpairwise
  obtain ⟨-, ⟨hafter, -⟩, hbefore⟩ := hpairwise
  have hflat := flatten_groupby key list
  rw [hsplit, List.flatten_append, List.flatten_cons] at hflat
  rw [← hflat, List.filter_append, List.filter_append]
  have hnone : ∀ groups : List (List α),
      (∀ other ∈ groups, ∀ second ∈ other, key second ≠ key element) →
      (groups.flatten.filter fun other ↦ key other = key element) = [] := by
    intro groups hgroups
    refine List.filter_eq_nil_iff.mpr fun second hsecond ↦ ?_
    obtain ⟨other, hother, hmem⟩ := List.mem_flatten.mp hsecond
    rw [decide_eq_true_iff]
    exact hgroups other hother second hmem
  rw [hnone before fun other hother second hsecond ↦
      hbefore other hother group List.mem_cons_self second hsecond element helement,
    hnone after fun other hother second hsecond heq ↦
      hafter other hother element helement second hsecond heq.symm,
    List.nil_append, List.append_nil]
  exact List.filter_eq_self.mpr fun second hsecond ↦
    decide_eq_true (key_eq_of_mem_groupby key hgroup hsecond helement)

/-- The groups of a sorted list are the elements with one key, in the order of the list before it
was sorted. -/
theorem mem_groupby_insertionSort :
    group ∈ groupby key (list.insertionSort fun first second ↦ key first ≤ key second) ↔
      ∃ element ∈ list, group = list.filter fun other ↦ key other = key element := by
  have hsorted := pairwise_insertionSort key list
  constructor
  · intro hgroup
    obtain ⟨hne, -⟩ := exists_key_of_mem_groupby key _ group hgroup
    obtain ⟨element, helement⟩ := List.exists_mem_of_ne_nil group hne
    refine ⟨element, (List.mem_insertionSort _).mp (mem_of_mem_groupby key hgroup helement), ?_⟩
    rw [← filter_insertionSort, filter_eq_of_mem_groupby key hsorted hgroup helement]
  · rintro ⟨element, helement, rfl⟩
    have hmem := (List.mem_insertionSort fun first second ↦ key first ≤ key second).mpr helement
    rw [← flatten_groupby key (list.insertionSort _)] at hmem
    obtain ⟨group, hgroup, helement'⟩ := List.mem_flatten.mp hmem
    rw [← filter_insertionSort, filter_eq_of_mem_groupby key hsorted hgroup helement']
    exact hgroup

/-! ### Neighbours in a group -/

section Neighbours

variable {β : Type} (differs : β → β → Bool)

/-- The elements that differ from the next or the previous one. -/
def marked : List β → List β
  | first :: second :: rest =>
    if differs first second then first :: second :: marked (second :: rest)
    else marked (second :: rest)
  | _ => []

/-- Whether two elements stand next to each other, in either order. -/
def Adjacent (group : List β) (element other : β) : Prop :=
  [element, other] <:+: group ∨ [other, element] <:+: group

variable {differs}

theorem mem_marked_iff {group : List β}
    (hsymm : ∀ first ∈ group, ∀ second ∈ group, differs first second = differs second first)
    {element : β} :
    element ∈ marked differs group ↔ ∃ other, Adjacent group element other ∧
    differs element other = true := by
  induction group with
  | nil =>
    refine iff_of_false List.not_mem_nil fun ⟨other, h, _⟩ ↦ ?_
    rcases h with h | h <;> simpa using h.length_le
  | cons first group ih =>
    cases group with
    | nil =>
      refine iff_of_false List.not_mem_nil fun ⟨other, h, _⟩ ↦ ?_
      rcases h with h | h <;> simpa using h.length_le
    | cons second rest =>
      have hadjacent : ∀ other, Adjacent (first :: second :: rest) element other ↔
          (element = first ∧ other = second ∨ other = first ∧ element = second) ∨
            Adjacent (second :: rest) element other := by
        intro other
        have hpart : ∀ pair : List β, pair <:+: first :: second :: rest ↔
            pair <+: first :: second :: rest ∨ pair <:+: second :: rest :=
              fun pair ↦ List.infix_cons_iff
        simp only [Adjacent, hpart, List.cons_prefix_cons, List.nil_prefix, and_true]
        tauto
      have ih := ih fun a ha b hb ↦ hsymm a (List.mem_cons_of_mem _ ha) b
        (List.mem_cons_of_mem _ hb)
      have hswap := hsymm second (List.mem_cons_of_mem _ List.mem_cons_self) first
        List.mem_cons_self
      simp only [hadjacent]
      rw [marked]
      constructor
      · intro h
        split_ifs at h with hdiffers
        · rw [List.mem_cons, List.mem_cons, ih] at h
          rcases h with rfl | rfl | ⟨other, hother, h⟩
          · exact ⟨second, Or.inl (Or.inl ⟨rfl, rfl⟩), hdiffers⟩
          · exact ⟨first, Or.inl (Or.inr ⟨rfl, rfl⟩), hswap.trans hdiffers⟩
          · exact ⟨other, Or.inr hother, h⟩
        · obtain ⟨other, hother, h⟩ := ih.mp h
          exact ⟨other, Or.inr hother, h⟩
      · rintro ⟨other, (⟨rfl, rfl⟩ | ⟨rfl, rfl⟩) | hother, h⟩
        · rw [if_pos h]
          exact List.mem_cons_self
        · rw [if_pos (hswap.symm.trans h)]
          exact List.mem_cons_of_mem _ List.mem_cons_self
        · have hmem := ih.mpr ⟨other, hother, h⟩
          split_ifs
          · exact List.mem_cons_of_mem _ (List.mem_cons_of_mem _ hmem)
          · exact hmem

/-- Comparing neighbours finds the elements that differ from another one if all are the same, or
each differs from a neighbour. -/
theorem marked_complete_iff {group : List β}
    (hsymm : ∀ first ∈ group, ∀ second ∈ group, differs first second = differs second first)
    (htrans : ∀ first ∈ group, ∀ second ∈ group, ∀ third ∈ group, differs first second = false →
      differs second third = false → differs first third = false) :
    (∀ element ∈ group, element ∈ marked differs group ↔
      ∃ other ∈ group, differs element other = true) ↔
      (∀ element ∈ group, ∀ other ∈ group, differs element other = false) ∨
        ∀ element ∈ group, ∃ other, Adjacent group element other ∧
        differs element other = true := by
  constructor
  · intro h
    by_cases hsame : ∀ element ∈ group, ∀ other ∈ group, differs element other = false
    · exact Or.inl hsame
    · refine Or.inr fun element helement ↦ (mem_marked_iff hsymm).mp ((h element helement).mpr ?_)
      by_contra hnone
      push Not at hnone
      refine hsame fun first hfirst second hsecond ↦
        htrans first hfirst element helement second hsecond ?_ ?_
      · rw [hsymm first hfirst element helement]
        exact (Bool.not_eq_true _).mp (hnone first hfirst)
      · exact (Bool.not_eq_true _).mp (hnone second hsecond)
  · rintro (hsame | hneighbour) element helement
    · refine iff_of_false (fun hmem ↦ ?_) fun ⟨other, hother, h⟩ ↦ ?_
      · obtain ⟨other, hadjacent, h⟩ := (mem_marked_iff hsymm).mp hmem
        have hother : other ∈ group := by
          rcases hadjacent with hpart | hpart
          · exact hpart.subset (by simp)
          · exact hpart.subset (by simp)
        rw [hsame element helement other hother] at h
        cases h
      · rw [hsame element helement other hother] at h
        cases h
    · refine iff_of_true ((mem_marked_iff hsymm).mpr (hneighbour element helement)) ?_
      obtain ⟨other, hadjacent, h⟩ := hneighbour element helement
      refine ⟨other, ?_, h⟩
      rcases hadjacent with hpart | hpart
      · exact hpart.subset (by simp)
      · exact hpart.subset (by simp)

end Neighbours

end Userland.Library.Grouping
