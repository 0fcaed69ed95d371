import Mathlib.Data.List.Basic
import Mathlib.Data.List.Induction
import Mathlib.Order.Defs.Unbundled

/-!
# Elements that are taken into larger ones

A list is gone through in order, under a preorder. An element that lies below one that was kept is
taken into the first such, and any other is kept, unless a kept one lies below it, which is an
error. The elements that are kept are those that lie below none before them (`Leading`), and there
is no error exactly if no leading element lies below a later one that does not lie below it
(`exists_absorbAll_iff`).
-/

set_option autoImplicit false
set_option relaxedAutoImplicit false

namespace Userland.Library.Subsumption

variable {α β : Type} (below : β → β → Bool) (size : α → β) (take : α → α → α)

/-- An element is taken into the first kept one that it lies below, or kept itself. -/
def absorb : List α → α → Option (List α)
  | [], element => some [element]
  | kept :: rest, element =>
    if below (size element) (size kept) then some (take kept element :: rest)
    else if below (size kept) (size element) then none
    else (absorb rest element).map (kept :: ·)

/-- All elements are gone through. -/
def absorbAll (list : List α) : Option (List α) :=
  list.foldlM (absorb below size take) []

variable {below size take}

/-- An element of a list that lies below none before it. -/
def Leading (below : β → β → Bool) (list : List β) (element : β) : Prop :=
  ∃ front back, list = front ++ element :: back ∧ ∀ other ∈ front, below element other = false

/-- No leading element lies strictly below a later one. -/
def Ordered (below : β → β → Bool) (list : List β) : Prop :=
  ∀ front later back, list = front ++ later :: back → ∀ element, Leading below front element →
    below element later = true → below later element = true

theorem Leading.mem {list : List β} {element : β} (h : Leading below list element) :
    element ∈ list := by
  obtain ⟨front, back, rfl, -⟩ := h
  exact List.mem_append_right _ List.mem_cons_self

theorem leading_append_singleton {list : List β} {last element : β} :
    Leading below (list ++ [last]) element ↔ Leading below list element ∨
      element = last ∧ ∀ other ∈ list, below last other = false := by
  constructor
  · rintro ⟨front, back, heq, hfront⟩
    rcases List.eq_nil_or_concat back with rfl | ⟨back, final, rfl⟩
    · obtain ⟨rfl, hlast⟩ := List.append_inj' heq rfl
      obtain rfl := List.singleton_inj.mp hlast
      exact Or.inr ⟨rfl, hfront⟩
    · rw [List.concat_eq_append, ← List.cons_append, ← List.append_assoc] at heq
      exact Or.inl ⟨front, back, (List.append_inj' heq rfl).1, hfront⟩
  · rintro (⟨front, back, rfl, hfront⟩ | ⟨rfl, hfront⟩)
    · exact ⟨front, back ++ [last], by simp, hfront⟩
    · exact ⟨list, [], rfl, hfront⟩

theorem ordered_append_singleton {list : List β} {last : β} : Ordered below (list ++ [last]) ↔
    Ordered below list ∧ ∀ element, Leading below list element →
      below element last = true → below last element = true := by
  constructor
  · refine fun h ↦ ⟨fun front later back heq ↦ h front later (back ++ [last]) (by simp [heq]),
      h list last [] rfl⟩
  · rintro ⟨hlist, hlast⟩ front later back heq
    rcases List.eq_nil_or_concat back with rfl | ⟨back, final, rfl⟩
    · obtain ⟨rfl, hfinal⟩ := List.append_inj' heq rfl
      obtain rfl := List.singleton_inj.mp hfinal
      exact hlast
    · rw [List.concat_eq_append, ← List.cons_append, ← List.append_assoc] at heq
      exact hlist front later back (List.append_inj' heq rfl).1

/-! ### What is kept -/

section Kept

variable (hrefl : ∀ size, below size size = true)
  (htrans : ∀ first second third, below first second = true → below second third = true →
    below first third = true)
  (hsize : ∀ kept element, size (take kept element) = size kept)

include hrefl htrans in
/-- Every element lies below a leading one. -/
theorem exists_leading {list : List β} {element : β} (h : element ∈ list) :
    ∃ leading, Leading below list leading ∧ below element leading = true := by
  induction list using List.reverseRecOn generalizing element with
  | nil => exact absurd h List.not_mem_nil
  | append_singleton list last ih =>
    have hlist : ∀ other ∈ list, below element other = true →
        ∃ leading, Leading below (list ++ [last]) leading ∧ below element leading = true := by
      intro other hother hbelow
      obtain ⟨leading, hleading, hother'⟩ := ih hother
      exact ⟨leading, leading_append_singleton.mpr (Or.inl hleading), htrans _ _ _ hbelow hother'⟩
    rcases List.mem_append.mp h with helement | hlast
    · exact hlist element helement (hrefl element)
    · obtain rfl := List.mem_singleton.mp hlast
      by_cases hall : ∀ other ∈ list, below element other = false
      · exact ⟨element, leading_append_singleton.mpr (Or.inr ⟨rfl, hall⟩), hrefl element⟩
      · simp only [not_forall, Bool.not_eq_false] at hall
        obtain ⟨other, hother, hbelow⟩ := hall
        exact hlist other hother hbelow

/-- No kept element lies below another. -/
def Antichain (below : β → β → Bool) (size : α → β) (kept : List α) : Prop :=
  kept.Pairwise fun first second ↦
    below (size first) (size second) = false ∧ below (size second) (size first) = false

include htrans in
/-- An element is refused if a kept one lies strictly below it. -/
theorem absorb_eq_none_iff {kept : List α} (hkept : Antichain below size kept) (element : α) :
    absorb below size take kept element = none ↔ ∃ other ∈ kept,
      below (size other) (size element) = true ∧ below (size element) (size other) = false := by
  induction kept with
  | nil => simp [absorb]
  | cons first kept ih =>
    obtain ⟨hfirst, hrest⟩ := List.pairwise_cons.mp hkept
    rw [absorb]
    split_ifs with hbelow habove
    · refine iff_of_false (by simp) ?_
      rintro ⟨other, hother, hunder, hover⟩
      rcases List.mem_cons.mp hother with rfl | hother
      · rw [hbelow] at hover
        cases hover
      · have h := htrans _ _ _ hunder hbelow
        rw [(hfirst other hother).2] at h
        cases h
    · exact iff_of_true rfl ⟨first, List.mem_cons_self, habove, (Bool.not_eq_true _).mp hbelow⟩
    · rw [Option.map_eq_none_iff, ih hrest, List.exists_mem_cons_iff, or_iff_right]
      exact fun h ↦ habove h.1

/-- What is kept after an element that was not refused. -/
theorem absorb_eq_some {kept found : List α} {element : α}
    (h : absorb below size take kept element = some found) :
    (∃ front first back, kept = front ++ first :: back ∧ below (size element) (size first) = true ∧
      found = front ++ take first element :: back) ∨
    (∀ other ∈ kept, below (size element) (size other) = false ∧
      below (size other) (size element) = false) ∧ found = kept ++ [element] := by
  induction kept generalizing found with
  | nil => exact Or.inr ⟨by simp, (Option.some.inj h).symm⟩
  | cons first kept ih =>
    rw [absorb] at h
    split_ifs at h with hbelow habove
    · exact Or.inl ⟨[], first, kept, rfl, hbelow, (Option.some.inj h).symm⟩
    · obtain ⟨rest, hrest, rfl⟩ := Option.map_eq_some_iff.mp h
      rcases ih hrest with ⟨front, other, back, rfl, hother, rfl⟩ | ⟨hall, rfl⟩
      · exact Or.inl ⟨first :: front, other, back, rfl, hother, rfl⟩
      · refine Or.inr ⟨List.forall_mem_cons.mpr ⟨⟨?_, ?_⟩, hall⟩, rfl⟩
        · exact (Bool.not_eq_true _).mp hbelow
        · exact (Bool.not_eq_true _).mp habove

/-- What is kept of a list: the leading elements, none of them below another. -/
structure Keeps (below : β → β → Bool) (size : α → β) (list kept : List α) : Prop where
  antichain : Antichain below size kept
  leading : ∀ element, element ∈ kept.map size ↔ Leading below (list.map size) element

include hrefl htrans hsize in
theorem Keeps.absorb {list kept found : List α} {element : α} (h : Keeps below size list kept)
    (hfound : absorb below size take kept element = some found) :
    Keeps below size (list ++ [element]) found := by
  have hnot : ∀ other ∈ kept, below (size element) (size other) = true →
      ∃ other ∈ list.map size, below (size element) other = true := fun other hother hbelow ↦
    ⟨size other, ((h.leading _).mp (List.mem_map_of_mem hother)).mem, hbelow⟩
  rcases absorb_eq_some hfound with ⟨front, first, back, rfl, hbelow, rfl⟩ | ⟨hall, rfl⟩
  · have hmap : (front ++ take first element :: back).map size =
        (front ++ first :: back).map size := by
      simp [hsize]
    refine ⟨?_, fun other ↦ ?_⟩
    · have hantichain := h.antichain
      unfold Antichain at hantichain ⊢
      rw [← List.pairwise_map (f := size) (R := fun a b ↦ below a b = false ∧
        below b a = false)] at hantichain ⊢
      rwa [hmap]
    · rw [hmap, h.leading, List.map_append, List.map_singleton, leading_append_singleton,
        or_iff_left]
      rintro ⟨-, hnone⟩
      obtain ⟨other, hother, habove⟩ := hnot first (by simp) hbelow
      rw [hnone other hother] at habove
      cases habove
  · refine ⟨List.pairwise_append.mpr ⟨h.antichain, List.pairwise_singleton _ _, ?_⟩, fun other ↦ ?_⟩
    · intro other hother last hlast
      obtain rfl := List.mem_singleton.mp hlast
      exact (hall other hother).symm
    · rw [List.map_append, List.map_append, List.mem_append, h.leading, List.map_singleton,
        List.mem_singleton, leading_append_singleton]
      refine or_congr_right (iff_self_and.mpr fun _ ↦ fun other' hother' ↦ ?_)
      obtain ⟨leading, hleading, hother''⟩ := exists_leading hrefl htrans hother'
      obtain ⟨kept', hkept', rfl⟩ := List.mem_map.mp ((h.leading leading).mpr hleading)
      refine (Bool.not_eq_true _).mp fun hbelow ↦ ?_
      have h' := htrans _ _ _ hbelow hother''
      rw [(hall kept' hkept').1] at h'
      cases h'

theorem absorbAll_append_singleton (list : List α) (last : α) :
    absorbAll below size take (list ++ [last]) =
      (absorbAll below size take list).bind fun kept ↦ absorb below size take kept last := by
  rw [absorbAll, List.foldlM_append]
  simp [absorbAll]

include hrefl htrans hsize in
theorem keeps_of_absorbAll {list kept : List α} (h : absorbAll below size take list = some kept) :
    Keeps below size list kept := by
  induction list using List.reverseRecOn generalizing kept with
  | nil =>
    obtain rfl := Option.some.inj h
    exact ⟨List.Pairwise.nil, fun element ↦ iff_of_false List.not_mem_nil fun h ↦
      List.not_mem_nil h.mem⟩
  | append_singleton list last ih =>
    rw [absorbAll_append_singleton, Option.bind_eq_some_iff] at h
    obtain ⟨found, hfound, hlast⟩ := h
    exact (ih hfound).absorb hrefl htrans hsize hlast

include hrefl htrans hsize in
/-- All elements are gone through without an error exactly if the list is ordered. -/
theorem exists_absorbAll_iff (list : List α) :
    (∃ kept, absorbAll below size take list = some kept) ↔ Ordered below (list.map size) := by
  induction list using List.reverseRecOn with
  | nil =>
    refine iff_of_true ⟨[], rfl⟩ fun front later back heq ↦ ?_
    simp at heq
  | append_singleton list last ih =>
    rw [List.map_append, List.map_singleton, ordered_append_singleton, ← ih,
      absorbAll_append_singleton]
    constructor
    · rintro ⟨found, hfound⟩
      obtain ⟨kept, hkept, hlast⟩ := Option.bind_eq_some_iff.mp hfound
      have hkeeps := keeps_of_absorbAll hrefl htrans hsize hkept
      refine ⟨⟨kept, hkept⟩, fun element hleading hbelow ↦ ?_⟩
      obtain ⟨other, hother, rfl⟩ := List.mem_map.mp ((hkeeps.leading element).mpr hleading)
      by_contra hnot
      have hnone : absorb below size take kept last = none :=
        (absorb_eq_none_iff htrans hkeeps.antichain last).mpr
          ⟨other, hother, hbelow, (Bool.not_eq_true _).mp hnot⟩
      rw [hnone] at hlast
      cases hlast
    · rintro ⟨⟨kept, hkept⟩, hordered⟩
      have hkeeps := keeps_of_absorbAll hrefl htrans hsize hkept
      cases hlast : absorb below size take kept last with
      | some found => exact ⟨found, Option.bind_eq_some_iff.mpr ⟨kept, hkept, hlast⟩⟩
      | none =>
        obtain ⟨other, hother, hbelow, hnot⟩ :=
          (absorb_eq_none_iff htrans hkeeps.antichain last).mp hlast
        have habove :=
          hordered (size other) ((hkeeps.leading _).mp (List.mem_map_of_mem hother)) hbelow
        rw [hnot] at habove
        cases habove

/-! ### What becomes of the elements -/

/-- Each kept element comes from an element of the list. -/
theorem exists_of_mem_absorbAll {R : α → α → Prop} (hself : ∀ element, R element element)
    (hkeep : ∀ element kept other, R element kept → R element (take kept other))
    {list kept : List α}
    (h : absorbAll below size take list = some kept) :
    ∀ found ∈ kept, ∃ element ∈ list, R element found := by
  induction list using List.reverseRecOn generalizing kept with
  | nil =>
    obtain rfl := Option.some.inj h
    exact fun found hfound ↦ absurd hfound List.not_mem_nil
  | append_singleton list last ih =>
    rw [absorbAll_append_singleton, Option.bind_eq_some_iff] at h
    obtain ⟨before, hbefore, hlast⟩ := h
    have hall : ∀ found ∈ before, ∃ element ∈ list ++ [last], R element found := by
      intro found hfound
      obtain ⟨element, helement, hR⟩ := ih hbefore found hfound
      exact ⟨element, List.mem_append_left _ helement, hR⟩
    intro found hfound
    rcases absorb_eq_some hlast with ⟨front, first, back, rfl, -, rfl⟩ | ⟨-, rfl⟩
    · rcases List.mem_append.mp hfound with hfront | hback
      · exact hall found (List.mem_append_left _ hfront)
      · rcases List.mem_cons.mp hback with rfl | hback
        · obtain ⟨element, helement, hR⟩ := hall first (by simp)
          exact ⟨element, helement, hkeep element first last hR⟩
        · exact hall found (by simp [hback])
    · rcases List.mem_append.mp hfound with hbefore' | hlast'
      · exact hall found hbefore'
      · obtain rfl := List.mem_singleton.mp hlast'
        exact ⟨found, by simp, hself found⟩

/-- Each element is kept, or taken into a kept one. -/
theorem exists_kept_of_mem {R : α → α → Prop} (hself : ∀ element, R element element)
    (htake : ∀ kept element, below (size element) (size kept) = true →
      R element (take kept element))
    (hkeep : ∀ element kept other, R element kept → R element (take kept other))
    {list kept : List α}
    (h : absorbAll below size take list = some kept) :
    ∀ element ∈ list, ∃ found ∈ kept, R element found := by
  induction list using List.reverseRecOn generalizing kept with
  | nil => exact fun element helement ↦ absurd helement List.not_mem_nil
  | append_singleton list last ih =>
    rw [absorbAll_append_singleton, Option.bind_eq_some_iff] at h
    obtain ⟨before, hbefore, hlast⟩ := h
    intro element helement
    rcases absorb_eq_some hlast with ⟨front, first, back, rfl, hbelow, rfl⟩ | ⟨-, rfl⟩
    · rcases List.mem_append.mp helement with hlist | hlast'
      · obtain ⟨found, hfound, hR⟩ := ih hbefore element hlist
        rcases List.mem_append.mp hfound with hfront | hback
        · exact ⟨found, List.mem_append_left _ hfront, hR⟩
        · rcases List.mem_cons.mp hback with rfl | hback
          · exact ⟨_, by simp, hkeep element found last hR⟩
          · exact ⟨found, by simp [hback], hR⟩
      · obtain rfl := List.mem_singleton.mp hlast'
        exact ⟨_, by simp, htake first element hbelow⟩
    · rcases List.mem_append.mp helement with hlist | hlast'
      · obtain ⟨found, hfound, hR⟩ := ih hbefore element hlist
        exact ⟨found, List.mem_append_left _ hfound, hR⟩
      · obtain rfl := List.mem_singleton.mp hlast'
        exact ⟨element, by simp, hself element⟩

end Kept

end Userland.Library.Subsumption
