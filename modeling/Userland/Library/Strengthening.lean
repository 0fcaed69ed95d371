import Mathlib.Data.Set.Function

/-!
# Searching an optimal set by strengthening

A search looks for sets of named elements, one after the other, and after each set it excludes two
things: every element that is worse than the element of its name in the set, and every superset of
the set. A later set is then `Allowed` by all earlier ones. When no further set is allowed, the last
one cannot be improved: a set that improves it is itself allowed by every set found
(`allowed_of_improves`). This needs that two elements of one name are never equally good.
-/

set_option autoImplicit false
set_option relaxedAutoImplicit false

namespace Userland.Library

variable {α ν : Type*} (name : α → ν) (worse : α → α → Prop)

/-- `other` has the same names as `found`, none of its elements is worse than the one of its name in
`found`, and for some name the one in `found` is worse. -/
structure Improves (other found : Set α) : Prop where
  names : name '' other = name '' found
  not_worse : ∀ element ∈ other, ∀ old ∈ found, name element = name old → ¬ worse element old
  strict : ∃ element ∈ other, ∃ old ∈ found, name element = name old ∧ worse old element

/-- What the search excludes after `earlier` leaves `later`: no element of it is worse than one of
its name in `earlier`, and it is not a superset. -/
structure Allowed (later earlier : Set α) : Prop where
  not_worse : ∀ element ∈ later, ∀ old ∈ earlier, name element = name old → ¬ worse element old
  not_superset : ¬ earlier ⊆ later

/-- Assumes: the last set is allowed by the earlier ones, and elements of one name in `scope` that
are not worse than each other are equal. A set that improves the last one, with one element for a
name, is allowed by all of them. -/
theorem allowed_of_improves (scope last other : Set α)
    (htrans : ∀ first second third, ¬ worse second first → worse second third → worse first third)
    (hantisymm : ∀ first ∈ scope, ∀ second ∈ scope, name first = name second →
      ¬ worse first second → ¬ worse second first → first = second)
    {earlier : List (Set α)} (hlast : last ⊆ scope) (hother : other ⊆ scope)
    (hallowed : ∀ found ∈ earlier, Allowed name worse last found)
    (himproves : Improves name worse other last) (honce : Set.InjOn name other) :
    ∀ found ∈ last :: earlier, Allowed name worse other found := by
  have hnamed : ∀ element ∈ other, ∃ old ∈ last, name old = name element := fun element helement ↦
    (Set.mem_image _ _ _).mp (himproves.names ▸ Set.mem_image_of_mem name helement)
  intro found hfound
  rcases List.mem_cons.mp hfound with rfl | hfound
  · refine ⟨himproves.not_worse, fun hsuperset ↦ ?_⟩
    obtain ⟨element, helement, old, hold, hname, hworse⟩ := himproves.strict
    obtain rfl : element = old := honce helement (hsuperset hold) hname
    exact himproves.not_worse element helement element hold rfl hworse
  · have hfrom := hallowed found hfound
    refine ⟨fun element helement old hold hname hworse ↦ ?_, fun hsuperset ↦ ?_⟩
    · obtain ⟨kept, hkept, hkeptName⟩ := hnamed element helement
      have hnot := himproves.not_worse element helement kept hkept hkeptName.symm
      exact hfrom.not_worse kept hkept old hold (hkeptName.trans hname) (htrans _ _ _ hnot hworse)
    · refine hfrom.not_superset fun element helement ↦ ?_
      obtain ⟨kept, hkept, hkeptName⟩ := hnamed element (hsuperset helement)
      have hequal : element = kept := hantisymm element (hother (hsuperset helement)) kept
        (hlast hkept) hkeptName.symm
        (himproves.not_worse element (hsuperset helement) kept hkept hkeptName.symm)
        (hfrom.not_worse kept hkept element helement hkeptName)
      exact hequal ▸ hkept

end Userland.Library
