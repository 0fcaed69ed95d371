import Mathlib.Data.List.Basic
import Mathlib.Data.List.Pairwise

/-!
# Maps that may fail

`List.mapM` into `Option` yields a list exactly if the function yields a value for every element
(`exists_mapM_iff`), and the values of that list are those of the elements (`mem_mapM`).
-/

set_option autoImplicit false
set_option relaxedAutoImplicit false

namespace Userland.Library.Traverse

variable {α β : Type} {f : α → Option β} {l : List α}

theorem mapM_cons_eq_some {a : α} {out : List β} (h : (a :: l).mapM f = some out) :
    ∃ first rest, f a = some first ∧ l.mapM f = some rest ∧ out = first :: rest := by
  rw [List.mapM_cons] at h
  obtain ⟨first, hfirst, h⟩ := Option.bind_eq_some_iff.mp h
  obtain ⟨rest, hrest, h⟩ := Option.bind_eq_some_iff.mp h
  exact ⟨first, rest, hfirst, hrest, (Option.some.inj h).symm⟩

theorem mem_mapM {out : List β} (h : l.mapM f = some out) (b : β) :
    b ∈ out ↔ ∃ a ∈ l, f a = some b := by
  induction l generalizing out with
  | nil =>
    obtain rfl := Option.some.inj h
    simp
  | cons a l ih =>
    obtain ⟨first, rest, hfirst, hrest, rfl⟩ := mapM_cons_eq_some h
    rw [List.mem_cons, ih hrest]
    simp [hfirst, eq_comm]

theorem exists_mapM_iff : (∃ out, l.mapM f = some out) ↔ ∀ a ∈ l, ∃ b, f a = some b := by
  induction l with
  | nil => exact iff_of_true ⟨[], rfl⟩ (by simp)
  | cons a l ih =>
    rw [List.forall_mem_cons, ← ih]
    constructor
    · rintro ⟨out, hout⟩
      obtain ⟨first, rest, hfirst, hrest, -⟩ := mapM_cons_eq_some hout
      exact ⟨⟨first, hfirst⟩, rest, hrest⟩
    · rintro ⟨⟨first, hfirst⟩, rest, hrest⟩
      exact ⟨first :: rest, by rw [List.mapM_cons, hfirst, hrest]; rfl⟩

/-- What gives every element back from its value gives the list back. -/
theorem map_of_mapM {g : β → α} {out : List β} (h : l.mapM f = some out)
    (hg : ∀ a ∈ l, ∀ b, f a = some b → g b = a) : out.map g = l := by
  induction l generalizing out with
  | nil =>
    obtain rfl := Option.some.inj h
    rfl
  | cons a l ih =>
    obtain ⟨first, rest, hfirst, hrest, rfl⟩ := mapM_cons_eq_some h
    rw [List.map_cons, hg a List.mem_cons_self first hfirst,
      ih hrest fun b hb ↦ hg b (List.mem_cons_of_mem a hb)]

theorem mapM_map_eq_map {γ : Type} {g : γ → α} {k : γ → β} {l : List γ}
    (h : ∀ c ∈ l, f (g c) = some (k c)) :
    (l.map g).mapM f = some (l.map k) := by
  induction l with
  | nil => rfl
  | cons c l ih =>
    rw [List.map_cons, List.mapM_cons, h c List.mem_cons_self,
      ih fun d hd ↦ h d (List.mem_cons_of_mem c hd)]
    rfl

/-- The values of a list without duplicates have no duplicates if no two elements yield the same
one. -/
theorem nodup_filterMap_iff (h : l.Nodup) : (l.filterMap f).Nodup ↔
    ∀ a ∈ l, ∀ a' ∈ l, ∀ b, f a = some b → f a' = some b → a = a' := by
  rw [List.Nodup, List.pairwise_filterMap]
  constructor
  · intro hpairwise a ha a' ha' b hb hb'
    by_contra hne
    have : Std.Symm fun a a' ↦ ∀ b, f a = some b → ∀ b', f a' = some b' → b ≠ b' :=
      ⟨fun _ _ hne b hb b' hb' ↦ (hne b' hb' b hb).symm⟩
    exact hpairwise.forall ha ha' hne b hb b hb' rfl
  · intro hall
    refine h.imp_of_mem fun {a a'} ha ha' hne b hb b' hb' heq ↦ ?_
    exact hne (hall a ha a' ha' b hb (heq ▸ hb'))

end Userland.Library.Traverse
