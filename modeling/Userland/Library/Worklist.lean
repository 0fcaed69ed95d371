import Mathlib.Data.List.Nodup
import Mathlib.Data.List.Perm.Basic
import Mathlib.Logic.Relation
import Userland.Library.Program

/-!
# Worklists

A worklist takes an element out of the set of elements it still needs, in an order it does not
control (`pop` is given any choice function), processes it, and adds the elements the processing has
found that were not taken before. `drain` runs it with a bound on the number of elements taken.

`drain_triple` is its invariant rule: what one element preserves holds when nothing is needed any
more. `drain_terminates` bounds the elements taken by the size of a U that holds all of them. When
the processing of an element finds its successors in a graph, the elements taken are those reachable
from the first ones (`drain_reachable`).
-/

set_option autoImplicit false
set_option relaxedAutoImplicit false

namespace Userland.Library

variable {α β σ ε : Type} [DecidableEq α]

/-- Takes an element out of a list, at a position that `pick` chooses. -/
def pop (pick : List α → ℕ) : List α → Option (α × List α)
  | [] => none
  | first :: rest =>
    let idx := pick (first :: rest) % (rest.length + 1)
    some ((first :: rest).get ⟨idx, Nat.mod_lt _ (Nat.succ_pos _)⟩, (first :: rest).eraseIdx idx)

omit [DecidableEq α] in
theorem pop_eq_none {pick : List α → ℕ} {list : List α} : pop pick list = none ↔ list = [] := by
  cases list <;> simp [pop]

omit [DecidableEq α] in
theorem perm_of_pop {pick : List α → ℕ} {list rest : List α} {element : α}
    (h : pop pick list = some (element, rest)) : list.Perm (element :: rest) := by
  cases list with
  | nil => simp [pop] at h
  | cons first others =>
    simp only [pop, Option.some_inj, Prod.mk.injEq] at h
    obtain ⟨rfl, rfl⟩ := h
    exact (List.getElem_cons_eraseIdx_perm (l := first :: others)
      (Nat.mod_lt _ (Nat.succ_pos _))).symm

/-- The elements still needed after `element` was taken and its processing found `found`. -/
def stillNeeded (found rest taken : List α) : List α :=
  found.filter (· ∉ taken) ∪ rest

theorem mem_stillNeeded {found rest taken : List α} {element : α} :
    element ∈ stillNeeded found rest taken ↔ element ∈ found ∧ element ∉ taken ∨
    element ∈ rest := by
  simp [stillNeeded]

/-- Takes elements until none is needed. The result is the accumulator and the elements taken, the
last one first; `none` if the fuel does not suffice. -/
def drain (pick : List α → ℕ) (step : β → α → Program σ ε (β × List α)) :
    ℕ → β → List α → List α → Program σ ε (Option (β × List α))
  | fuel, acc, needed, taken =>
    match pop pick needed with
    | none => pure (some (acc, taken))
    | some (element, rest) =>
      match fuel with
      | 0 => pure none
      | fuel + 1 => do
        let (acc, found) ← step acc element
        drain pick step fuel acc (stillNeeded found rest (element :: taken)) (element :: taken)

section Rules

variable {pick : List α → ℕ} {step : β → α → Program σ ε (β × List α)} {E : ε → σ → Prop}
  {I : β → List α → List α → σ → Prop}

/-- Assumes: processing one element keeps the invariant of accumulator, needed and taken elements.
A run that ends has it with nothing needed. -/
theorem drain_triple
    (hstep : ∀ acc element rest needed taken, needed.Perm (element :: rest) →
      Program.Triple (I acc needed taken) (step acc element)
        (fun result ↦ I result.1 (stillNeeded result.2 rest (element :: taken))
          (element :: taken)) E)
    (fuel : ℕ) (acc : β) (needed taken : List α) :
    Program.Triple (I acc needed taken) (drain pick step fuel acc needed taken)
      (fun result state ↦ ∀ acc taken, result = some (acc, taken) → I acc [] taken state) E := by
  induction fuel generalizing acc needed taken with
  | zero =>
    unfold drain
    cases hpop : pop pick needed with
    | none =>
      refine Program.Triple.pure fun state hstate acc' taken' hresult ↦ ?_
      cases hresult
      rwa [pop_eq_none.mp hpop] at hstate
    | some taken' => exact Program.Triple.pure fun state _ acc' taken'' hresult ↦ by cases hresult
  | succ fuel ih =>
    unfold drain
    cases hpop : pop pick needed with
    | none =>
      refine Program.Triple.pure fun state hstate acc' taken' hresult ↦ ?_
      cases hresult
      rwa [pop_eq_none.mp hpop] at hstate
    | some popped =>
      obtain ⟨element, rest⟩ := popped
      refine Program.Triple.bind (hstep acc element rest needed taken (perm_of_pop hpop)) ?_
      rintro ⟨acc', found⟩
      exact ih acc' _ _

/-- Assumes: every element that is needed or found lies in `pool`, and the fuel is at least the
number of its elements not taken yet. The run does not stop for lack of fuel. -/
theorem drain_terminates {P : σ → Prop} {U : List α}
    (hstep : ∀ acc element, element ∈ U → Program.Triple P (step acc element)
      (fun result state ↦ result.2 ⊆ U ∧ P state) E)
    (fuel : ℕ) (acc : β) (needed taken : List α) (hneeded : needed ⊆ U)
    (hnodup : needed.Nodup) (hdisjoint : ∀ element ∈ needed, element ∉ taken)
    (hfuel : (U.filter (· ∉ taken)).length ≤ fuel) :
    Program.Triple P (drain pick step fuel acc needed taken)
      (fun result state ↦ result.isSome ∧ P state) E := by
  induction fuel generalizing acc needed taken with
  | zero =>
    unfold drain
    cases hpop : pop pick needed with
    | none => exact Program.Triple.pure fun state hstate ↦ ⟨rfl, hstate⟩
    | some popped =>
      have hmem : popped.1 ∈ needed := (perm_of_pop hpop).symm.subset List.mem_cons_self
      have hleft : popped.1 ∈ U.filter (· ∉ taken) :=
        List.mem_filter.mpr ⟨hneeded hmem, decide_eq_true (hdisjoint _ hmem)⟩
      have hlength := List.length_pos_of_mem hleft
      omega
  | succ fuel ih =>
    unfold drain
    cases hpop : pop pick needed with
    | none => exact Program.Triple.pure fun state hstate ↦ ⟨rfl, hstate⟩
    | some popped =>
      obtain ⟨element, rest⟩ := popped
      have hperm := perm_of_pop hpop
      have hmem : element ∈ needed := hperm.symm.subset List.mem_cons_self
      refine Program.Triple.bind (hstep acc element (hneeded hmem)) ?_
      rintro ⟨acc', found⟩
      intro state hstate
      refine ih acc' _ _ ?_ ?_ ?_ ?_ state hstate.2
      · intro other hother
        rcases mem_stillNeeded.mp hother with ⟨hfound, -⟩ | hrest
        · exact hstate.1 hfound
        · exact hneeded (hperm.symm.subset (List.mem_cons_of_mem _ hrest))
      · exact List.Nodup.union _ (hperm.nodup_iff.mp hnodup).of_cons
      · intro other hother
        rcases mem_stillNeeded.mp hother with ⟨-, hnew⟩ | hrest
        · exact hnew
        · have hne : other ≠ element := by
            rintro rfl
            exact (List.nodup_cons.mp (hperm.nodup_iff.mp hnodup)).1 hrest
          rw [List.mem_cons, not_or]
          exact ⟨hne, hdisjoint other (hperm.symm.subset (List.mem_cons_of_mem _ hrest))⟩
      · have hlt : (U.filter (· ∉ element :: taken)).length <
            (U.filter (· ∉ taken)).length := by
          rw [show U.filter (· ∉ element :: taken) =
              (U.filter (· ∉ taken)).filter (· ≠ element) by
            rw [List.filter_filter]
            exact List.filter_congr fun other _ ↦ by simp]
          refine List.length_filter_lt_length_iff_exists.mpr ⟨element, ?_, by simp⟩
          exact List.mem_filter.mpr ⟨hneeded hmem, decide_eq_true (hdisjoint _ hmem)⟩
        omega

/-- More fuel changes nothing if the fuel sufficed. -/
theorem exec_drain_add {fuel : ℕ} {acc : β} {needed taken : List α} {state : σ}
    (h : (Program.exec (drain pick step fuel acc needed taken) state).1 ≠ .ok none) (more : ℕ) :
    Program.exec (drain pick step (fuel + more) acc needed taken) state =
      Program.exec (drain pick step fuel acc needed taken) state := by
  induction fuel generalizing acc needed taken state with
  | zero =>
    unfold drain at h ⊢
    cases hpop : pop pick needed with
    | none => rfl
    | some popped =>
      rw [hpop] at h
      exact absurd rfl h
  | succ fuel ih =>
    rw [Nat.succ_add]
    unfold drain at h ⊢
    cases hpop : pop pick needed with
    | none => rfl
    | some popped =>
      rw [hpop] at h
      dsimp only at h ⊢
      rw [Program.exec_bind] at h ⊢
      rw [Program.exec_bind]
      rcases hexec : Program.exec (step acc popped.1) state with ⟨error | ⟨acc', found⟩, next⟩
      · rfl
      · rw [hexec] at h
        exact ih h

/-- What a graph traversal keeps: the first elements are needed or taken, whatever is needed or
taken is reachable from them, and so is every successor of an element taken. -/
structure TraversalInvariant (N : α → α → Prop) (start needed taken : List α) : Prop where
  start_mem : ∀ element ∈ start, element ∈ needed ∨ element ∈ taken
  reachable : ∀ element, element ∈ needed ∨ element ∈ taken →
    ∃ first ∈ start, Relation.ReflTransGen N first element
  next_mem : ∀ element ∈ taken, ∀ other, N element other → other ∈ needed ∨ other ∈ taken

theorem traversalInvariant_step {N : α → α → Prop} {start needed rest taken found : List α}
    {element : α} (hinv : TraversalInvariant N start needed taken)
    (hperm : needed.Perm (element :: rest)) (hfound : ∀ other, other ∈ found ↔ N element other) :
    TraversalInvariant N start (stillNeeded found rest (element :: taken)) (element :: taken) := by
  have helement := hinv.reachable element (Or.inl (hperm.symm.subset List.mem_cons_self))
  have hmove : ∀ other, other ∈ needed ∨ other ∈ taken →
      other ∈ stillNeeded found rest (element :: taken) ∨ other ∈ element :: taken := by
    rintro other (hneeded | htaken)
    · rcases List.mem_cons.mp (hperm.subset hneeded) with rfl | hrest
      · exact Or.inr List.mem_cons_self
      · exact Or.inl (mem_stillNeeded.mpr (Or.inr hrest))
    · exact Or.inr (List.mem_cons_of_mem _ htaken)
  constructor
  · exact fun other hother ↦ hmove other (hinv.start_mem other hother)
  · rintro other (hneeded | htaken)
    · rcases mem_stillNeeded.mp hneeded with ⟨hother, -⟩ | hrest
      · obtain ⟨first, hfirst, hpath⟩ := helement
        exact ⟨first, hfirst, hpath.tail ((hfound other).mp hother)⟩
      · exact hinv.reachable other (Or.inl (hperm.symm.subset (List.mem_cons_of_mem _ hrest)))
    · rcases List.mem_cons.mp htaken with rfl | htaken
      · exact helement
      · exact hinv.reachable other (Or.inr htaken)
  · intro first hfirst other hnext
    rcases List.mem_cons.mp hfirst with rfl | hfirst
    · by_cases htaken : other ∈ first :: taken
      · exact Or.inr htaken
      · exact Or.inl (mem_stillNeeded.mpr (Or.inl ⟨(hfound other).mpr hnext, htaken⟩))
    · exact hmove other (hinv.next_mem first hfirst other hnext)

omit [DecidableEq α] in
theorem traversalInvariant_end {N : α → α → Prop} {start taken : List α}
    (hinv : TraversalInvariant N start [] taken) (element : α) :
    element ∈ taken ↔ ∃ first ∈ start, Relation.ReflTransGen N first element := by
  constructor
  · exact fun htaken ↦ hinv.reachable element (Or.inr htaken)
  · rintro ⟨first, hfirst, hpath⟩
    induction hpath with
    | refl => exact (hinv.start_mem first hfirst).resolve_left List.not_mem_nil
    | tail _ hnext ih => exact (hinv.next_mem _ ih _ hnext).resolve_left List.not_mem_nil

/-- Assumes: the processing of an element of the U finds its successors, which lie in the U. The
traversal ends, and has taken the elements reachable from the first ones. -/
theorem drain_reachable {N : α → α → Prop} {P : σ → Prop} {U : List α}
    (hstep : ∀ acc element, element ∈ U → Program.Triple P (step acc element)
      (fun result state ↦ (∀ other, other ∈ result.2 ↔ N element other) ∧ P state) E)
    (hpool : ∀ element ∈ U, ∀ other, N element other → other ∈ U)
    (fuel : ℕ) (acc : β) (start : List α) (hstart : start ⊆ U) (hnodup : start.Nodup)
    (hfuel : U.length ≤ fuel) :
    Program.Triple P (drain pick step fuel acc start [])
      (fun result state ↦ (∃ acc taken, result = some (acc, taken) ∧
        ∀ element, element ∈ taken ↔ ∃ first ∈ start, Relation.ReflTransGen N first element) ∧
        P state) E := by
  have hinPool : ∀ element, (∃ first ∈ start, Relation.ReflTransGen N first element) →
      element ∈ U := by
    rintro element ⟨first, hfirst, hpath⟩
    induction hpath with
    | refl => exact hstart hfirst
    | tail _ hnext ih => exact hpool _ ih _ hnext
  have hbegin : TraversalInvariant N start start [] :=
    ⟨fun _ h ↦ Or.inl h, fun element h ↦ ⟨element, h.resolve_right List.not_mem_nil, .refl⟩,
      fun _ h ↦ absurd h List.not_mem_nil⟩
  refine Program.Triple.weaken (Program.Triple.and
    (drain_triple (I := fun _ needed taken state ↦
      TraversalInvariant N start needed taken ∧ P state) ?_ fuel acc start [])
    (drain_terminates (P := P) (U := U) ?_ fuel acc start [] hstart hnodup (by simp)
      (by simpa using hfuel))) (fun state hstate ↦ ⟨⟨hbegin, hstate⟩, hstate⟩) ?_
    (fun _ _ herr ↦ herr)
  · intro acc element rest needed taken hperm
    refine Program.Triple.assume fun hinv ↦ ?_
    have hmem := hinPool element
      (hinv.reachable element (Or.inl (hperm.symm.subset List.mem_cons_self)))
    exact Program.Triple.weaken (hstep acc element hmem) (fun _ h ↦ h)
      (fun _ _ hpost ↦ ⟨traversalInvariant_step hinv hperm hpost.1, hpost.2⟩) (fun _ _ herr ↦ herr)
  · exact fun acc element hmem ↦ Program.Triple.weaken (hstep acc element hmem) (fun _ h ↦ h)
      (fun _ _ hpost ↦ ⟨fun other hother ↦ hpool element hmem other ((hpost.1 other).mp hother),
        hpost.2⟩) (fun _ _ herr ↦ herr)
  · rintro result state ⟨hinv, hsome, hstate⟩
    obtain ⟨⟨acc', taken⟩, rfl⟩ := Option.isSome_iff_exists.mp hsome
    exact ⟨⟨acc', taken, rfl, traversalInvariant_end (hinv acc' taken rfl).1⟩, hstate⟩

end Rules

end Userland.Library
