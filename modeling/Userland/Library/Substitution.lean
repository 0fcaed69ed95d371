import Mathlib.Data.List.Infix

/-!
# References in texts

A text is a row of characters and references. Where the texts of the references are replaced one
after the other, each at its first place, every reference is replaced at its own place if its text
does not occur before it (`foldl_replaceFirst`).
-/

set_option autoImplicit false
set_option relaxedAutoImplicit false

namespace Userland.Library.Substitution

variable {α R : Type}

/-- A part of a text. -/
inductive Piece (α R : Type)
  | char (c : α)
  | reference (r : R)

/-- A text with other texts for its references. -/
def render (text : R → List α) (pieces : List (Piece α R)) : List α :=
  pieces.flatMap fun
    | .char c => [c]
    | .reference r => text r

/-- The references of a text. -/
def references (pieces : List (Piece α R)) : List R :=
  pieces.filterMap fun
    | .char _ => none
    | .reference r => some r

/-- The first place of a text is replaced. -/
def replaceFirst [DecidableEq α] (old new : List α) : List α → List α
  | [] => if old.isEmpty then new else []
  | c :: rest =>
    if old.isPrefixOf (c :: rest) then new ++ (c :: rest).drop old.length
    else c :: replaceFirst old new rest

/-- A text that its own last character ends for the first time. -/
def Closed (text : List α) : Prop :=
  ∃ inner last, text = inner ++ [last] ∧ last ∉ inner

theorem not_prefix_of_closed {old before rest : List α} (hclosed : Closed old) (hne : before ≠ [])
    (h : ¬ old <:+: before) : ¬ old <+: before ++ (old ++ rest) := by
  intro hbegins
  rcases List.prefix_or_prefix_of_prefix hbegins
    (List.prefix_append before (old ++ rest)) with hleft | ⟨tail, htail⟩
  · exact h hleft.isInfix
  · obtain ⟨inner, last, hold, hlast⟩ := hclosed
    have htailPrefix : tail <+: old ++ rest := by
      rw [← htail] at hbegins
      exact (List.prefix_append_right_inj before).mp (htail ▸ hbegins)
    by_cases hnil : tail = []
    · rw [hnil, List.append_nil] at htail
      exact h (htail ▸ List.infix_rfl)
    have hend : tail.getLast hnil = last := by
      have hlasts : (before ++ tail).getLast? = (inner ++ [last]).getLast? := by rw [htail, hold]
      rw [List.getLast?_append_of_ne_nil _ hnil, List.getLast?_concat,
        List.getLast?_eq_some_getLast hnil] at hlasts
      exact Option.some.inj hlasts
    have hlength : before.length + tail.length = inner.length + 1 := by
      rw [← List.length_append, htail, hold, List.length_append, List.length_singleton]
    have hbefore := List.length_pos_of_ne_nil hne
    have hinner : tail <+: inner := by
      refine List.prefix_of_prefix_length_le htailPrefix ?_ (by omega)
      rw [hold, List.append_assoc]
      exact List.prefix_append _ _
    exact hlast (hinner.subset (hend ▸ List.getLast_mem hnil))

variable [DecidableEq α]

/-- A text that is not found before is replaced. -/
theorem replaceFirst_append {old new before rest : List α} (hclosed : Closed old)
    (h : ¬ old <:+: before) :
    replaceFirst old new (before ++ (old ++ rest)) = before ++ (new ++ rest) := by
  induction before with
  | nil =>
    obtain ⟨inner, last, rfl, -⟩ := hclosed
    obtain ⟨c, tail, htail⟩ := List.exists_cons_of_ne_nil
      (List.append_ne_nil_of_right_ne_nil inner (List.cons_ne_nil last []))
    rw [List.nil_append, List.nil_append, htail, List.cons_append, replaceFirst, if_pos,
      ← List.cons_append, List.drop_left]
    exact List.isPrefixOf_iff_prefix.mpr (List.prefix_append _ _)
  | cons c before ih =>
    have hnot : ¬ old <+: c :: before ++ (old ++ rest) :=
      not_prefix_of_closed hclosed (List.cons_ne_nil c before) h
    rw [List.cons_append] at hnot
    rw [List.cons_append, replaceFirst, if_neg (mt List.isPrefixOf_iff_prefix.mp hnot),
      ih fun hpart ↦ h (List.infix_cons hpart), List.cons_append]

theorem replaceFirst_self {old : List α} (text : List α) : replaceFirst old old text = text := by
  induction text with
  | nil =>
    rw [replaceFirst]
    split_ifs with h
    · exact List.isEmpty_iff.mp h
    · rfl
  | cons c rest ih =>
    rw [replaceFirst]
    split_ifs with h
    · obtain ⟨tail, htail⟩ := List.isPrefixOf_iff_prefix.mp h
      rw [← htail, List.drop_left]
    · rw [ih]

/-- No reference has its text in what comes before it once that is replaced, unless it is replaced
by its own text. -/
def Undisturbed (text value : R → List α) (pieces : List (Piece α R)) : Prop :=
  ∀ before r after, pieces = before ++ .reference r :: after →
    value r = text r ∨ ¬ text r <:+: render value before

/-- The references are replaced at their own places. -/
theorem foldl_replaceFirst {text value : R → List α} {pieces : List (Piece α R)}
    (hclosed : ∀ r ∈ references pieces, Closed (text r)) (h : Undisturbed text value pieces) :
    (references pieces).foldl (fun new r ↦ replaceFirst (text r) (value r) new)
    (render text pieces) =
      render value pieces := by
  suffices hrun : ∀ before, (∀ middle r after, pieces = middle ++ .reference r :: after →
      value r = text r ∨ ¬ text r <:+: before ++ render value middle) →
        (references pieces).foldl (fun new r ↦ replaceFirst (text r) (value r) new)
          (before ++ render text pieces) =
          before ++ render value pieces from hrun [] h
  clear h
  induction pieces with
  | nil => exact fun before _ ↦ rfl
  | cons piece rest ih =>
    intro before h
    cases piece with
    | char c =>
      have hstep := ih hclosed (before ++ [c]) fun middle r after heq ↦ by
        rw [List.append_assoc]
        exact h (.char c :: middle) r after (by rw [heq]; rfl)
      rw [List.append_assoc, List.append_assoc] at hstep
      exact hstep
    | reference r =>
      have hstep := ih (fun r' hr' ↦ hclosed r' (List.mem_cons_of_mem _ hr')) (before ++ value r)
        fun middle r' after heq ↦ by
          rw [List.append_assoc]
          exact h (.reference r :: middle) r' after (by rw [heq]; rfl)
      have hfirst : replaceFirst (text r) (value r) (before ++ (text r ++ render text rest)) =
          before ++ (value r ++ render text rest) := by
        rcases h [] r rest rfl with hself | hnot
        · rw [hself, replaceFirst_self]
        · rw [render, List.flatMap_nil, List.append_nil] at hnot
          exact replaceFirst_append (hclosed r List.mem_cons_self) hnot
      show ((references rest).foldl _ (replaceFirst (text r) (value r)
        (before ++ (text r ++ render text rest)))) = _
      rw [hfirst, ← List.append_assoc, hstep, List.append_assoc]
      rfl

end Userland.Library.Substitution
