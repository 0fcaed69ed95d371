import Mathlib.Data.List.Basic
import Mathlib.Data.Int.Notation

/-!
# Address ranges

The address part of `execute` in `mod_sed/sed1.c` for a command with two addresses, whose range is
open while its entry of `inar` is set. It is compared with the automaton of ranges (`rangeStep`):
the two select the same lines of every input if and only if no line matches the first address again
while the flag of a range that has ended at a line number is still set (`selections_eq_iff`).

Scope. A command with no address or one has no flag, and is left out. What an expression matches is
a parameter of each line. The lines at which a command is reached have growing numbers, and only the
last one may be the last of the input.
-/

set_option autoImplicit false
set_option relaxedAutoImplicit false

namespace Userland.ModSed

variable {ε : Type*}

/-- A compiled address: `CEND`, `CLNUM` with an index of `tlno`, or an expression. -/
inductive Address (ε : Type*)
  | cend
  | clnum (c : UInt8)
  | regexp (expbuf : ε)

/-- The addresses of a command, and whether a `!` stands behind them. -/
structure Reptr (ε : Type*) where
  ad1 : Address ε
  ad2 : Address ε
  negfl : Bool

/-- A line at which the command is reached, with what its pattern space matches. -/
structure Line (ε : Type*) where
  lnum : ℤ
  dolflag : Bool
  matched : ε → Bool

section Execute

variable (tlno : UInt8 → ℤ) (ipc : Reptr ε)

/-- Whether `execute` goes to `yes` at a line, and the flag of the command after that. -/
def executeAt (inar : Bool) (line : Line ε) : Bool × Bool :=
  if inar then
    match ipc.ad2 with
    | .cend => (!ipc.negfl, inar)
    | .clnum c =>
      if line.lnum > tlno c then (ipc.negfl, false)
      else if line.lnum = tlno c then (!ipc.negfl, false)
      else (!ipc.negfl, inar)
    | .regexp expbuf => if line.matched expbuf then (!ipc.negfl, false) else (!ipc.negfl, inar)
  else
    match ipc.ad1 with
    | .cend => if line.dolflag then (!ipc.negfl, inar) else (ipc.negfl, inar)
    | .clnum c => if line.lnum ≠ tlno c then (ipc.negfl, inar) else (!ipc.negfl, true)
    | .regexp expbuf => if line.matched expbuf then (!ipc.negfl, true) else (ipc.negfl, inar)

/-- The lines that are selected among those at which the command is reached. -/
def selections (inar : Bool) : List (Line ε) → List Bool
  | [] => []
  | line :: lines => (executeAt tlno ipc inar line).1 ::
    selections (executeAt tlno ipc inar line).2 lines

/-! ### The automaton -/

/-- A line matches an address. -/
def Address.holds (line : Line ε) : Address ε → Bool
  | .cend => line.dolflag
  | .clnum c => line.lnum = tlno c
  | .regexp expbuf => line.matched expbuf

/-- The number of a line is greater than an address that is a line number. -/
def Address.isBefore (line : Line ε) : Address ε → Bool
  | .clnum c => tlno c < line.lnum
  | _ => false

/-- An open range has every line up to the one that matches the second address, and ends at once
when that is a line number which has been passed. A line that matches the first address opens a
range, which is left open unless the second address is a line number that is not greater. -/
def rangeStep (isOpen : Bool) (line : Line ε) : Bool × Bool :=
  if isOpen ∧ ipc.ad2.isBefore tlno line = false then (true, !ipc.ad2.holds tlno line)
  else if ipc.ad1.holds tlno line then
    match ipc.ad2 with
    | .clnum c => (true, line.lnum < tlno c)
    | _ => (true, true)
  else (false, false)

/-- What the automaton selects, or with a `!` what it does not select. -/
def rangeSelections (isOpen : Bool) : List (Line ε) → List Bool
  | [] => []
  | line :: lines => xor ipc.negfl (rangeStep tlno ipc isOpen line).1 ::
      rangeSelections (rangeStep tlno ipc isOpen line).2 lines

/-- The numbers of the lines grow, and only the last line may be the last of the input. -/
def InOrder (lines : List (Line ε)) : Prop :=
  lines.Pairwise fun line line' ↦ line.lnum < line'.lnum ∧ line.dolflag = false

/-- The flag is still set for a range that has ended at a line number, and the line matches the
first address. -/
def Misses (inar : Bool) (line : Line ε) : Prop :=
  inar = true ∧ ipc.ad2.isBefore tlno line = true ∧ ipc.ad1.holds tlno line = true

/-- No line is missed, from a flag on. -/
def NoneMissed (inar : Bool) : List (Line ε) → Prop
  | [] => True
  | line :: lines => ¬ Misses tlno ipc inar line ∧ NoneMissed (executeAt tlno ipc inar line).2 lines

end Execute

/-! ### The flag and the automaton -/

variable {tlno : UInt8 → ℤ} {ipc : Reptr ε} {inar isOpen : Bool} {line : Line ε}
  {lines : List (Line ε)}

/-- Where there are lines to come, the flag is set for an open range, and for a range only that is
open or has ended at a line number before them. -/
def Tracks (tlno : UInt8 → ℤ) (ipc : Reptr ε) (inar isOpen : Bool) (lines : List (Line ε)) : Prop :=
  lines ≠ [] → (isOpen = true → inar = true) ∧
    (inar = true → isOpen = true ∨ ∀ line ∈ lines, ipc.ad2.isBefore tlno line = true)

/-- Where the flag is not set, both look at the first address. -/
theorem executeAt_closed (horder : InOrder (line :: lines)) :
    (executeAt tlno ipc false line).1 = xor ipc.negfl (rangeStep tlno ipc false line).1 ∧
      Tracks tlno ipc (executeAt tlno ipc false line).2
      (rangeStep tlno ipc false line).2 lines := by
  have hlater := (List.pairwise_cons.mp horder).1
  have hrange : rangeStep tlno ipc false line = if ipc.ad1.holds tlno line then
      match ipc.ad2 with
      | .clnum c => (true, line.lnum < tlno c)
      | _ => (true, true)
      else (false, false) := if_neg fun hopen ↦ Bool.false_ne_true hopen.1
  have hexecute : ∃ flag, executeAt tlno ipc false line =
      (xor ipc.negfl (ipc.ad1.holds tlno line), flag) ∧
          (lines ≠ [] → flag = ipc.ad1.holds tlno line) := by
    unfold executeAt Address.holds
    cases ipc.ad1 with
    | cend =>
      dsimp only
      by_cases hlast : line.dolflag = true
      · refine ⟨false, by simp [hlast], fun hne ↦ ?_⟩
        obtain ⟨next, hnext⟩ := List.exists_mem_of_ne_nil lines hne
        rw [hlast] at hlater
        exact absurd (hlater next hnext).2 Bool.noConfusion
      · rw [Bool.not_eq_true] at hlast
        exact ⟨false, by simp [hlast], fun _ ↦ hlast.symm⟩
    | clnum c =>
      by_cases heq : line.lnum = tlno c
      · exact ⟨true, by simp [heq], fun _ ↦ (decide_eq_true heq).symm⟩
      · exact ⟨false, by simp [heq], fun _ ↦ (decide_eq_false heq).symm⟩
    | regexp expbuf =>
      cases hmatched : line.matched expbuf with
      | false => exact ⟨false, by simp [hmatched], fun _ ↦ hmatched.symm⟩
      | true => exact ⟨true, by simp [hmatched], fun _ ↦ hmatched.symm⟩
  obtain ⟨flag, hflag, htracked⟩ := hexecute
  rw [hrange, hflag]
  cases hfirst : ipc.ad1.holds tlno line with
  | false =>
    refine ⟨rfl, fun hne ↦ ⟨fun hopen ↦ absurd hopen Bool.false_ne_true, fun hset ↦ ?_⟩⟩
    exact absurd ((htracked hne).symm.trans hset) (by rw [hfirst]; exact Bool.false_ne_true)
  | true =>
    cases had2 : ipc.ad2 with
    | cend => exact ⟨rfl, fun hne ↦ ⟨fun _ ↦ (htracked hne).trans hfirst, fun _ ↦ Or.inl rfl⟩⟩
    | regexp expbuf =>
      exact ⟨rfl, fun hne ↦ ⟨fun _ ↦ (htracked hne).trans hfirst, fun _ ↦ Or.inl rfl⟩⟩
    | clnum c =>
      refine ⟨rfl, fun hne ↦ ⟨fun _ ↦ (htracked hne).trans hfirst, fun _ ↦ ?_⟩⟩
      by_cases hopen : line.lnum < tlno c
      · exact Or.inl (decide_eq_true hopen)
      · refine Or.inr fun next hnext ↦ ?_
        have hgrows := (hlater next hnext).1
        rw [had2, Address.isBefore, decide_eq_true_eq]
        omega

/-- Where the flag of a range is set that has ended at a line number before, neither selects the
line, unless it is missed. -/
theorem executeAt_before (hbefore : ipc.ad2.isBefore tlno line = true)
    (hfirst : ipc.ad1.holds tlno line = false) :
    executeAt tlno ipc true line = (ipc.negfl, false) ∧
    rangeStep tlno ipc isOpen line = (false, false) := by
  constructor
  · unfold executeAt
    cases had2 : ipc.ad2 with
    | clnum c =>
      rw [had2, Address.isBefore, decide_eq_true_eq] at hbefore
      dsimp only
      rw [if_pos rfl, if_pos hbefore]
    | cend => rw [had2] at hbefore; cases hbefore
    | regexp expbuf => rw [had2] at hbefore; cases hbefore
  · unfold rangeStep
    rw [if_neg fun hopen ↦ by rw [hbefore] at hopen; exact Bool.false_ne_true hopen.2.symm, hfirst]
    rfl

/-- In an open range that has not been passed, both select the line and look at the second address.
-/
theorem executeAt_open (horder : InOrder (line :: lines))
    (hbefore : ipc.ad2.isBefore tlno line = false) :
    (executeAt tlno ipc true line).1 = xor ipc.negfl (rangeStep tlno ipc true line).1 ∧
      Tracks tlno ipc (executeAt tlno ipc true line).2 (rangeStep tlno ipc true line).2 lines := by
  have hlater := (List.pairwise_cons.mp horder).1
  have hrange : rangeStep tlno ipc true line = (true, !ipc.ad2.holds tlno line) :=
    if_pos ⟨rfl, hbefore⟩
  have hexecute : ∃ flag, executeAt tlno ipc true line = (!ipc.negfl, flag) ∧
      (lines ≠ [] → flag = !ipc.ad2.holds tlno line) := by
    unfold executeAt Address.holds
    cases had2 : ipc.ad2 with
    | cend =>
      refine ⟨true, rfl, fun hne ↦ ?_⟩
      obtain ⟨next, hnext⟩ := List.exists_mem_of_ne_nil lines hne
      dsimp only
      rw [(hlater next hnext).2]
      rfl
    | clnum c =>
      rw [had2, Address.isBefore, decide_eq_false_iff_not] at hbefore
      dsimp only
      rw [if_pos rfl, if_neg hbefore]
      by_cases heq : line.lnum = tlno c
      · exact ⟨false, if_pos heq, fun _ ↦ by rw [decide_eq_true heq]; rfl⟩
      · exact ⟨true, if_neg heq, fun _ ↦ by rw [decide_eq_false heq]; rfl⟩
    | regexp expbuf =>
      dsimp only
      cases hmatched : line.matched expbuf with
      | false => exact ⟨true, rfl, fun _ ↦ rfl⟩
      | true => exact ⟨false, rfl, fun _ ↦ rfl⟩
  obtain ⟨flag, hflag, htracked⟩ := hexecute
  rw [hrange, hflag]
  exact ⟨(Bool.xor_true _).symm, fun hne ↦ by rw [htracked hne]; exact ⟨id, Or.inl⟩⟩

/-- A line that is not missed is selected by both or by none of them. -/
theorem step_of_not_misses (horder : InOrder (line :: lines))
    (htracks : Tracks tlno ipc inar isOpen (line :: lines)) (h : ¬ Misses tlno ipc inar line) :
    (executeAt tlno ipc inar line).1 = xor ipc.negfl (rangeStep tlno ipc isOpen line).1 ∧
      Tracks tlno ipc (executeAt tlno ipc inar line).2
      (rangeStep tlno ipc isOpen line).2 lines := by
  obtain ⟨hset, hended⟩ := htracks (List.cons_ne_nil line lines)
  cases inar with
  | false =>
    cases isOpen with
    | false => exact executeAt_closed horder
    | true => exact absurd (hset rfl) Bool.false_ne_true
  | true =>
    cases hbefore : ipc.ad2.isBefore tlno line with
    | true =>
      have hfirst : ipc.ad1.holds tlno line = false := (Bool.not_eq_true _).mp fun hfirst ↦
        h ⟨rfl, hbefore, hfirst⟩
      obtain ⟨hexecute, hrange⟩ := @executeAt_before _ tlno ipc isOpen line hbefore hfirst
      rw [hexecute, hrange]
      exact ⟨(Bool.xor_false _).symm, fun _ ↦ ⟨id, Or.inl⟩⟩
    | false =>
      obtain hopen | hpassed := hended rfl
      · rw [hopen]
        exact executeAt_open horder hbefore
      · exact absurd (hpassed line List.mem_cons_self) (by rw [hbefore]; exact Bool.false_ne_true)

theorem step_of_misses (h : Misses tlno ipc inar line) :
    (executeAt tlno ipc inar line).1 = ipc.negfl ∧ (rangeStep tlno ipc isOpen line).1 = true := by
  obtain ⟨rfl, hbefore, hfirst⟩ := h
  constructor
  · unfold executeAt
    cases had2 : ipc.ad2 with
    | clnum c =>
      rw [had2, Address.isBefore, decide_eq_true_eq] at hbefore
      dsimp only
      rw [if_pos rfl, if_pos hbefore]
    | cend => rw [had2] at hbefore; cases hbefore
    | regexp expbuf => rw [had2] at hbefore; cases hbefore
  · unfold rangeStep
    rw [if_neg fun hopen ↦ by
      rw [hbefore] at hopen; exact Bool.false_ne_true hopen.2.symm, if_pos hfirst]
    cases ipc.ad2 <;> rfl

theorem selections_eq_iff_of_tracks (horder : InOrder lines)
    (htracks : Tracks tlno ipc inar isOpen lines) :
    selections tlno ipc inar lines = rangeSelections tlno ipc isOpen lines ↔
    NoneMissed tlno ipc inar lines := by
  induction lines generalizing inar isOpen with
  | nil => exact ⟨fun _ ↦ trivial, fun _ ↦ rfl⟩
  | cons line lines ih =>
    rw [selections, rangeSelections, NoneMissed, List.cons.injEq]
    by_cases hmisses : Misses tlno ipc inar line
    · obtain ⟨hexecute, hrange⟩ := @step_of_misses _ tlno ipc inar isOpen line hmisses
      refine ⟨fun hsame ↦ ?_, fun hnone ↦ absurd hmisses hnone.1⟩
      rw [hexecute, hrange, Bool.xor_true] at hsame
      exact ((Bool.eq_not_self _).mp hsame.1).elim
    · obtain ⟨hsame, htracks'⟩ := step_of_not_misses horder htracks hmisses
      rw [ih (List.pairwise_cons.mp horder).2 htracks']
      exact ⟨fun hrest ↦ ⟨hmisses, hrest.2⟩, fun hrest ↦ ⟨hsame, hrest.2⟩⟩

/-- The lines that `execute` selects for a command with two addresses are those of the automaton,
whatever the addresses are, if and only if no line matches the first address while the flag is still
set for a range that has ended at a line number. -/
theorem selections_eq_iff (tlno : UInt8 → ℤ) (ipc : Reptr ε) (lines : List (Line ε))
    (horder : InOrder lines) :
    selections tlno ipc false lines = rangeSelections tlno ipc false lines ↔
    NoneMissed tlno ipc false lines :=
  selections_eq_iff_of_tracks horder fun _ ↦ ⟨id, fun hset ↦ absurd hset Bool.false_ne_true⟩

/-- Lines with some numbers, the last of the input among them, that all match. -/
def allMatching (numbers : List ℤ) (last : ℤ) : List (Line Unit) :=
  numbers.map fun lnum ↦ ⟨lnum, lnum = last, fun _ ↦ true⟩

theorem inOrder_five_six : InOrder (allMatching [5, 6] 6) := by
  rw [InOrder, allMatching, List.map_cons, List.map_singleton, List.pairwise_pair]
  exact ⟨by decide, rfl⟩

theorem selections_eq_iff_matching :
    selections (fun _ ↦ 7) ⟨.regexp (), .clnum 0, false⟩ false (allMatching [5, 6] 6) =
        rangeSelections (fun _ ↦ 7) ⟨.regexp (), .clnum 0, false⟩ false (allMatching [5, 6] 6) ↔
      NoneMissed (fun _ ↦ 7) ⟨.regexp (), .clnum 0, false⟩ false (allMatching [5, 6] 6) :=
  selections_eq_iff (fun _ ↦ 7) ⟨.regexp (), .clnum 0,
    false⟩ (allMatching [5, 6] 6) inOrder_five_six

/-- With the second address 1, the first of two lines that match the first address is selected, and
the second is not. -/
theorem not_selections_eq_second :
    ¬ ∀ (tlno : UInt8 → ℤ) (ipc : Reptr Unit) (lines : List (Line Unit)),
    InOrder lines → selections tlno ipc false lines = rangeSelections tlno ipc false lines := by
  intro hall
  exact absurd (hall (fun _ ↦ 1) ⟨.regexp (), .clnum 0,
    false⟩ (allMatching [5, 6] 6) inOrder_five_six) (by decide)

end Userland.ModSed
