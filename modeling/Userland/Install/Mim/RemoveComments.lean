import Userland.Library.Occurrences
import Userland.Library.Program
import Userland.Library.QuotedFields
import Userland.Pkg.Text

/-!
# Taking comments out of a DTD

`_remove_comments` takes the comments out of one line at a time, with a flag for a comment that goes
on. The comments of a whole text are read by `deleteComments`, and `removesComments_iff` says for
which texts the lines together come to the same.

Scope: the lines are as the file has them; the constructor strips them first.
-/

set_option autoImplicit false
set_option relaxedAutoImplicit false

namespace Userland.Install.Mim

open Userland.Library Userland.Pkg.Text

/-! ### One line -/

/-- `MimDTDFmtError`, with the text of the error. -/
structure MimDTDFmtError where
  message : String
deriving DecidableEq

def errNestedComments : MimDTDFmtError :=
  ⟨"DTD has nested comments"⟩

def errMismatchedDelim : MimDTDFmtError :=
  ⟨"DTD has mismatched comment delimiters"⟩

def commentStart : List Char :=
  ['<', '!', '-', '-']

def commentEnd : List Char :=
  ['-', '-', '>']

/-- `_remove_comments(line, com_in_prog)` -/
def removeComments (line : List Char) (comInProg : Bool) :
    Except MimDTDFmtError (List Char × Bool) :=
  match find commentStart line, find commentEnd line with
  | some comstart, some comend =>
    if comstart < comend then
      if !comInProg then .ok (line.take comstart ++ line.drop (comend + 3), comInProg)
      else .error errNestedComments
    else
      if comInProg then .ok ((line.take comstart).drop (comend + 3), comInProg)
      else .error errMismatchedDelim
  | some comstart, none =>
    if comInProg then .error errNestedComments else .ok (line.take comstart, true)
  | none, some comend =>
    if comInProg then .ok (line.drop (comend + 3), false) else .error errMismatchedDelim
  | none, none => .ok (if comInProg then [] else line, comInProg)

/-- The loop over the lines of a file, with what is left of each. -/
def removeAll : Bool → List (List Char) → Except MimDTDFmtError (List (List Char) × Bool)
  | comInProg, [] => .ok ([], comInProg)
  | comInProg, line :: rest =>
    (removeComments line comInProg).bind fun result ↦
      (removeAll result.2 rest).map fun results ↦ (result.1 :: results.1, results.2)

/-! ### A whole text -/

/-- The mark that ends a comment, or the one that starts a comment. -/
def nextMark (inComment : Bool) : List Char :=
  if inComment then commentEnd else commentStart

/-- What is left of a part of a text. -/
def kept (inComment : Bool) (text : List Char) : List Char :=
  if inComment then [] else text

/-- What is left, with a text in front. -/
def putBefore (first : List Char) (result : List Char × Bool) : List Char × Bool :=
  (first ++ result.1, result.2)

/-- A text without its comments, and whether a comment is open at its end; there is no result for a
comment within a comment or an end without a start. Of a mark that has been seen, `skip` characters
follow. -/
def deleteComments : Bool → ℕ → List Char → Option (List Char × Bool)
  | inComment, _, [] => some ([], inComment)
  | inComment, skip + 1, _ :: rest => deleteComments inComment skip rest
  | inComment, 0, c :: rest =>
    if (nextMark inComment).isPrefixOf (c :: rest) then
      deleteComments (!inComment) ((nextMark inComment).length - 1) rest
    else if (nextMark (!inComment)).isPrefixOf (c :: rest) then none
    else (deleteComments inComment 0 rest).map (putBefore (kept inComment [c]))

section

variable {inComment : Bool} {text rest : List Char}

theorem newline_notMem_nextMark (inComment : Bool) : '\n' ∉ nextMark inComment := by
  cases inComment <;> decide

theorem nextMark_ne_nil (inComment : Bool) : nextMark inComment ≠ [] := by
  cases inComment <;> exact List.cons_ne_nil _ _

theorem deleteComments_nil (skip : ℕ) :
    deleteComments inComment skip [] = some ([], inComment) := by
  cases skip <;> rfl

theorem deleteComments_skip (skip : ℕ) :
    deleteComments inComment skip text = deleteComments inComment 0 (text.drop skip) := by
  induction skip generalizing text with
  | zero => rfl
  | succ skip ih =>
    cases text with
    | nil => rfl
    | cons c rest => exact ih

theorem deleteComments_mark (h : nextMark inComment <+: text) :
    deleteComments inComment 0 text = deleteComments (!inComment) 0
    (text.drop (nextMark inComment).length) := by
  cases text with
  | nil => exact absurd (List.prefix_nil.mp h) (nextMark_ne_nil inComment)
  | cons c rest =>
    rw [deleteComments, if_pos (List.isPrefixOf_iff_prefix.mpr h), deleteComments_skip]
    cases inComment <;> rfl

theorem deleteComments_none (h : nextMark (!inComment) <+: text) :
    deleteComments inComment 0 text = none := by
  cases text with
  | nil => exact absurd (List.prefix_nil.mp h) (nextMark_ne_nil (!inComment))
  | cons c rest =>
    have hnot : ¬ nextMark inComment <+: c :: rest := by
      intro hmark
      obtain ⟨first, hfirst⟩ := h
      obtain ⟨second, hsecond⟩ := hmark
      rw [← hsecond] at hfirst
      cases inComment <;> cases hfirst
    rw [deleteComments, if_neg (mt List.isPrefixOf_iff_prefix.mp hnot),
      if_pos (List.isPrefixOf_iff_prefix.mpr h)]

theorem deleteComments_cons {c : Char} (hmark : ¬ nextMark inComment <+: c :: rest)
    (hother : ¬ nextMark (!inComment) <+: c :: rest) :
    deleteComments inComment 0 (c :: rest) = (deleteComments inComment 0 rest).map
    (putBefore (kept inComment [c])) := by
  rw [deleteComments, if_neg (mt List.isPrefixOf_iff_prefix.mp hmark),
    if_neg (mt List.isPrefixOf_iff_prefix.mp hother)]

theorem kept_nil (inComment : Bool) : kept inComment [] = [] := by
  cases inComment <;> rfl

theorem map_putBefore_nil (result : Option (List Char × Bool)) :
    result.map (putBefore []) = result := by
  cases result <;> rfl

theorem map_putBefore_kept (first second : List Char) (result : Option (List Char × Bool)) :
    (result.map (putBefore (kept inComment second))).map (putBefore (kept inComment first)) =
      result.map (putBefore (kept inComment (first ++ second))) := by
  rw [Option.map_map]
  congr 1
  funext result
  cases inComment
  · exact congrArg (·, result.2) (List.append_assoc first second result.1).symm
  · rfl

variable {place : ℕ}

/-- A text up to a place before which there is no mark. -/
theorem deleteComments_of_clear
    (h : ∀ earlier < place, ∀ mark, ¬ nextMark mark <+: text.drop earlier) :
    deleteComments inComment 0 text =
      (deleteComments inComment 0 (text.drop place)).map
      (putBefore (kept inComment (text.take place))) := by
  induction place generalizing text with
  | zero => rw [List.drop_zero, List.take_zero, kept_nil, map_putBefore_nil]
  | succ place ih =>
    cases text with
    | nil => rw [List.drop_nil, List.take_nil, kept_nil, map_putBefore_nil]
    | cons c rest =>
      have hfirst := h 0 (Nat.succ_pos place)
      have hrest : ∀ earlier < place, ∀ mark, ¬ nextMark mark <+: rest.drop earlier :=
          fun earlier hlt ↦
        h (earlier + 1) (Nat.succ_lt_succ hlt)
      rw [deleteComments_cons (hfirst _) (hfirst _), ih hrest, map_putBefore_kept,
        List.drop_succ_cons, List.take_succ_cons, List.singleton_append]

/-- The next mark comes first. -/
def MarkFirst (inComment : Bool) (place : ℕ) (text : List Char) : Prop :=
  find (nextMark inComment) text = some place ∧
    ∀ other, find (nextMark (!inComment)) text = some other → place < other

theorem not_prefix_drop_of_find {mark : List Char}
    (h : ∀ other, find mark text = some other → place ≤ other) {earlier : ℕ}
    (hlt : earlier < place) :
    ¬ mark <+: text.drop earlier := by
  intro hbegins
  cases hfind : find mark text with
  | none =>
    have hdrop := find_drop_eq_none hfind earlier
    rw [find_of_begins hbegins] at hdrop
    cases hdrop
  | some other =>
    exact not_prefix_of_lt_find hfind (hlt.trans_le (h other hfind)) hbegins

theorem MarkFirst.clear (h : MarkFirst inComment place text) :
    ∀ earlier < place, ∀ mark, ¬ nextMark mark <+: text.drop earlier := by
  intro earlier hlt mark
  refine not_prefix_drop_of_find (fun other hother ↦ ?_) hlt
  by_cases heq : mark = inComment
  · rw [heq] at hother
    exact (Option.some.inj (h.1.symm.trans hother)).le
  · have hmark : mark = !inComment := Bool.eq_not_of_ne heq
    rw [hmark] at hother
    exact (h.2 other hother).le

/-- A text up to the next mark. -/
theorem deleteComments_of_first (h : MarkFirst inComment place text) :
    deleteComments inComment 0 text =
      (deleteComments (!inComment) 0 (text.drop (place + (nextMark inComment).length))).map
        (putBefore (kept inComment (text.take place))) := by
  rw [deleteComments_of_clear h.clear, deleteComments_mark (prefix_of_find h.1), List.drop_drop]

theorem deleteComments_of_wrong (h : MarkFirst (!inComment) place text) :
    deleteComments inComment 0 text = none := by
  rw [deleteComments_of_clear h.clear, deleteComments_none (prefix_of_find h.1)]
  rfl

theorem deleteComments_of_none (h : ∀ mark, find (nextMark mark) text = none) :
    deleteComments inComment 0 text = some (kept inComment text, inComment) := by
  have hclear : ∀ earlier < text.length, ∀ mark, ¬ nextMark mark <+: text.drop earlier := by
    intro earlier hlt mark
    refine not_prefix_drop_of_find (fun other hother ↦ ?_) hlt
    rw [h mark] at hother
    cases hother
  rw [deleteComments_of_clear hclear, List.drop_length, List.take_length, deleteComments_nil]
  show some (kept inComment text ++ [], inComment) = _
  rw [List.append_nil]

theorem length_deleteComments {skip : ℕ} {result : List Char × Bool}
    (h : deleteComments inComment skip text = some result) : result.1.length ≤ text.length := by
  induction text generalizing inComment skip result with
  | nil =>
    rw [deleteComments_nil] at h
    rw [← Option.some.inj h]
  | cons c rest ih =>
    rw [List.length_cons]
    cases skip with
    | succ skip => exact (ih h).trans (Nat.le_succ rest.length)
    | zero =>
      rw [deleteComments] at h
      split_ifs at h
      · exact (ih h).trans (Nat.le_succ rest.length)
      · obtain ⟨inner, hinner, rfl⟩ := Option.map_eq_some_iff.mp h
        have hkept : (kept inComment [c]).length ≤ 1 := by
          cases inComment
          · exact le_rfl
          · exact Nat.zero_le 1
        have hlength := ih hinner
        show (kept inComment [c] ++ inner.1).length ≤ _
        rw [List.length_append]
        omega

end

/-! ### One line of a text -/

section

variable {inComment : Bool} {line : List Char} {result : List Char × Bool} {comstart comend : ℕ}

theorem comstart_ne_comend (hstart : find commentStart line = some comstart)
    (hend : find commentEnd line = some comend) : comstart ≠ comend := by
  rintro rfl
  obtain ⟨first, hfirst⟩ := prefix_of_find hstart
  obtain ⟨second, hsecond⟩ := prefix_of_find hend
  rw [← hsecond] at hfirst
  cases hfirst

/-- No comment starts within the end of one. -/
theorem add_three_le (hstart : find commentStart line = some comstart)
    (hend : find commentEnd line = some comend)
    (hlt : comend < comstart) : comend + 3 ≤ comstart := by
  obtain ⟨rest, hrest⟩ := prefix_of_find hend
  by_contra hle
  have hdrop : commentStart <+: (commentEnd ++ rest).drop (comstart - comend) := by
    rw [hrest, List.drop_drop, Nat.add_sub_cancel' hlt.le]
    exact prefix_of_find hstart
  obtain ⟨last, hlast⟩ := hdrop
  obtain hone | htwo : comstart - comend = 1 ∨ comstart - comend = 2 := by omega
  · rw [hone] at hlast
    cases hlast
  · rw [htwo] at hlast
    cases hlast

/-- In a text that is well formed, the next mark comes before the other one. -/
theorem markFirst_of_find {place : ℕ} (h : deleteComments inComment 0 line = some result)
    (hplace : find (nextMark inComment) line = some place) : MarkFirst inComment place line := by
  refine ⟨hplace, fun other hother ↦ ?_⟩
  by_contra hle
  have hne : place ≠ other := by
    cases inComment
    · exact comstart_ne_comend hplace hother
    · exact (comstart_ne_comend hother hplace).symm
  have hfirst : MarkFirst (!inComment) other line := by
    refine ⟨hother, fun again hagain ↦ ?_⟩
    rw [Bool.not_not] at hagain
    obtain rfl := Option.some.inj (hplace.symm.trans hagain)
    omega
  rw [deleteComments_of_wrong hfirst] at h
  cases h

/-- A well-formed text without the next mark has no mark. -/
theorem eq_of_find_none (h : deleteComments inComment 0 line = some result)
    (hnone : find (nextMark inComment) line = none) :
    find (nextMark (!inComment)) line = none ∧ result = (kept inComment line, inComment) := by
  have hother : find (nextMark (!inComment)) line = none := by
    cases hfind : find (nextMark (!inComment)) line with
    | none => rfl
    | some other =>
      have hfirst : MarkFirst (!inComment) other line := by
        refine ⟨hfind, fun again hagain ↦ ?_⟩
        rw [Bool.not_not, hnone] at hagain
        cases hagain
      rw [deleteComments_of_wrong hfirst] at h
      cases h
  refine ⟨hother, ?_⟩
  have hall : ∀ mark, find (nextMark mark) line = none := by
    intro mark
    by_cases heq : mark = inComment
    · rw [heq, hnone]
    · rw [Bool.eq_not_of_ne heq, hother]
  rw [deleteComments_of_none hall] at h
  exact (Option.some.inj h).symm

/-- A well-formed text from the next mark on. -/
theorem exists_of_find_some {place : ℕ} (h : deleteComments inComment 0 line = some result)
    (hplace : find (nextMark inComment) line = some place) :
    ∃ rest, deleteComments (!inComment) 0 (line.drop (place + (nextMark inComment).length)) =
    some rest ∧
      result = putBefore (kept inComment (line.take place)) rest := by
  rw [deleteComments_of_first (markFirst_of_find h hplace)] at h
  obtain ⟨rest, hrest, heq⟩ := Option.map_eq_some_iff.mp h
  exact ⟨rest, hrest, heq.symm⟩

/-- The lines that are read rightly. Outside of comments: at most one comment starts in the line,
and where it ends there, its end is not read off its start. Inside: behind a comment that starts
there is nothing but comments, of which the last one goes on. -/
def Simple : Bool → List Char → Prop
  | false, line => ∀ comstart comend, find commentStart line = some comstart →
  find commentEnd line = some comend →
      comstart + 4 ≤ comend ∧ find commentStart (line.drop (comend + 3)) = none
  | true, line => ∀ comstart, find commentStart line = some comstart →
      deleteComments true 0 (line.drop (comstart + 4)) = some ([], true)

/-- What goes wrong in the other lines: the flag, or else text is left over outside of comments, and
lost inside. -/
def Differs (inComment : Bool) (read result : List Char × Bool) : Prop :=
  read.2 ≠ result.2 ∨ read.2 = inComment ∧ result.2 = inComment ∧
    if inComment then read.1.length < result.1.length else result.1.length < read.1.length

/-- A comment that starts behind the first end mark is lost with what is left of the line. -/
theorem length_left_lt_of_again {comstart inner again : ℕ} {left after : List Char × Bool}
    (hend : find commentEnd line = some (comstart + 4 + inner))
    (hagain : find commentStart (line.drop (comstart + 4 + inner + 3)) = some again)
    (hafter : deleteComments (!!false) 0
      ((line.drop (comstart + 4)).drop (inner + (nextMark (!false)).length)) = some after)
    (heq : left = putBefore (kept (!false) ((line.drop (comstart + 4)).take inner)) after) :
    left.1.length < (line.drop (comstart + 4 + inner + 3)).length := by
  rw [List.drop_drop] at hafter
  have hendLength := le_of_find hend (nextMark_ne_nil true)
  obtain ⟨⟨later, last⟩, hlater, rfl⟩ := exists_of_find_some hafter hagain
  subst heq
  have hshort := length_deleteComments hlater
  have hagainLength := le_of_find hagain (nextMark_ne_nil false)
  have hfour : (nextMark false).length = 4 := rfl
  have hthree : (nextMark (!false)).length = 3 := rfl
  have hagainFour : (nextMark (!!false)).length = 4 := rfl
  have hstartFour : commentStart.length = 4 := rfl
  show (List.take again _ ++ later).length < _
  simp only [List.length_drop, List.length_append, List.length_take] at hshort hagainLength ⊢
  omega

/-- Where the first end mark overlaps the mark in front of it, the comment ends later. -/
theorem length_left_lt_of_overlap {comstart comend : ℕ} {left : List Char}
    (hend : find commentEnd line = some comend) (hlt : comstart < comend)
    (hle : ¬ comstart + 4 ≤ comend)
    (hrest : deleteComments (!false) 0 (line.drop (comstart + (nextMark false).length)) =
      some (left, false)) :
    left.length < (line.drop (comend + 3)).length := by
  have hendLength := le_of_find hend (nextMark_ne_nil true)
  cases hinner : find commentEnd (line.drop (comstart + 4)) with
  | none =>
    obtain ⟨-, heq⟩ := eq_of_find_none hrest hinner
    cases heq
  | some inner =>
    obtain ⟨⟨after, last⟩, hafter, heq⟩ := exists_of_find_some hrest hinner
    obtain ⟨hleft, -⟩ := Prod.mk.inj heq
    have hshort := length_deleteComments hafter
    have hinnerLength := le_of_find hinner (nextMark_ne_nil true)
    have hfour : (nextMark false).length = 4 := rfl
    have hthree : (nextMark true).length = 3 := rfl
    have hinnerThree : (nextMark (!false)).length = 3 := rfl
    have hendThree : commentEnd.length = 3 := rfl
    rw [hleft]
    show after.length < _
    simp only [List.length_drop] at hshort hinnerLength hendLength ⊢
    omega

/-- Of a line that is not simple more is left than there should be. -/
theorem length_left_lt {comstart comend : ℕ} {left : List Char}
    (hstart : find commentStart line = some comstart)
    (hend : find commentEnd line = some comend) (hlt : comstart < comend)
    (hnot : ¬ Simple false line)
    (hrest : deleteComments (!false) 0 (line.drop (comstart + (nextMark false).length)) =
      some (left, false)) :
    left.length < (line.drop (comend + 3)).length := by
  by_cases hle : comstart + 4 ≤ comend
  · obtain ⟨inner, rfl⟩ := Nat.exists_eq_add_of_le hle
    obtain ⟨after, hafter, heq⟩ := exists_of_find_some hrest (find_drop hend)
    cases hagain : find commentStart (line.drop (comstart + 4 + inner + 3)) with
    | none =>
      refine absurd (fun i j hi hj ↦ ?_) hnot
      obtain rfl := Option.some.inj (hstart.symm.trans hi)
      obtain rfl := Option.some.inj (hend.symm.trans hj)
      exact ⟨hle, hagain⟩
    | some again => exact length_left_lt_of_again hend hagain hafter heq
  · exact length_left_lt_of_overlap hend hlt hle hrest

/-- A line that begins outside of comments. -/
theorem removeComments_outside (h : deleteComments false 0 line = some result) :
    ∃ read, removeComments line false = .ok read ∧ (Simple false line → read = result) ∧
      (¬ Simple false line → Differs false read result) := by
  cases hstart : find commentStart line with
  | none =>
    obtain ⟨hend, rfl⟩ := eq_of_find_none h hstart
    have hsimple : Simple false line := by
      intro comstart comend hfind
      rw [hstart] at hfind
      cases hfind
    have hread : removeComments line false = .ok (line, false) := by
      rw [removeComments, hstart, show find commentEnd line = none from hend]
      rfl
    exact ⟨_, hread, fun _ ↦ rfl, fun hnot ↦ absurd hsimple hnot⟩
  | some comstart =>
    obtain ⟨⟨left, last⟩, hrest, rfl⟩ := exists_of_find_some h hstart
    cases hend : find commentEnd line with
    | none =>
      have hsimple : Simple false line := by
        intro comstart comend _ hfind
        rw [hend] at hfind
        cases hfind
      have hread : removeComments line false = .ok (line.take comstart, true) := by
        rw [removeComments, hstart, hend]
        rfl
      obtain ⟨-, heq⟩ := eq_of_find_none hrest (find_drop_eq_none hend _)
      refine ⟨_, hread, fun _ ↦ ?_, fun hnot ↦ absurd hsimple hnot⟩
      rw [heq]
      exact congrArg (·, true) (List.append_nil _).symm
    | some comend =>
      have hlt : comstart < comend := (markFirst_of_find h hstart).2 comend hend
      have hread : removeComments line false =
          .ok (line.take comstart ++ line.drop (comend + 3), false) := by
        rw [removeComments, hstart, hend]
        exact if_pos hlt
      refine ⟨_, hread, fun hsimple ↦ ?_, fun hnot ↦ ?_⟩
      · obtain ⟨hle, hagain⟩ := hsimple comstart comend hstart hend
        obtain ⟨inner, rfl⟩ := Nat.exists_eq_add_of_le hle
        obtain ⟨⟨after, last⟩, hafter, heq⟩ := exists_of_find_some hrest (find_drop hend)
        rw [List.drop_drop] at hafter
        obtain ⟨-, hlast⟩ := eq_of_find_none hafter hagain
        rw [heq, hlast]
        rfl
      · cases last with
        | true => exact Or.inl Bool.false_ne_true
        | false =>
          refine Or.inr ⟨rfl, rfl, ?_⟩
          show (line.take comstart ++ left).length <
            (line.take comstart ++ line.drop (comend + 3)).length
          rw [List.length_append, List.length_append]
          exact Nat.add_lt_add_left (length_left_lt hstart hend hlt hnot hrest) _

/-- A line that begins within a comment. -/
theorem removeComments_inside (h : deleteComments true 0 line = some result) :
    ∃ read, removeComments line true = .ok read ∧ (Simple true line → read = result) ∧
      (¬ Simple true line → Differs true read result) := by
  cases hend : find commentEnd line with
  | none =>
    obtain ⟨hstart, rfl⟩ := eq_of_find_none h hend
    have hsimple : Simple true line := by
      intro comstart hfind
      rw [show find commentStart line = none from hstart] at hfind
      cases hfind
    have hread : removeComments line true = .ok ([], true) := by
      rw [removeComments, hend, show find commentStart line = none from hstart]
      rfl
    exact ⟨_, hread, fun _ ↦ rfl, fun hnot ↦ absurd hsimple hnot⟩
  | some comend =>
    obtain ⟨after, hafter, rfl⟩ := exists_of_find_some h hend
    cases hstart : find commentStart line with
    | none =>
      have hsimple : Simple true line := by
        intro comstart hfind
        rw [hstart] at hfind
        cases hfind
      have hread : removeComments line true = .ok (line.drop (comend + 3), false) := by
        rw [removeComments, hend, hstart]
        rfl
      obtain ⟨-, rfl⟩ := eq_of_find_none hafter (find_drop_eq_none hstart _)
      exact ⟨_, hread, fun _ ↦ rfl, fun hnot ↦ absurd hsimple hnot⟩
    | some comstart =>
      have hlt : comend < comstart := (markFirst_of_find h hend).2 comstart hstart
      obtain ⟨between, rfl⟩ := Nat.exists_eq_add_of_le (add_three_le hstart hend hlt)
      have hread : removeComments line true =
          .ok ((line.take (comend + 3 + between)).drop (comend + 3), true) := by
        rw [removeComments, hend, hstart]
        exact if_neg (Nat.lt_asymm hlt)
      obtain ⟨⟨left, last⟩, hleft, rfl⟩ := exists_of_find_some hafter (find_drop hstart)
      have hslice : (line.take (comend + 3 + between)).drop (comend + 3) =
          (line.drop (comend + 3)).take between := by
        rw [List.drop_take, Nat.add_sub_cancel_left]
      rw [List.drop_drop] at hleft
      refine ⟨_, hread, fun hsimple ↦ ?_, fun hnot ↦ ?_⟩
      · obtain ⟨rfl, rfl⟩ := Prod.mk.inj (Option.some.inj (hleft.symm.trans (hsimple _ hstart)))
        rw [hslice]
        exact congrArg (·, true) (List.append_nil _).symm
      · cases last with
        | false => exact Or.inl Bool.false_ne_true.symm
        | true =>
          refine Or.inr ⟨rfl, rfl, ?_⟩
          have hne : left ≠ [] := by
            rintro rfl
            refine hnot fun i hi ↦ ?_
            obtain rfl := Option.some.inj (hstart.symm.trans hi)
            exact hleft
          show (List.drop (comend + 3) _).length < (List.take between _ ++ left).length
          rw [hslice, List.length_append]
          exact Nat.lt_add_of_pos_right (List.length_pos_iff.mpr hne)

/-- With the wrong flag, a line with a mark is an error, so that the flag stays wrong. -/
theorem removeComments_wrong {read : List Char × Bool}
    (h : deleteComments inComment 0 line = some result)
    (hread : removeComments line (!inComment) = .ok read) :
    result.2 = inComment ∧ read.2 = !inComment := by
  cases hfind : find (nextMark inComment) line with
  | none =>
    obtain ⟨hother, rfl⟩ := eq_of_find_none h hfind
    refine ⟨rfl, ?_⟩
    cases inComment
    · rw [removeComments, show find commentStart line = none from hfind,
        show find commentEnd line = none from hother]
        at hread
      rw [← Except.ok.inj hread]
    · rw [removeComments, show find commentEnd line = none from hfind,
        show find commentStart line = none from hother]
        at hread
      rw [← Except.ok.inj hread]
  | some place =>
    have hfirst := markFirst_of_find h hfind
    cases inComment
    · have herror : removeComments line true = .error errNestedComments := by
        rw [removeComments, show find commentStart line = some place from hfind]
        cases hend : find commentEnd line with
        | none => rfl
        | some comend => exact if_pos (hfirst.2 comend hend)
      cases herror.symm.trans hread
    · have herror : removeComments line false = .error errMismatchedDelim := by
        rw [removeComments, show find commentEnd line = some place from hfind]
        cases hstart : find commentStart line with
        | none => rfl
        | some comstart => exact if_neg (Nat.lt_asymm (hfirst.2 comstart hstart))
      cases herror.symm.trans hread

end

/-! ### Line by line -/

section

variable {inComment : Bool} {body rest line : List Char}

theorem not_nextMark_prefix_newline (mark : Bool) (rest : List Char) :
    ¬ nextMark mark <+: '\n' :: rest := by
  rintro ⟨last, hlast⟩
  cases mark <;> cases hlast

theorem deleteComments_newline (inComment : Bool) (rest : List Char) :
    deleteComments inComment 0 ('\n' :: rest) = (deleteComments inComment 0 rest).map
    (putBefore (kept inComment ['\n'])) :=
  deleteComments_cons (not_nextMark_prefix_newline _ rest) (not_nextMark_prefix_newline _ rest)

/-- No mark goes over the end of a line. -/
theorem deleteComments_append {skip : ℕ} (hskip : skip ≤ body.length) :
    deleteComments inComment skip (body ++ '\n' :: rest) =
    (deleteComments inComment skip body).bind fun result ↦
      (deleteComments result.2 0 ('\n' :: rest)).map (putBefore result.1) := by
  induction body generalizing inComment skip with
  | nil =>
    obtain rfl := Nat.le_zero.mp hskip
    rw [deleteComments_nil]
    exact (map_putBefore_nil _).symm
  | cons c body ih =>
    cases skip with
    | succ skip => exact ih (Nat.le_of_succ_le_succ hskip)
    | zero =>
      have hbegins : ∀ mark, (nextMark mark).isPrefixOf (c :: (body ++ '\n' :: rest)) =
          (nextMark mark).isPrefixOf (c :: body) := by
        intro mark
        rw [Bool.eq_iff_iff, List.isPrefixOf_iff_prefix, List.isPrefixOf_iff_prefix,
          ← List.cons_append, prefix_append_iff (newline_notMem_nextMark mark)]
      rw [List.cons_append, deleteComments, deleteComments, hbegins, hbegins]
      split_ifs with hmark hother
      · have hlength := (List.isPrefixOf_iff_prefix.mp hmark).length_le
        rw [List.length_cons] at hlength
        exact ih (Nat.sub_le_of_le_add hlength)
      · rfl
      · rw [ih (Nat.zero_le _), Option.map_bind, Option.bind_map]
        congr 1
        funext result
        show ((deleteComments result.2 0 ('\n' :: rest)).map (putBefore result.1)).map _ = _
        rw [Option.map_map]
        congr 1
        funext after
        exact congrArg (·, after.2) (List.append_assoc _ _ _).symm

/-- The end of a line, where it is left. -/
def endLine (result : List Char × Bool) : List Char × Bool :=
  (result.1 ++ kept result.2 ['\n'], result.2)

theorem deleteComments_line (inComment : Bool) (body : List Char) :
    deleteComments inComment 0 (body ++ ['\n']) =
    (deleteComments inComment 0 body).map endLine := by
  rw [deleteComments_append (Nat.zero_le body.length)]
  cases deleteComments inComment 0 body with
  | none => rfl
  | some result =>
    rw [Option.bind_some, deleteComments_newline]
    exact congrArg (fun text ↦ some (result.1 ++ text, result.2)) (List.append_nil _)

theorem deleteComments_line_append (inComment : Bool) (body rest : List Char) :
    deleteComments inComment 0 (body ++ '\n' :: rest) =
      (deleteComments inComment 0 (body ++ ['\n'])).bind fun result ↦
        (deleteComments result.2 0 rest).map (putBefore result.1) := by
  rw [deleteComments_append (Nat.zero_le body.length), deleteComments_line]
  cases deleteComments inComment 0 body with
  | none => rfl
  | some result =>
    rw [Option.bind_some, Option.map_some, Option.bind_some, deleteComments_newline, Option.map_map]
    congr 1
    funext after
    exact congrArg (·, after.2) (List.append_assoc _ _ _).symm

/-- The lines of a file: all end with a newline, but for the last one maybe. -/
inductive Lines : List (List Char) → Prop
  | nil : Lines []
  | last {line : List Char} (h : '\n' ∉ line) : Lines [line]
  | cons {body : List Char} {rest : List (List Char)} (h : '\n' ∉ body) (hrest : Lines rest) :
    Lines ((body ++ ['\n']) :: rest)

theorem lines_readlines (text : List Char) : Lines (readlines text) := by
  induction text with
  | nil => exact .nil
  | cons c rest ih =>
    rw [readlines]
    split_ifs with hc
    · rw [hc]
      exact .cons (List.not_mem_nil : '\n' ∉ ([] : List Char)) ih
    · have hcons : ∀ {text : List Char}, '\n' ∉ text → '\n' ∉ c :: text := fun h hmem ↦
        (List.mem_cons.mp hmem).elim (fun heq ↦ hc heq.symm) h
      generalize readlines rest = lines at ih
      cases ih with
      | nil => exact .last (hcons List.not_mem_nil)
      | last h => exact .last (hcons h)
      | cons h hrest => exact .cons (hcons h) hrest

variable {result : List Char × Bool}

/-- The text is read line by line. -/
theorem exists_of_deleteComments_flatten {lines : List (List Char)}
    (hlines : Lines (line :: lines))
    (h : deleteComments inComment 0 (line :: lines).flatten = some result) :
    ∃ first last, deleteComments inComment 0 line = some first ∧
      deleteComments first.2 0 lines.flatten = some last ∧ result = putBefore first.1 last := by
  rw [List.flatten_cons] at h
  cases hlines with
  | last hline =>
    rw [List.flatten_nil, List.append_nil] at h
    exact ⟨result, ([], result.2), h, deleteComments_nil 0, Prod.ext (List.append_nil _).symm rfl⟩
  | cons hbody hrest =>
    rw [List.append_assoc, List.singleton_append, deleteComments_line_append] at h
    obtain ⟨first, hfirst, hafter⟩ := Option.bind_eq_some_iff.mp h
    obtain ⟨last, hlast, heq⟩ := Option.map_eq_some_iff.mp hafter
    exact ⟨first, last, hfirst, hlast, heq.symm⟩

/-- The same for the lines that the code reads. -/
theorem removeComments_line (comInProg : Bool) (body : List Char) :
    removeComments (body ++ ['\n']) comInProg = (removeComments body comInProg).map endLine := by
  have hfind : ∀ mark, find (nextMark mark) (body ++ ['\n']) = find (nextMark mark) body := by
    intro mark
    refine find_append (newline_notMem_nextMark mark) (nextMark_ne_nil mark) ?_
    cases mark <;> rfl
  have hstart : find commentStart (body ++ ['\n']) = find commentStart body := hfind false
  have hend : find commentEnd (body ++ ['\n']) = find commentEnd body := hfind true
  have htake : ∀ {place}, find commentStart body = some place →
      (body ++ ['\n']).take place = body.take place := by
    intro place hplace
    exact List.take_append_of_le_length
      (Nat.le_of_add_right_le (le_of_find hplace (nextMark_ne_nil false)))
  have hdrop : ∀ {place}, find commentEnd body = some place →
      (body ++ ['\n']).drop (place + 3) = body.drop (place + 3) ++ ['\n'] := by
    intro place hplace
    exact List.drop_append_of_le_length (le_of_find hplace (nextMark_ne_nil true))
  rw [removeComments, removeComments, hstart, hend]
  cases hs : find commentStart body with
  | none =>
    cases he : find commentEnd body with
    | none => cases comInProg <;> rfl
    | some comend =>
      cases comInProg with
      | false => rfl
      | true => exact congrArg (fun text ↦ Except.ok (text, false)) (hdrop he)
  | some comstart =>
    cases he : find commentEnd body with
    | none =>
      cases comInProg with
      | false =>
        show Except.ok ((body ++ ['\n']).take comstart, true) =
          Except.ok (body.take comstart ++ [], true)
        rw [htake hs, List.append_nil]
      | true => rfl
    | some comend =>
      by_cases hlt : comstart < comend
      · simp only [if_pos hlt]
        cases comInProg with
        | false =>
          show Except.ok ((body ++ ['\n']).take comstart ++ (body ++ ['\n']).drop (comend + 3),
            false) =
            Except.ok ((body.take comstart ++ body.drop (comend + 3)) ++ ['\n'], false)
          rw [htake hs, hdrop he, List.append_assoc]
        | true => rfl
      · simp only [if_neg hlt]
        cases comInProg with
        | false => rfl
        | true =>
          show Except.ok (((body ++ ['\n']).take comstart).drop (comend + 3), true) =
            Except.ok ((body.take comstart).drop (comend + 3) ++ [], true)
          rw [htake hs, List.append_nil]

theorem mem_of_deleteComments {skip : ℕ} {text : List Char} {c : Char}
    (h : deleteComments inComment skip text = some result) (hc : c ∈ result.1) : c ∈ text := by
  induction text generalizing inComment skip result with
  | nil =>
    rw [deleteComments_nil] at h
    rw [← Option.some.inj h] at hc
    exact absurd hc List.not_mem_nil
  | cons d rest ih =>
    cases skip with
    | succ skip => exact List.mem_cons_of_mem d (ih h hc)
    | zero =>
      rw [deleteComments] at h
      split_ifs at h
      · exact List.mem_cons_of_mem d (ih h hc)
      · obtain ⟨inner, hinner, rfl⟩ := Option.map_eq_some_iff.mp h
        rcases List.mem_append.mp hc with hkept | hinside
        · cases inComment with
          | false => exact List.mem_cons.mpr (Or.inl (List.mem_singleton.mp hkept))
          | true => exact absurd hkept List.not_mem_nil
        · exact List.mem_cons_of_mem d (ih hinner hinside)

theorem mem_of_removeComments {comInProg : Bool} {read : List Char × Bool} {c : Char}
    (h : removeComments line comInProg = .ok read) (hc : c ∈ read.1) : c ∈ line := by
  rw [removeComments] at h
  split at h
  · split_ifs at h
    · rw [← Except.ok.inj h] at hc
      rcases List.mem_append.mp hc with hmem | hmem
      · exact List.mem_of_mem_take hmem
      · exact List.mem_of_mem_drop hmem
    · rw [← Except.ok.inj h] at hc
      exact List.mem_of_mem_take (List.mem_of_mem_drop hc)
  · split_ifs at h
    rw [← Except.ok.inj h] at hc
    exact List.mem_of_mem_take hc
  · split_ifs at h
    rw [← Except.ok.inj h] at hc
    exact List.mem_of_mem_drop hc
  · rw [← Except.ok.inj h] at hc
    split_ifs at hc
    · exact absurd hc List.not_mem_nil
    · exact hc

/-- What is left of a line ends with its newline outside of comments. -/
def Ends (result : List Char × Bool) : Prop :=
  ∃ inner, '\n' ∉ inner ∧ result.1 = inner ++ kept result.2 ['\n']

theorem ends_of_deleteComments (hbody : '\n' ∉ body)
    (h : deleteComments inComment 0 (body ++ ['\n']) = some result) : Ends result := by
  rw [deleteComments_line] at h
  obtain ⟨inner, hinner, rfl⟩ := Option.map_eq_some_iff.mp h
  exact ⟨inner.1, fun hmem ↦ hbody (mem_of_deleteComments hinner hmem), rfl⟩

theorem ends_of_removeComments {comInProg : Bool} {read : List Char × Bool} (hbody : '\n' ∉ body)
    (h : removeComments (body ++ ['\n']) comInProg = .ok read) : Ends read := by
  rw [removeComments_line] at h
  obtain ⟨inner, hinner, rfl⟩ := Program.map_eq_ok h
  exact ⟨inner.1, fun hmem ↦ hbody (mem_of_removeComments hinner hmem), rfl⟩

/-- A line that the code reads with the right flag. -/
theorem exists_removeComments (h : deleteComments inComment 0 line = some result) :
    ∃ read, removeComments line inComment = .ok read ∧ (Simple inComment line → read = result) ∧
      (¬ Simple inComment line → Differs inComment read result) := by
  cases inComment with
  | false => exact removeComments_outside h
  | true => exact removeComments_inside h

/-- Each line is read rightly, with the flag that the lines before it leave. -/
def SimpleLines : Bool → List (List Char) → Prop
  | _, [] => True
  | inComment, line :: rest =>
    Simple inComment line ∧ ∀ result, deleteComments inComment 0 line = some result →
      SimpleLines result.2 rest

variable {lines pieces : List (List Char)}

theorem removeAll_cons_eq_ok {comInProg : Bool} {last : Bool}
    (h : removeAll comInProg (line :: lines) = .ok (pieces, last)) :
    ∃ read after, removeComments line comInProg = .ok read ∧
    removeAll read.2 lines = .ok (after, last) ∧
      pieces = read.1 :: after := by
  rw [removeAll] at h
  obtain ⟨read, hread, hrest⟩ := Program.bind_eq_ok h
  obtain ⟨⟨after, end'⟩, hafter, heq⟩ := Program.map_eq_ok hrest
  obtain ⟨rfl, rfl⟩ := Prod.mk.inj heq
  exact ⟨read, after, hread, hafter, rfl⟩

/-- A wrong flag stays wrong up to the end. -/
theorem removeAll_wrong {last : Bool}
    (hlines : Lines lines) (h : deleteComments inComment 0 lines.flatten = some result)
    (hread : removeAll (!inComment) lines = .ok (pieces, last)) : last ≠ result.2 := by
  induction lines generalizing inComment pieces result with
  | nil =>
    rw [List.flatten_nil, deleteComments_nil] at h
    rw [← Option.some.inj h, ← (Prod.mk.inj (Except.ok.inj hread)).2]
    cases inComment <;> decide
  | cons line lines ih =>
    obtain ⟨first, after, hfirst, hafter, rfl⟩ := exists_of_deleteComments_flatten hlines h
    obtain ⟨read, pieces, hline, hrest, rfl⟩ := removeAll_cons_eq_ok hread
    obtain ⟨hflag, hwrong⟩ := removeComments_wrong hfirst hline
    rw [hflag] at hafter
    rw [hwrong] at hrest
    have htail : Lines lines := by
      cases hlines with
      | last => exact .nil
      | cons _ hrest => exact hrest
    have hne : last ≠ after.2 := ih htail hafter hrest
    exact hne

/-- Lines that are read rightly come to the text without its comments. -/
theorem removeAll_of_simpleLines {lines : List (List Char)} (hlines : Lines lines)
    (h : deleteComments inComment 0 lines.flatten = some result)
    (hsimple : SimpleLines inComment lines) :
    ∃ pieces, removeAll inComment lines = .ok (pieces, result.2) ∧ pieces.flatten = result.1 := by
  induction lines generalizing inComment result with
  | nil =>
    rw [List.flatten_nil, deleteComments_nil] at h
    rw [← Option.some.inj h]
    exact ⟨[], rfl, rfl⟩
  | cons line lines ih =>
    obtain ⟨first, after, hfirst, hafter, rfl⟩ := exists_of_deleteComments_flatten hlines h
    obtain ⟨read, hread, heq, -⟩ := exists_removeComments hfirst
    obtain rfl := heq hsimple.1
    have htail : Lines lines := by
      cases hlines with
      | last => exact .nil
      | cons _ hrest => exact hrest
    obtain ⟨pieces, hpieces, hflatten⟩ := ih htail hafter (hsimple.2 read hfirst)
    refine ⟨read.1 :: pieces, ?_, ?_⟩
    · rw [removeAll, hread]
      exact congrArg (Except.map _) hpieces
    · rw [List.flatten_cons, hflatten]
      rfl

/-- A line within which a comment goes on is not longer than it should be. -/
theorem length_le_of_within {read : List Char × Bool}
    (hright : Simple inComment line → read = result)
    (hwrong : ¬ Simple inComment line → Differs inComment read result) (hflag : read.2 = result.2)
    (hlast : result.2 = true) : read.1.length ≤ result.1.length := by
  by_cases hsimple : Simple inComment line
  · rw [hright hsimple]
  · rcases hwrong hsimple with hne | ⟨-, hstay, hlt⟩
    · exact absurd hflag hne
    · obtain rfl : inComment = true := hstay.symm.trans hlast
      exact Nat.le_of_lt hlt

/-- A line of the right length has been read rightly. -/
theorem simple_of_length {read : List Char × Bool} {first second : List Char}
    (hright : Simple inComment line → read = result)
    (hwrong : ¬ Simple inComment line → Differs inComment read result) (hflag : read.2 = result.2)
    (houtside : inComment = false → first = [] ∧ second = []) (hle : first.length ≤ second.length)
    (hlength : first.length + read.1.length = second.length + result.1.length) :
    first.length = second.length ∧ Simple inComment line := by
  by_cases hsimple : Simple inComment line
  · rw [hright hsimple] at hlength
    exact ⟨Nat.add_right_cancel hlength, hsimple⟩
  · rcases hwrong hsimple with hne | ⟨-, -, hlt⟩
    · exact absurd hflag hne
    · cases inComment with
      | true =>
        have hlt : read.1.length < result.1.length := hlt
        omega
      | false =>
        have hlt : result.1.length < read.1.length := hlt
        obtain ⟨rfl, rfl⟩ := houtside rfl
        omega

/-- Where the texts are the same, each line has been read rightly. `first` and `second` are what the
code has, and what is left, of the line of the result that is not yet at its end. -/
theorem simpleLines_of_removeAll {first second : List Char} (hlines : Lines lines)
    (h : deleteComments inComment 0 lines.flatten = some result)
    (hread : removeAll inComment lines = .ok (pieces, result.2))
    (hfirst : '\n' ∉ first) (hsecond : '\n' ∉ second)
    (houtside : inComment = false → first = [] ∧ second = [])
    (hle : first.length ≤ second.length) (heq : first ++ pieces.flatten = second ++ result.1) :
    first.length = second.length ∧ SimpleLines inComment lines := by
  induction hlines generalizing inComment pieces result first second with
  | nil =>
    rw [List.flatten_nil, deleteComments_nil] at h
    obtain rfl := Option.some.inj h
    obtain rfl : [] = pieces := (Prod.mk.inj (Except.ok.inj hread)).1
    rw [List.flatten_nil, List.append_nil, List.append_nil] at heq
    exact ⟨congrArg List.length heq, trivial⟩
  | @last line hline =>
    obtain ⟨read, after, hone, hafter, rfl⟩ := removeAll_cons_eq_ok hread
    obtain ⟨rfl, hflag⟩ : [] = after ∧ read.2 = result.2 := Prod.mk.inj (Except.ok.inj hafter)
    rw [List.flatten_singleton] at h heq
    obtain ⟨other, hother, hright, hwrong⟩ := exists_removeComments h
    obtain rfl := Except.ok.inj (hone.symm.trans hother)
    have hlength := congrArg List.length heq
    rw [List.length_append, List.length_append] at hlength
    obtain ⟨hsame, hsimple⟩ := simple_of_length hright hwrong hflag houtside hle hlength
    exact ⟨hsame, hsimple, fun _ _ ↦ trivial⟩
  | @cons body rest hbody hrest ih =>
    obtain ⟨left, after, hleft, hafter, rfl⟩ :=
      exists_of_deleteComments_flatten (.cons hbody hrest) h
    obtain ⟨read, pieces, hline, htail, rfl⟩ := removeAll_cons_eq_ok hread
    obtain ⟨other, hother, hright, hwrong⟩ := exists_removeComments hleft
    obtain rfl := Except.ok.inj (hline.symm.trans hother)
    obtain ⟨inner, hinner, hreadEnds⟩ := ends_of_removeComments hbody hline
    obtain ⟨outer, houter, hleftEnds⟩ := ends_of_deleteComments hbody hleft
    have hflag : read.2 = left.2 := by
      by_contra hne
      have hwrongFlag : read.2 = !left.2 := Bool.eq_not_of_ne hne
      rw [hwrongFlag] at htail
      exact removeAll_wrong hrest hafter htail rfl
    rw [hflag] at htail hreadEnds
    rw [List.flatten_cons, hreadEnds] at heq
    have heq : first ++ (inner ++ kept left.2 ['\n'] ++ pieces.flatten) =
      second ++ (left.1 ++ after.1) := heq
    rw [hleftEnds] at heq
    have hnext : ∀ {flag : Bool}, left.2 = flag → SimpleLines flag rest → ∀ result,
        deleteComments inComment 0 (body ++ ['\n']) = some result → SimpleLines result.2 rest := by
      intro flag hflag hsimple result hresult
      obtain rfl := Option.some.inj (hleft.symm.trans hresult)
      rw [hflag]
      exact hsimple
    cases hlast : left.2 with
    | true =>
      have hkept : kept true ['\n'] = [] := rfl
      rw [hlast] at hafter htail heq hreadEnds hleftEnds
      rw [hkept, List.append_nil] at hreadEnds hleftEnds
      rw [hkept, List.append_nil, List.append_nil, ← List.append_assoc, ← List.append_assoc] at heq
      have hnotMem : ∀ {text other : List Char}, '\n' ∉ text → '\n' ∉ other →
          '\n' ∉ text ++ other := by
        intro text other htext hother hmem
        exact (List.mem_append.mp hmem).elim htext hother
      have hwithin := length_le_of_within hright hwrong hflag hlast
      rw [hreadEnds, hleftEnds] at hwithin
      obtain ⟨hlength, hrestSimple⟩ :=
        ih hafter htail (hnotMem hfirst hinner) (hnotMem hsecond houter)
        (fun h ↦ absurd h (by decide)) (by rw [List.length_append, List.length_append]; omega) heq
      rw [List.length_append, List.length_append] at hlength
      obtain ⟨hsame, hsimple⟩ := simple_of_length hright hwrong hflag houtside hle
        (by rw [hreadEnds, hleftEnds, hlength])
      exact ⟨hsame, hsimple, hnext hlast hrestSimple⟩
    | false =>
      have hkept : kept false ['\n'] = ['\n'] := rfl
      rw [hlast] at hafter htail heq hreadEnds hleftEnds
      rw [hkept] at heq hreadEnds hleftEnds
      simp only [List.append_assoc, List.singleton_append] at heq
      rw [← List.append_assoc, ← List.append_assoc] at heq
      obtain ⟨hcut, hrestEq⟩ := QuotedFields.append_cons_inj
        (fun hmem ↦ (List.mem_append.mp hmem).elim hfirst hinner)
        (fun hmem ↦ (List.mem_append.mp hmem).elim hsecond houter) heq
      have hrestSimple := (ih hafter htail (List.not_mem_nil : '\n' ∉ ([] : List Char))
        (List.not_mem_nil : '\n' ∉ ([] : List Char)) (fun _ ↦ ⟨rfl, rfl⟩) le_rfl hrestEq).2
      have hlength := congrArg List.length hcut
      rw [List.length_append, List.length_append] at hlength
      obtain ⟨hsame, hsimple⟩ := simple_of_length hright hwrong hflag houtside hle
        (by rw [hreadEnds, hleftEnds, List.length_append, List.length_append]; omega)
      exact ⟨hsame, hsimple, hnext hlast hrestSimple⟩

end

/-! ### All lines -/

/-- The loop over the lines leaves the text without its comments, and the right flag. -/
def RemovesComments (text : List Char) (result : List Char × Bool) : Prop :=
  ∃ pieces, removeAll false (readlines text) = .ok (pieces, result.2) ∧ pieces.flatten = result.1

/-- In a text whose comments are well formed they are removed exactly if each line is read rightly.
-/
theorem removesComments_iff {text : List Char} {result : List Char × Bool}
    (h : deleteComments false 0 text = some result) :
    RemovesComments text result ↔ SimpleLines false (readlines text) := by
  have hlines := lines_readlines text
  rw [← flatten_readlines text] at h
  constructor
  · rintro ⟨pieces, hread, hflatten⟩
    exact (simpleLines_of_removeAll hlines h hread (List.not_mem_nil : '\n' ∉ ([] : List Char))
      (List.not_mem_nil : '\n' ∉ ([] : List Char))
      (fun _ ↦ ⟨rfl, rfl⟩) le_rfl hflatten).2
  · exact removeAll_of_simpleLines hlines h

/-- `a<!--b-->` and a newline -/
def lineWithin : List Char :=
  ['a'] ++ commentStart ++ ['b'] ++ commentEnd ++ ['\n']

/-- `c<!--d` and a newline -/
def lineOpening : List Char :=
  ['c'] ++ commentStart ++ ['d', '\n']

/-- `e-->f` and a newline -/
def lineClosing : List Char :=
  ['e'] ++ commentEnd ++ ['f', '\n']

/-- A comment within a line, and one that goes on to the next line. -/
theorem removesComments_overLines :
    RemovesComments (lineWithin ++ lineOpening ++ lineClosing) (['a', '\n', 'c', 'f', '\n'],
      false) := by
  have hread : readlines (lineWithin ++ lineOpening ++ lineClosing) = [lineWithin, lineOpening,
      lineClosing] := by
    decide
  have hwithin : deleteComments false 0 lineWithin = some (['a', '\n'], false) := by decide
  have hopening : deleteComments false 0 lineOpening = some (['c'], true) := by decide
  refine (removesComments_iff (by decide)).mpr ?_
  rw [hread]
  refine ⟨fun comstart comend hstart hend ↦ ?_, fun result hresult ↦ ?_⟩
  · have hstart' : find commentStart lineWithin = some 1 := by decide
    have hend' : find commentEnd lineWithin = some 6 := by decide
    obtain rfl := Option.some.inj (hstart'.symm.trans hstart)
    obtain rfl := Option.some.inj (hend'.symm.trans hend)
    decide
  · obtain rfl := Option.some.inj (hwithin.symm.trans hresult)
    refine ⟨fun comstart comend hstart hend ↦ ?_, fun result hresult ↦ ?_⟩
    · have hend' : find commentEnd lineOpening = none := by decide
      cases hend'.symm.trans hend
    · obtain rfl := Option.some.inj (hopening.symm.trans hresult)
      refine ⟨fun comstart hstart ↦ ?_, fun _ _ ↦ trivial⟩
      have hstart' : find commentStart lineClosing = none := by decide
      cases hstart'.symm.trans hstart

/-- `<!--a-->b<!--c-->` -/
def twoComments : List Char :=
  commentStart ++ ['a'] ++ commentEnd ++ ['b'] ++ commentStart ++ ['c'] ++ commentEnd

/-- The second comment of a line is left in it. -/
theorem not_removesComments_twoComments :
    deleteComments false 0 twoComments = some (['b'], false) ∧
    ¬ RemovesComments twoComments (['b'], false) := by
  refine ⟨by decide, fun ⟨pieces, hread, hflatten⟩ ↦ ?_⟩
  have hall : removeAll false (readlines twoComments) =
      .ok ([['b'] ++ commentStart ++ ['c'] ++ commentEnd], false) := rfl
  obtain rfl := (Prod.mk.inj (Except.ok.inj (hall.symm.trans hread))).1
  exact absurd hflatten (by decide)

end Userland.Install.Mim
