import Mathlib.Algebra.Group.Nat.Even
import Mathlib.Data.Int.Notation
import Mathlib.Data.List.Infix
import Userland.Install.Mim.SchemaData
import Userland.Library.Cutting
import Userland.Library.Separated

/-!
# Splitting a path into branches

`branch_split` cuts a path at the slashes that are not within quotation marks or brackets. The
scanner that it restarts behind each delimiter (`searchAndGetContext`) turns a flag for each kind of
quotation mark, whatever the other flag says; `respectsQuoting_iff` says for which paths that is
good enough.

Scope: the scanner is also used backwards, elsewhere.
-/

set_option autoImplicit false
set_option relaxedAutoImplicit false

namespace Userland.Install.Mim

open Userland.Library

def errUnbalQuotesBkts : MimError := .mimInvalidError "Unbalanced brackets or quotation marks"

/-! ### The scanner -/

/-- What the scanner keeps: a flag for each kind of quotation mark, and the nesting level of
brackets. -/
structure Context where
  singleActive : Bool
  doubleActive : Bool
  brktActiveLvl : ℤ
deriving DecidableEq

namespace Context

def flip (context : Context) (curr : Char) : Context :=
  { context with
    singleActive := if curr = '\'' then !context.singleActive else context.singleActive
    doubleActive := if curr = '"' then !context.doubleActive else context.doubleActive }

def quoted (context : Context) : Bool :=
  context.doubleActive || context.singleActive

def nest (context : Context) (curr : Char) : Context :=
  if curr = '[' then { context with brktActiveLvl := context.brktActiveLvl + 1 }
  else if curr = ']' then { context with brktActiveLvl := context.brktActiveLvl - 1 }
  else context

def start (brktActiveLvl : ℤ) : Context :=
  ⟨false, false, brktActiveLvl⟩

end Context

/-- The loop of `search_and_get_context`, from the index `idx` on. -/
def scan (ch : Char) (context : Context) (idx : ℕ) : List Char → Option ℕ × ℤ
  | [] => (none, context.brktActiveLvl)
  | curr :: rest =>
    if (context.flip curr).quoted then scan ch (context.flip curr) (idx + 1) rest
    else if curr = ch then (some idx, context.brktActiveLvl)
    else scan ch ((context.flip curr).nest curr) (idx + 1) rest

/-- `search_and_get_context(path, ch, start_idx, brkt_active_lvl)`; there is no index where it is
-1. -/
def searchAndGetContext (path : List Char) (ch : Char) (startIdx : ℕ) (brktActiveLvl : ℤ) :
    Option ℕ × ℤ :=
  scan ch (.start brktActiveLvl) startIdx (path.drop startIdx)

variable {context : Context}

theorem le_and_lt_of_scan {ch : Char} {idx found : ℕ} {text : List Char}
    (h : (scan ch context idx text).1 = some found) : idx ≤ found ∧ found < idx + text.length := by
  induction text generalizing context idx with
  | nil => cases h
  | cons curr rest ih =>
    rw [List.length_cons]
    rw [scan] at h
    split_ifs at h
    · have := ih h
      omega
    · obtain rfl : idx = found := Option.some.inj h
      omega
    · have := ih h
      omega

/-- `path[first:last]` -/
def slice (path : List Char) (first last : ℕ) : List Char :=
  (path.take last).drop first

/-- The loop of `noquote_nobkt_split(path, split_char)`. -/
def splitLoop (path : List Char) (splitChar : Char) (startIdx idx : ℕ) (brktActiveLvl : ℤ) :
    Except MimError (List (List Char)) :=
  let brktActiveLvl' := (searchAndGetContext path splitChar idx brktActiveLvl).2
  match h : (searchAndGetContext path splitChar idx brktActiveLvl).1 with
  | some found =>
    if brktActiveLvl' = 0 then
      if 0 < found then
        (splitLoop path splitChar (found + 1) (found + 1) brktActiveLvl').map fun branches ↦
          slice path startIdx found :: branches
      else .ok [path.drop startIdx]
    else splitLoop path splitChar startIdx (found + 1) brktActiveLvl'
  | none => if brktActiveLvl' = 0 then .ok [path.drop startIdx] else .error errUnbalQuotesBkts
termination_by path.length - idx
decreasing_by
  all_goals
    have hfound := le_and_lt_of_scan h
    rw [List.length_drop] at hfound
    omega

/-- `noquote_nobkt_split(path, split_char)` -/
def noquoteNobktSplit (path : List Char) (splitChar : Char) : Except MimError (List (List Char)) :=
  splitLoop path splitChar 0 0 0

/-- `path.strip("/")` -/
def stripSlashes (path : List Char) : List Char :=
  (path.dropWhile (· == '/')).rdropWhile (· == '/')

/-- `branch_split(path)` -/
def branchSplit (path : List Char) : Except MimError (List (List Char)) :=
  noquoteNobktSplit (stripSlashes path) '/'

/-! ### One pass -/

namespace Context

/-- The context behind a character. -/
def read (context : Context) (curr : Char) : Context :=
  if (context.flip curr).quoted then context.flip curr else (context.flip curr).nest curr

/-- A delimiter in this context is cut at. -/
def plain (context : Context) : Bool :=
  !context.quoted && context.brktActiveLvl = 0

theorem flip_slash (context : Context) : context.flip '/' = context := rfl

theorem read_slash (context : Context) : context.read '/' = context := by
  rw [read, flip_slash]
  split_ifs <;> rfl

theorem eq_start (h : context.quoted = false) : context = start context.brktActiveLvl := by
  rw [quoted, Bool.or_eq_false_iff] at h
  obtain ⟨singleActive, doubleActive, brktActiveLvl⟩ := context
  obtain ⟨rfl, rfl⟩ : doubleActive = false ∧ singleActive = false := h
  rfl

end Context

theorem foldr_consFirst {pre piece : List Char} {pieces : List (List Char)} :
    pre.foldr consFirst (piece :: pieces) = (pre ++ piece) :: pieces := by
  induction pre with
  | nil => rfl
  | cons a pre ih => rw [List.foldr_cons, ih, consFirst, List.cons_append]

section

variable {path : List Char} {startIdx idx : ℕ}

theorem slice_succ {curr : Char} {rest : List Char} (hrest : path.drop idx = curr :: rest)
    (hle : startIdx ≤ idx) :
    slice path startIdx (idx + 1) = slice path startIdx idx ++ [curr] := by
  have hlt : idx < path.length := by
    by_contra hge
    rw [List.drop_eq_nil_of_le (Nat.le_of_not_lt hge)] at hrest
    cases hrest
  have hcurr : path[idx] = curr := by
    rw [List.drop_eq_getElem_cons hlt] at hrest
    exact (List.cons.inj hrest).1
  have hlength : startIdx ≤ (path.take idx).length := by
    rw [List.length_take]
    omega
  rw [slice, slice, List.take_succ_eq_append_getElem hlt, hcurr,
    List.drop_append_of_le_length hlength]

theorem slice_self : slice path idx idx = [] := by
  apply List.drop_eq_nil_of_le
  rw [List.length_take]
  exact Nat.min_le_left idx path.length

/-- What the loop does with the result of a search. -/
def afterSearch (path : List Char) (splitChar : Char) (startIdx : ℕ) (found : Option ℕ × ℤ) :
    Except MimError (List (List Char)) :=
  match found.1 with
  | some place =>
    if found.2 = 0 then
      if 0 < place then
        (splitLoop path splitChar (place + 1) (place + 1) found.2).map fun branches ↦
          slice path startIdx place :: branches
      else .ok [path.drop startIdx]
    else splitLoop path splitChar startIdx (place + 1) found.2
  | none => if found.2 = 0 then .ok [path.drop startIdx] else .error errUnbalQuotesBkts

theorem afterSearch_some (splitChar : Char) (place : ℕ) (brktActiveLvl : ℤ) :
    afterSearch path splitChar startIdx (some place, brktActiveLvl) =
      if brktActiveLvl = 0 then
        if 0 < place then
          (splitLoop path splitChar (place + 1) (place + 1) brktActiveLvl).map fun branches ↦
            slice path startIdx place :: branches
        else .ok [path.drop startIdx]
      else splitLoop path splitChar startIdx (place + 1) brktActiveLvl := rfl

theorem splitLoop_eq (splitChar : Char) (brktActiveLvl : ℤ) :
    splitLoop path splitChar startIdx idx brktActiveLvl =
      afterSearch path splitChar startIdx
      (searchAndGetContext path splitChar idx brktActiveLvl) := by
  rw [splitLoop, afterSearch]
  split <;> rename_i h <;> rw [h]

/-- The pieces of the rest of a path, of which the first one goes on from `pre`. -/
def piecesFrom (pre : List Char) (context : Context) (rest : List Char) :
    Except MimError (List (List Char)) :=
  if (rest.foldl Context.read context).brktActiveLvl = 0 then
    .ok (pre.foldr consFirst (cutBy Context.read Context.plain '/' context rest))
  else .error errUnbalQuotesBkts

theorem piecesFrom_cons {pre : List Char} {curr : Char} {rest : List Char}
    (h : ¬ (curr = '/' ∧ context.plain = true)) :
    piecesFrom (pre ++ [curr]) (context.read curr) rest =
    piecesFrom pre context (curr :: rest) := by
  rw [piecesFrom, piecesFrom, List.foldl_cons, cutBy, if_neg h, List.foldr_append]
  rfl

theorem piecesFrom_cut {pre : List Char} {rest : List Char} (h : context.plain = true) :
    (piecesFrom [] context rest).map (fun branches ↦ pre :: branches) =
    piecesFrom pre context ('/' :: rest) := by
  have hcut : cutBy Context.read Context.plain '/' context ('/' :: rest) =
      [] :: cutBy Context.read Context.plain '/' context rest := by
    rw [cutBy, if_pos ⟨rfl, h⟩, Context.read_slash]
  rw [piecesFrom, piecesFrom, List.foldl_cons, hcut, Context.read_slash, foldr_consFirst,
    List.append_nil]
  split_ifs <;> rfl

/-- The restarted scanner cuts as one pass over the path does. -/
theorem afterSearch_scan {text : List Char} (htext : path.drop idx = text)
    (hle : startIdx ≤ idx) (hhead : idx = 0 → text.head? ≠ some '/') :
    afterSearch path '/' startIdx (scan '/' context idx text) =
    piecesFrom (slice path startIdx idx) context text := by
  induction text generalizing context idx startIdx with
  | nil =>
    have hslice : slice path startIdx idx = path.drop startIdx := by
      rw [slice, List.take_of_length_le (List.drop_eq_nil_iff.mp htext)]
    rw [scan, afterSearch, piecesFrom, List.foldl_nil, cutBy, foldr_consFirst,
      List.append_nil, hslice]
  | cons curr rest ih =>
    have hrest : path.drop (idx + 1) = rest := by
      rw [← List.drop_drop, htext]
      rfl
    have hnext : ∀ {start : ℕ} {context' : Context}, start ≤ idx + 1 →
        afterSearch path '/' start (scan '/' context' (idx + 1) rest) =
          piecesFrom (slice path start (idx + 1)) context' rest := fun hstart ↦
      ih hrest hstart fun h ↦ absurd h (Nat.succ_ne_zero idx)
    rw [scan]
    split_ifs with hquoted hcurr
    · have hcut : ¬ (curr = '/' ∧ context.plain = true) := by
        rintro ⟨rfl, hplain⟩
        rw [Context.flip_slash] at hquoted
        rw [Context.plain, hquoted] at hplain
        cases hplain
      rw [hnext (Nat.le_succ_of_le hle), slice_succ htext hle, ← piecesFrom_cons hcut, Context.read,
        if_pos hquoted]
    · subst hcurr
      rw [Context.flip_slash] at hquoted
      have hquoted : context.quoted = false := Bool.eq_false_iff.mpr hquoted
      have hsearch : ∀ start : ℕ, start ≤ idx + 1 →
          splitLoop path '/' start (idx + 1) context.brktActiveLvl =
            piecesFrom (slice path start (idx + 1)) context rest := by
        intro start hstart
        rw [splitLoop_eq, searchAndGetContext, hrest, ← Context.eq_start hquoted]
        exact hnext hstart
      rw [afterSearch_some]
      split_ifs with hlevel hpos
      · have hplain : context.plain = true := by
          rw [Context.plain, hquoted, hlevel, decide_eq_true rfl]
          rfl
        rw [hsearch (idx + 1) le_rfl, slice_self, piecesFrom_cut hplain]
      · exact absurd rfl (hhead (Nat.eq_zero_of_not_pos hpos))
      · have hcut : ¬ ('/' = '/' ∧ context.plain = true) := by
          rintro ⟨-, hplain⟩
          rw [Context.plain, Bool.and_eq_true, decide_eq_true_eq] at hplain
          exact hlevel hplain.2
        rw [hsearch startIdx (Nat.le_succ_of_le hle), slice_succ htext hle, ← piecesFrom_cons hcut,
          Context.read_slash]
    · have hcut : ¬ (curr = '/' ∧ context.plain = true) := fun h ↦ hcurr h.1
      rw [hnext (Nat.le_succ_of_le hle), slice_succ htext hle, ← piecesFrom_cons hcut, Context.read,
        if_neg hquoted]

end

theorem head_stripSlashes (path : List Char) : (stripSlashes path).head? ≠ some '/' := by
  intro h
  obtain ⟨rest, hrest⟩ := List.head?_eq_some_iff.mp h
  have hdrop : (stripSlashes path).dropWhile (· == '/') = stripSlashes path :=
    dropWhile_rdropWhile_dropWhile (· == '/') path
  rw [hrest, List.dropWhile_cons, if_pos (beq_self_eq_true '/')] at hdrop
  have hlength := (List.dropWhile_suffix (· == '/') (l := rest)).length_le
  rw [hdrop, List.length_cons] at hlength
  omega

/-- The branches are those of one pass over the path. -/
theorem branchSplit_eq (path : List Char) : branchSplit path =
    if ((stripSlashes path).foldl Context.read (.start 0)).brktActiveLvl = 0 then
      .ok (cutBy Context.read Context.plain '/' (.start 0) (stripSlashes path))
    else .error errUnbalQuotesBkts := by
  rw [branchSplit, noquoteNobktSplit, splitLoop_eq, searchAndGetContext, List.drop_zero]
  rw [afterSearch_scan List.drop_zero le_rfl fun _ ↦ head_stripSlashes path, slice_self]
  rfl

/-! ### Counting marks -/

/-- Both kinds of quotation marks occur an even number of times. -/
def EvenMarks (text : List Char) : Prop :=
  Even (text.count '\'') ∧ Even (text.count '"')

instance (text : List Char) : Decidable (EvenMarks text) :=
  inferInstanceAs (Decidable (Even (text.count '\'') ∧ Even (text.count '"')))

/-- The number of brackets `c` that stand behind an even number of each quotation mark. -/
def bracketsAt (c : Char) (text : List Char) : ℕ :=
  (List.range text.length).countP fun place ↦ text[place]? = some c ∧ EvenMarks (text.take place)

def balance (text : List Char) : ℤ :=
  bracketsAt '[' text - bracketsAt ']' text

theorem even_count_concat (text : List Char) (c mark : Char) :
    Even ((text ++ [c]).count mark) ↔ if c = mark then ¬ Even (text.count mark)
    else Even (text.count mark) := by
  rw [List.count_append, List.count_singleton]
  by_cases h : c = mark
  · rw [if_pos h, if_pos (beq_iff_eq.mpr h), Nat.even_add_one]
  · rw [if_neg h, if_neg fun heq ↦ h (beq_iff_eq.mp heq), Nat.add_zero]

theorem bracketsAt_concat (bracket : Char) (text : List Char) (c : Char) :
    bracketsAt bracket (text ++ [c]) =
      bracketsAt bracket text + if c = bracket ∧ EvenMarks text then 1 else 0 := by
  have hlast : (text ++ [c])[text.length]? = some c := by
    rw [List.getElem?_append_right le_rfl, Nat.sub_self]
    rfl
  have htake : (text ++ [c]).take text.length = text := by
    rw [List.take_append_of_le_length le_rfl, List.take_length]
  have hbefore : ∀ place ∈ List.range text.length,
      (decide ((text ++ [c])[place]? = some bracket ∧ EvenMarks ((text ++ [c]).take place)) = true ↔
        decide (text[place]? = some bracket ∧ EvenMarks (text.take place)) = true) := by
    intro place hplace
    have hlt : place < text.length := List.mem_range.mp hplace
    rw [List.getElem?_append_left hlt, List.take_append_of_le_length hlt.le]
  rw [bracketsAt, bracketsAt, List.length_append, List.length_singleton, List.range_succ,
    List.countP_append, List.countP_congr hbefore, List.countP_singleton, hlast, htake]
  simp only [Option.some.injEq, decide_eq_true_eq]

theorem balance_concat (text : List Char) (c : Char) : balance (text ++ [c]) = balance text +
    if EvenMarks text then if c = '[' then 1 else if c = ']' then -1 else 0 else 0 := by
  rw [balance, balance, bracketsAt_concat, bracketsAt_concat]
  by_cases hmarks : EvenMarks text
  · by_cases hopen : c = '['
    · subst hopen
      rw [if_pos ⟨rfl, hmarks⟩, if_neg fun h ↦ absurd h.1 (by decide), if_pos hmarks, if_pos rfl]
      omega
    · rw [if_neg fun h ↦ hopen h.1, if_pos hmarks, if_neg hopen]
      by_cases hclose : c = ']'
      · rw [if_pos ⟨hclose, hmarks⟩, if_pos hclose]
        omega
      · rw [if_neg fun h ↦ hclose h.1, if_neg hclose]
        omega
  · rw [if_neg fun h ↦ hmarks h.2, if_neg fun h ↦ hmarks h.2, if_neg hmarks]
    omega

/-- The context of the scanner behind a text, from the numbers of marks in it. -/
def contextOf (text : List Char) (brktActiveLvl : ℤ) : Context :=
  ⟨decide (¬ Even (text.count '\'')), decide (¬ Even (text.count '"')), brktActiveLvl⟩

section

variable (text : List Char) (c : Char) (brktActiveLvl : ℤ)

theorem quoted_contextOf : (contextOf text brktActiveLvl).quoted = false ↔ EvenMarks text := by
  rw [Context.quoted, contextOf, Bool.or_eq_false_iff, decide_eq_false_iff_not,
    decide_eq_false_iff_not, not_not, not_not]
  exact and_comm

theorem flip_contextOf :
    (contextOf text brktActiveLvl).flip c = contextOf (text ++ [c]) brktActiveLvl := by
  have hflag : ∀ mark : Char, decide (¬ Even ((text ++ [c]).count mark)) =
      if c = mark then !decide (¬ Even (text.count mark))
      else decide (¬ Even (text.count mark)) := by
    intro mark
    have heven := even_count_concat text c mark
    split_ifs at heven ⊢
    · rw [← decide_not]
      exact decide_eq_decide.mpr (not_congr heven)
    · exact decide_eq_decide.mpr (not_congr heven)
  rw [Context.flip, contextOf, contextOf, hflag, hflag]

theorem nest_contextOf : (contextOf text brktActiveLvl).nest c = contextOf text
    (brktActiveLvl + if c = '[' then 1 else if c = ']' then -1 else 0) := by
  rw [Context.nest]
  split_ifs
  · rfl
  · rfl
  · rw [Int.add_zero]

theorem evenMarks_concat_bracket (h : c = '[' ∨ c = ']') :
    EvenMarks (text ++ [c]) ↔ EvenMarks text := by
  rw [EvenMarks, EvenMarks, even_count_concat, even_count_concat]
  rcases h with rfl | rfl
  · rw [if_neg (by decide), if_neg (by decide)]
  · rw [if_neg (by decide), if_neg (by decide)]

end

/-- The flags of the scanner tell whether marks have occurred an odd number of times. -/
theorem foldl_read_eq (text : List Char) :
    text.foldl Context.read (.start 0) = contextOf text (balance text) := by
  induction text using List.reverseRecOn with
  | nil => rfl
  | append_singleton text c ih =>
    have hquoted := quoted_contextOf (text ++ [c]) (balance text)
    rw [List.foldl_concat, ih, Context.read, flip_contextOf, nest_contextOf, balance_concat]
    by_cases hbracket : c = '[' ∨ c = ']'
    · rw [evenMarks_concat_bracket text c hbracket] at hquoted
      by_cases hmarks : EvenMarks text
      · rw [hquoted.mpr hmarks, if_neg Bool.false_ne_true, if_pos hmarks]
      · have hopen : (contextOf (text ++ [c]) (balance text)).quoted = true := by
          rw [← Bool.not_eq_false]
          exact fun h ↦ hmarks (hquoted.mp h)
        rw [if_pos hopen, if_neg hmarks, Int.add_zero]
    · rw [not_or] at hbracket
      rw [if_neg hbracket.1, if_neg hbracket.2, ite_self, Int.add_zero, ite_self]

/-! ### Quoting -/

/-- What is open at a place of a path: a quoted string, with its mark, and a number of brackets. -/
structure Place where
  quote : Option Char
  depth : ℤ
deriving DecidableEq

/-- The place behind a character. A quoted string ends at the next mark like the one that it began
with. -/
def Place.next (place : Place) (c : Char) : Place :=
  match place.quote with
  | some mark => if c = mark then { place with quote := none } else place
  | none =>
    if c = '\'' ∨ c = '"' then { place with quote := some c }
    else if c = '[' then { place with depth := place.depth + 1 }
    else if c = ']' then { place with depth := place.depth - 1 }
    else place

def placeBehind (text : List Char) : Place :=
  text.foldl Place.next ⟨none, 0⟩

/-- Behind this text no quoted string and no bracket is open. -/
def Outside (text : List Char) : Prop :=
  placeBehind text = ⟨none, 0⟩

instance (text : List Char) : Decidable (Outside text) :=
  inferInstanceAs (Decidable (placeBehind text = ⟨none, 0⟩))

/-- Quoted strings end and brackets match. -/
def Balanced (path : List Char) : Prop :=
  Outside path ∧ ∀ before, before <+: path → 0 ≤ (placeBehind before).depth

/-- The path is split, its branches give it back, and it is split at the slashes outside of quoted
strings and brackets. -/
def RespectsQuoting (path : List Char) : Prop :=
  ∃ branches, branchSplit path = .ok branches ∧ ['/'].intercalate branches = stripSlashes path ∧
    ∀ before after, stripSlashes path = before ++ '/' :: after →
      (IsCut '/' branches before ↔ Outside before)

/-- The marks before a slash, counted, tell whether it is outside, and all brackets that count
match. -/
def CountsTell (path : List Char) : Prop :=
  balance (stripSlashes path) = 0 ∧ ∀ before after, stripSlashes path = before ++ '/' :: after →
    (EvenMarks before ∧ balance before = 0 ↔ Outside before)

theorem plain_foldl_read (text : List Char) :
    (text.foldl Context.read (.start 0)).plain = true ↔ EvenMarks text ∧ balance text = 0 := by
  rw [foldl_read_eq, Context.plain, Bool.and_eq_true, Bool.not_eq_true', quoted_contextOf,
    decide_eq_true_eq]
  exact Iff.rfl

/-- Paths are split as their quoting demands exactly if counting marks is as good as reading them.
-/
theorem respectsQuoting_iff (path : List Char) : RespectsQuoting path ↔ CountsTell path := by
  have hsplit : branchSplit path = if balance (stripSlashes path) = 0 then
      .ok (cutBy Context.read Context.plain '/' (.start 0) (stripSlashes path))
          else .error errUnbalQuotesBkts := by
    rw [branchSplit_eq, foldl_read_eq, contextOf]
  constructor
  · rintro ⟨branches, hbranches, -, hcuts⟩
    rw [hsplit] at hbranches
    by_cases hbalance : balance (stripSlashes path) = 0
    · rw [if_pos hbalance] at hbranches
      obtain rfl := Except.ok.inj hbranches
      refine ⟨hbalance, fun before after hpath ↦ ?_⟩
      rw [← hcuts before after hpath, ← plain_foldl_read, hpath]
      exact (isCut_cutBy_iff Context.read Context.plain (.start 0) before after).symm
    · rw [if_neg hbalance] at hbranches
      cases hbranches
  · rintro ⟨hbalance, htell⟩
    rw [if_pos hbalance] at hsplit
    refine ⟨_, hsplit, intercalate_cutBy _ _ _ _ _, fun before after hpath ↦ ?_⟩
    rw [← htell before after hpath, ← plain_foldl_read, hpath]
    exact isCut_cutBy_iff Context.read Context.plain (.start 0) before after

/-- `"it's"/"it's"` -/
def apostrophes : List Char :=
  "\"it's\"/\"it's\"".toList

/-- An apostrophe within double quotation marks hides the slash behind them. -/
theorem not_respectsQuoting_apostrophes : Balanced apostrophes ∧ ¬ RespectsQuoting apostrophes := by
  have hbranches : branchSplit apostrophes = .ok [apostrophes] := by
    rw [branchSplit_eq]
    rfl
  refine ⟨⟨by decide, fun before hbefore ↦ ?_⟩, ?_⟩
  · have hdepth : ∀ before ∈ apostrophes.inits, 0 ≤ (placeBehind before).depth := by decide
    exact hdepth before (List.mem_inits before apostrophes |>.mpr hbefore)
  · rintro ⟨branches, hok, -, hcuts⟩
    obtain rfl := Except.ok.inj (hbranches.symm.trans hok)
    obtain ⟨first, second, hfirst, hsecond, hpieces, -⟩ :=
      (hcuts "\"it's\"".toList "\"it's\"".toList (by decide)).mpr (by decide)
    have hlength := congrArg List.length hpieces
    have hfirst := List.length_pos_iff.mpr hfirst
    have hsecond := List.length_pos_iff.mpr hsecond
    rw [List.length_singleton, List.length_append] at hlength
    omega

end Userland.Install.Mim
