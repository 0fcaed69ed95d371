import Userland.AutoInstall.Criteria
import Userland.Library.Lexing

/-!
# Tokens of queries

The tokens of a query as the database reads it, with all literals taken for one (`sqlLexer`). A
value between apostrophes is one literal exactly if its apostrophes stand in pairs
(`reads_quoted_iff`), and one between `x'` and `'` exactly if it is made of hexadecimal digits, an
even number of them (`reads_blob_iff`).

Scope: integers are decimal. A number that goes on as a name is one illegal token, and characters
that begin no other token are tokens of their own.
-/

set_option autoImplicit false
set_option relaxedAutoImplicit false

namespace Userland.AutoInstall

open Userland.Library

/-! ### The lexer -/

/-- A token, with the literals in one kind. -/
inductive SqlToken
  | name (text : Text)
  | quotedName
  | literal
  | operator (text : Text)
  | mark (c : Char)
  | other (c : Char)
  | illegal
deriving DecidableEq

/-- How far a number is read. -/
inductive NumberPhase
  | integer
  | fraction
  | exponentMark
  | exponentSign
  | exponent
  | wrong
deriving DecidableEq

/-- How far the digits of a blob are read. -/
inductive BlobPhase
  | even
  | odd
  | wrong
deriving DecidableEq

/-- What stands around a text: `'`, `"`, a backquote or brackets. -/
inductive SqlQuote
  | apostrophe
  | quotation
  | backquote
  | bracket
deriving DecidableEq

def SqlQuote.close : SqlQuote → Char
  | .apostrophe => '\''
  | .quotation => '"'
  | .backquote => '\x60'
  | .bracket => ']'

/-- The token that is read. -/
inductive SqlState
  | blank
  | name (text : Text)
  | operator (text : Text)
  | mark (c : Char)
  | number (phase : NumberPhase)
  | quoted (quote : SqlQuote)
  | closed (quote : SqlQuote)
  | blob (phase : BlobPhase)
  | ended (token : SqlToken)
  | lineComment
  | blockComment
  | blockStar
deriving DecidableEq

/-- A character of a name. -/
def isNameChar (c : Char) : Bool :=
  c.isAlphanum || c = '_' || c = '$' || 128 ≤ c.toNat

def isHexDigit (c : Char) : Bool :=
  c.isDigit || ('a' ≤ c && c ≤ 'f') || ('A' ≤ c && c ≤ 'F')

def isMark (c : Char) : Bool :=
  ['(', ')', ',', ';'].contains c

/-- The state behind the first character of a token. -/
def startToken (c : Char) : SqlState :=
  if [' ', '\t', '\n', '\r', '\x0c'].contains c then .blank
  else if isMark c then .mark c
  else if c.isDigit then .number .integer
  else if c ≠ '$' ∧ isNameChar c then .name [c]
  else if c = '\'' then .quoted .apostrophe
  else if c = '"' then .quoted .quotation
  else if c = '\x60' then .quoted .backquote
  else if c = '[' then .quoted .bracket
  else if "-+*/%.<>=!|&~".toList.contains c then .operator [c]
  else .ended (.other c)

def NumberPhase.next (c : Char) : NumberPhase → Option NumberPhase
  | .integer =>
    if c.isDigit then some .integer
    else if c = '.' then some .fraction
    else if c = 'e' ∨ c = 'E' then some .exponentMark
    else if isNameChar c then some .wrong else none
  | .fraction =>
    if c.isDigit then some .fraction
    else if c = 'e' ∨ c = 'E' then some .exponentMark
    else if isNameChar c then some .wrong else none
  | .exponentMark =>
    if c.isDigit then some .exponent
    else if c = '+' ∨ c = '-' then some .exponentSign
    else if isNameChar c then some .wrong else none
  | .exponentSign => if c.isDigit then some .exponent else none
  | .exponent => if c.isDigit then some .exponent else if isNameChar c then some .wrong else none
  | .wrong => if isNameChar c then some .wrong else none

def BlobPhase.next (c : Char) (phase : BlobPhase) : BlobPhase :=
  if isHexDigit c then
    match phase with
    | .even => .odd
    | .odd => .even
    | .wrong => .wrong
  else .wrong

/-- Operators of two characters. -/
def operatorPairs : List (Text × Char) :=
  [(['<'], '='), (['<'], '>'), (['<'], '<'), (['>'], '='), (['>'], '>'), (['='], '='), (['!'], '='),
    (['|'], '|')]

/-- A token goes on. -/
def extendToken (c : Char) : SqlState → Option SqlState
  | .blank | .mark _ | .ended _ => none
  | .name text =>
    if isNameChar c then some (.name (text ++ [c]))
    else if c = '\'' ∧ (text = ['x'] ∨ text = ['X']) then some (.blob .even) else none
  | .operator text =>
    if text = ['-'] ∧ c = '-' then some .lineComment
    else if text = ['/'] ∧ c = '*' then some .blockComment
    else if text = ['.'] ∧ c.isDigit then some (.number .fraction)
    else if operatorPairs.contains (text, c) then
      some (.operator (text ++ [c]))
    else none
  | .number phase => (phase.next c).map .number
  | .quoted quote =>
    if c ≠ quote.close then some (.quoted quote)
    else if quote = .bracket then some (.ended .quotedName) else some (.closed quote)
  | .closed quote => if c = quote.close then some (.quoted quote) else none
  | .blob phase =>
    if c ≠ '\'' then some (.blob (phase.next c))
    else if phase = .even then some (.ended .literal) else some (.ended .illegal)
  | .lineComment => if c = '\n' then some .blank else some .lineComment
  | .blockComment => if c = '*' then some .blockStar else some .blockComment
  | .blockStar => if c = '/' then some .blank else if c = '*' then some .blockStar
    else some .blockComment

/-- The tokens of a state where nothing follows. -/
def finishToken : SqlState → List SqlToken
  | .blank | .lineComment | .blockComment | .blockStar => []
  | .name text => [.name text]
  | .operator text => [.operator text]
  | .mark c => [.mark c]
  | .number .integer | .number .fraction | .number .exponent => [.literal]
  | .number _ | .quoted _ | .blob _ => [.illegal]
  | .closed quote => if quote = .apostrophe then [.literal] else [.quotedName]
  | .ended token => [token]

def sqlLexer : Lexer Char SqlState SqlToken where
  blank := .blank
  start := startToken
  extend s c := extendToken c s
  finish := finishToken
  finish_blank := rfl
  extend_blank _ := rfl

/-- The tokens of a query. -/
def sqlTokens (text : Text) : List SqlToken :=
  sqlLexer.tokens .blank text

example : sqlTokens "MINmem <= 1e3 OR a.b = 'it''s' -- c".toList =
    [.name "MINmem".toList, .operator "<=".toList, .literal, .name "OR".toList, .name "a".toList,
      .operator ".".toList, .name "b".toList, .operator "=".toList, .literal] := by
  decide

/-! ### Marks -/

def SqlToken.isMark : SqlToken → Bool
  | .mark _ => true
  | _ => false

variable {c : Char}

theorem startToken_of_isMark (h : isMark c = true) : startToken c = .mark c := by
  have hmem : c ∈ ['(', ')', ',', ';'] := List.contains_iff_mem.mp h
  simp only [List.mem_cons, List.not_mem_nil, or_false] at hmem
  rcases hmem with rfl | rfl | rfl | rfl <;> rfl

/-- No state but the one of a mark has one. -/
theorem isMark_eq_false_of_mem {s : SqlState} (h : ∀ c, s ≠ .mark c)
    (hended : ∀ t, s = .ended t → t.isMark = false) :
    ∀ t ∈ finishToken s, t.isMark = false := by
  intro t ht
  cases s with
  | blank | lineComment | blockComment | blockStar => cases ht
  | name | operator | quoted | blob =>
    obtain rfl := List.mem_singleton.mp ht
    rfl
  | mark c => exact absurd rfl (h c)
  | number phase =>
    cases phase <;> obtain rfl := List.mem_singleton.mp ht <;> rfl
  | closed close =>
    rw [finishToken] at ht
    split_ifs at ht <;> obtain rfl := List.mem_singleton.mp ht <;> rfl
  | ended token =>
    obtain rfl := List.mem_singleton.mp ht
    exact hended _ rfl

theorem finishToken_startToken (h : isMark c = false) :
    ∀ t ∈ finishToken (startToken c), t.isMark = false := by
  apply isMark_eq_false_of_mem
  · intro d hd
    unfold startToken at hd
    split_ifs at hd with hspace hmark
    exact absurd (h.symm.trans hmark) Bool.false_ne_true
  · intro t ht
    unfold startToken at ht
    split_ifs at ht
    obtain rfl := SqlState.ended.inj ht
    rfl

theorem finishToken_extendToken {s next : SqlState} (h : extendToken c s = some next) :
    ∀ t ∈ finishToken next, t.isMark = false := by
  have hcases : (∀ d, next ≠ .mark d) ∧ ∀ t, next = .ended t → t.isMark = false := by
    cases s with
    | blank | mark | ended => cases h
    | number phase =>
      obtain ⟨after, -, rfl⟩ := Option.map_eq_some_iff.mp h
      exact ⟨fun d heq ↦ (by cases heq), fun t heq ↦ (by cases heq)⟩
    | name | operator | quoted | closed | blob | lineComment | blockComment | blockStar =>
      simp only [extendToken] at h
      split_ifs at h <;> obtain rfl := Option.some.inj h <;>
        refine ⟨fun d heq ↦ (by cases heq), fun t heq ↦ ?_⟩ <;> cases heq <;> rfl
  exact isMark_eq_false_of_mem hcases.1 hcases.2

/-- The marks of queries: parentheses, commas and semicolons. -/
def sqlMarks : Marks sqlLexer where
  isMark := isMark
  isToken := SqlToken.isMark
  token := .mark
  isToken_token _ _ := rfl
  finish_start c h := by
    show finishToken (startToken c) = _
    rw [startToken_of_isMark h]
    rfl
  sealed_start c h d := by
    show extendToken d (startToken c) = none
    rw [startToken_of_isMark h]
    rfl
  other_start _ h := finishToken_startToken h
  other_extend _ _ _ h := finishToken_extendToken h

/-! ### Tokens that take in what follows -/

/-- A token that a mark does not end: a literal, a quoted name or a comment. -/
def SqlState.isDeep : SqlState → Bool
  | .quoted _ | .blob _ | .lineComment | .blockComment | .blockStar => true
  | _ => false

/-- A character that leaves a deep token as it is: it may be its last one otherwise. -/
def isInert (c : Char) : Bool :=
  !(['\'', '"', '\x60', ']', '\n', '*', '/'].contains c)

theorem ne_close_of_isInert (h : isInert c = true) (quote : SqlQuote) : c ≠ quote.close := by
  rintro rfl
  cases quote <;> exact absurd h (by decide)

theorem isDeep_extendToken (h : isInert c = true) {s : SqlState} (hdeep : s.isDeep = true) :
    ∃ next, extendToken c s = some next ∧ next.isDeep = true := by
  have hne : ∀ d, isInert d = false → c ≠ d := by
    rintro d hd rfl
    exact Bool.false_ne_true (hd.symm.trans h)
  cases s with
  | blank | name | operator | mark | number | closed | ended => cases hdeep
  | quoted quote => exact ⟨.quoted quote, if_pos (ne_close_of_isInert h quote), rfl⟩
  | blob phase => exact ⟨.blob (phase.next c), if_pos (hne _ (by decide)), rfl⟩
  | lineComment => exact ⟨.lineComment, if_neg (hne _ (by decide)), rfl⟩
  | blockComment => exact ⟨.blockComment, if_neg (hne _ (by decide)), rfl⟩
  | blockStar =>
    refine ⟨.blockComment, ?_, rfl⟩
    rw [extendToken, if_neg (hne _ (by decide)), if_neg (hne _ (by decide))]

/-- The characters that end the tokens that are not deep: marks and blanks. -/
def isBreak (c : Char) : Bool :=
  [' ', '(', ')', ',', ';'].contains c

theorem eq_of_isBreak (h : isBreak c = true) : c = ' ' ∨ c = '(' ∨ c = ')' ∨ c = ',' ∨ c = ';' := by
  have hmem : c ∈ [' ', '(', ')', ',', ';'] := List.contains_iff_mem.mp h
  simp only [List.mem_cons, List.not_mem_nil, or_false] at hmem
  exact hmem

theorem extendToken_isBreak (h : isBreak c = true) (s : SqlState) :
    extendToken c s = none ↔ s.isDeep = false := by
  have hfacts : isInert c = true ∧ isNameChar c = false ∧ c.isDigit = false ∧ c ≠ '\'' ∧ c ≠ '.' ∧
      c ≠ 'e' ∧ c ≠ 'E' ∧
      c ≠ '+' ∧ c ≠ '-' ∧ c ≠ '*' ∧ ∀ text, operatorPairs.contains (text, c) = false := by
    rcases eq_of_isBreak h with rfl | rfl | rfl | rfl | rfl <;>
      simp [isInert, isNameChar, operatorPairs]
  obtain ⟨hinert, hname, hdigit, hquote, hdot, he, hE, hplus, hminus, hstar, hpairs⟩ := hfacts
  cases hdeep : s.isDeep with
  | true =>
    obtain ⟨next, hnext, -⟩ := isDeep_extendToken hinert hdeep
    exact iff_of_false (fun hnone ↦ Option.some_ne_none next (hnext.symm.trans hnone)) (by decide)
  | false =>
    refine iff_of_true ?_ rfl
    cases s with
    | blank | mark | ended => rfl
    | name text => rw [extendToken, hname, if_neg Bool.false_ne_true, if_neg fun hif ↦ hquote hif.1]
    | operator text =>
      rw [extendToken, if_neg fun hif ↦ hminus hif.2, if_neg fun hif ↦ hstar hif.2,
        if_neg fun hif ↦ Bool.false_ne_true (hdigit.symm.trans hif.2), hpairs,
          if_neg Bool.false_ne_true]
    | number phase =>
      rw [extendToken]
      cases phase <;> simp [NumberPhase.next, hname, hdigit, hdot, he, hE, hplus, hminus]
    | closed quote => rw [extendToken, if_neg (ne_close_of_isInert hinert quote)]
    | quoted | blob | lineComment | blockComment | blockStar => cases hdeep

theorem isDeep_ending {s : SqlState} (hdeep : s.isDeep = true) {text : Text}
    (h : ∀ c ∈ text, isInert c = true) :
    (sqlLexer.ending s text).isDeep = true := by
  induction text generalizing s with
  | nil => exact hdeep
  | cons c rest ih =>
    obtain ⟨hc, hrest⟩ := List.forall_mem_cons.mp h
    obtain ⟨next, hnext, hdeep⟩ := isDeep_extendToken hc hdeep
    rw [Lexer.ending_cons_of_some hnext]
    exact ih hdeep hrest

/-! ### Values between apostrophes -/

theorem isDeep_or_finish_ne_nil {s next : SqlState} (h : sqlLexer.extend s '\'' = some next) :
    next.isDeep = true ∨ finishToken next ≠ [] := by
  have h : extendToken '\'' s = some next := h
  cases s with
  | blank | mark | ended => cases h
  | name text =>
    rw [extendToken, if_neg (by decide)] at h
    split_ifs at h
    obtain rfl := Option.some.inj h
    exact Or.inl rfl
  | operator text =>
    rw [extendToken, if_neg (by rintro ⟨-, h⟩; cases h), if_neg (by rintro ⟨-, h⟩; cases h),
      if_neg (by rintro ⟨-, h⟩; cases h)] at h
    split_ifs at h
    obtain rfl := Option.some.inj h
    exact Or.inr (List.cons_ne_nil _ _)
  | number phase => cases phase <;> cases h
  | quoted quote => cases quote <;> (obtain rfl := Option.some.inj h; decide)
  | closed quote =>
    cases quote <;> cases h
    decide
  | blob phase => cases phase <;> (obtain rfl := Option.some.inj h; decide)
  | lineComment | blockComment | blockStar =>
    obtain rfl := Option.some.inj h
    exact Or.inl rfl

/-- Behind an apostrophe there is a literal that is not ended, or a token. -/
theorem isDeep_or_tokens_ne_nil (s : SqlState) (text : Text) :
    (sqlLexer.ending s (text ++ ['\''])).isDeep = true ∨
    sqlLexer.tokens s (text ++ ['\'']) ≠ [] := by
  obtain ⟨read, hread⟩ : ∃ read, ∀ rest, sqlLexer.tokens s (text ++ rest) =
      read ++ sqlLexer.tokens (sqlLexer.ending s text) rest := Lexer.exists_tokens_append s text
  have hlast : ∀ s : SqlState, (sqlLexer.ending s ['\'']).isDeep = true ∨
      sqlLexer.tokens s ['\''] ≠ [] := by
    intro s
    cases hextend : sqlLexer.extend s '\'' with
    | none =>
      rw [Lexer.ending_cons_of_none hextend]
      exact Or.inl rfl
    | some next =>
      rw [Lexer.ending_cons_of_some hextend, Lexer.tokens_cons_of_some hextend]
      exact isDeep_or_finish_ne_nil hextend
  rw [Lexer.ending_append, hread]
  rcases hlast (sqlLexer.ending s text) with hdeep | hne
  · exact Or.inl hdeep
  · exact Or.inr (List.append_ne_nil_of_right_ne_nil _ hne)

/-- The apostrophes of a text stand in pairs, where one before it may have none yet. -/
def Paired (pending : Bool) : Text → Prop
  | [] => pending = false
  | c :: rest => if c = '\'' then Paired (!pending) rest else pending = false ∧ Paired false rest

instance decidablePaired : (pending : Bool) → (text : Text) → Decidable (Paired pending text)
  | pending, [] => inferInstanceAs (Decidable (pending = false))
  | pending, c :: rest =>
    have := decidablePaired (!pending) rest
    have := decidablePaired false rest
    inferInstanceAs (Decidable (if c = '\'' then Paired (!pending) rest
      else pending = false ∧ Paired false rest))

/-- The state inside apostrophes. -/
def quotedState (pending : Bool) : SqlState :=
  if pending then .closed .apostrophe else .quoted .apostrophe

theorem reads_quoted_iff (pending : Bool) (text : Text) :
    ((sqlLexer.ending (quotedState pending) (text ++ ['\''])).isDeep = false ∧
      sqlLexer.tokens (quotedState pending) (text ++ ['\'']) = [.literal]) ↔
      Paired pending text := by
  induction text generalizing pending with
  | nil => cases pending <;> decide
  | cons c rest ih =>
    rw [List.cons_append, Paired]
    by_cases hc : c = '\''
    · have hextend : sqlLexer.extend (quotedState pending) c = some (quotedState !pending) := by
        rw [hc]
        cases pending <;> rfl
      rw [if_pos hc, Lexer.ending_cons_of_some hextend, Lexer.tokens_cons_of_some hextend]
      exact ih _
    · rw [if_neg hc]
      cases pending with
      | false =>
        have hextend : sqlLexer.extend (quotedState false) c = some (quotedState false) := if_pos hc
        rw [Lexer.ending_cons_of_some hextend, Lexer.tokens_cons_of_some hextend, ih]
        exact (and_iff_right rfl).symm
      | true =>
        have hextend : sqlLexer.extend (quotedState true) c = none := if_neg hc
        refine iff_of_false ?_ fun h ↦ absurd h.1 (by decide)
        rintro ⟨hends, htokens⟩
        rw [Lexer.ending_cons_of_none hextend] at hends
        rw [Lexer.tokens_cons_of_none hextend] at htokens
        rcases isDeep_or_tokens_ne_nil (startToken c) rest with hdeep | hne
        · exact Bool.false_ne_true (hends.symm.trans hdeep)
        · exact hne (List.cons_eq_cons.mp htokens).2

/-- The digits of a blob: an even number of them, or an odd one. -/
def IsBlob (phase : BlobPhase) (text : Text) : Prop :=
  (∀ c ∈ text, isHexDigit c = true) ∧ text.length % 2 = if phase = .even then 0 else 1

instance (phase : BlobPhase) (text : Text) : Decidable (IsBlob phase text) :=
  decidable_of_iff (text.all isHexDigit = true ∧ text.length % 2 = if phase = .even then 0 else 1)
    (and_congr_left' List.all_eq_true)

theorem not_reads_wrong (text : Text) :
    ¬ ((sqlLexer.ending (.blob .wrong) (text ++ ['\''])).isDeep = false ∧
    sqlLexer.tokens (.blob .wrong) (text ++ ['\'']) = [.literal]) := by
  induction text with
  | nil => decide
  | cons c rest ih =>
    rw [List.cons_append]
    by_cases hc : c = '\''
    · have hextend : sqlLexer.extend (.blob .wrong) c = some (.ended .illegal) := by
        rw [hc]
        rfl
      rintro ⟨-, htokens⟩
      rw [Lexer.tokens_cons_of_some hextend, Lexer.tokens_of_sealed fun _ ↦ rfl] at htokens
      exact absurd (List.cons_eq_cons.mp htokens).1 (by decide)
    · have hphase : BlobPhase.wrong.next c = .wrong := by
        rw [BlobPhase.next]
        split_ifs <;> rfl
      have hextend : sqlLexer.extend (.blob .wrong) c = some (.blob .wrong) := by
        show extendToken c (.blob .wrong) = _
        rw [extendToken, if_pos hc, hphase]
      rw [Lexer.ending_cons_of_some hextend, Lexer.tokens_cons_of_some hextend]
      exact ih

theorem reads_blob_iff {phase : BlobPhase} (hphase : phase ≠ .wrong) (text : Text) :
    ((sqlLexer.ending (.blob phase) (text ++ ['\''])).isDeep = false ∧
      sqlLexer.tokens (.blob phase) (text ++ ['\'']) = [.literal]) ↔ IsBlob phase text := by
  induction text generalizing phase with
  | nil => cases phase <;> decide
  | cons c rest ih =>
    rw [List.cons_append]
    by_cases hc : c = '\''
    · have hextend : sqlLexer.extend (.blob phase) c =
          some (.ended (if phase = .even then .literal else .illegal)) := by
        rw [hc]
        cases phase <;> rfl
      refine iff_of_false ?_ ?_
      · rintro ⟨hends, htokens⟩
        rw [Lexer.ending_cons_of_some hextend, Lexer.ending_of_sealed (fun _ ↦ rfl)
          (List.append_ne_nil_of_right_ne_nil rest (List.cons_ne_nil _ _))] at hends
        rw [Lexer.tokens_cons_of_some hextend, Lexer.tokens_of_sealed fun _ ↦ rfl] at htokens
        rcases isDeep_or_tokens_ne_nil .blank rest with hdeep | hne
        · exact Bool.false_ne_true (hends.symm.trans hdeep)
        · exact hne (List.cons_eq_cons.mp htokens).2
      · rintro ⟨hhex, -⟩
        have hdigit := hhex c List.mem_cons_self
        rw [hc] at hdigit
        exact absurd hdigit (by decide)
    · have hextend : sqlLexer.extend (.blob phase) c = some (.blob (phase.next c)) := if_pos hc
      rw [Lexer.ending_cons_of_some hextend, Lexer.tokens_cons_of_some hextend]
      cases hhex : isHexDigit c with
      | false =>
        have hnext : phase.next c = .wrong := if_neg (ne_true_of_eq_false hhex)
        rw [hnext]
        refine iff_of_false (not_reads_wrong rest) fun h ↦ ?_
        exact Bool.false_ne_true (hhex.symm.trans (h.1 c List.mem_cons_self))
      | true =>
        rw [IsBlob, List.forall_mem_cons, and_iff_right hhex, List.length_cons]
        cases phase with
        | even =>
          have hnext : BlobPhase.even.next c = .odd := if_pos hhex
          rw [hnext, ih (by decide), IsBlob]
          refine and_congr_right fun _ ↦ ?_
          show rest.length % 2 = 1 ↔ (rest.length + 1) % 2 = 0
          omega
        | odd =>
          have hnext : BlobPhase.odd.next c = .even := if_pos hhex
          rw [hnext, ih (by decide), IsBlob]
          refine and_congr_right fun _ ↦ ?_
          show rest.length % 2 = 0 ↔ (rest.length + 1) % 2 = 1
          omega
        | wrong => exact absurd rfl hphase

end Userland.AutoInstall
