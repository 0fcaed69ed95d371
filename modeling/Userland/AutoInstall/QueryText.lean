import Mathlib.Data.List.DropRight
import Userland.AutoInstall.PublishManifest
import Userland.AutoInstall.SqlTokens

/-!
# The query of a client

`build_query_str` puts the values that a client gives into the text of a query. `buildQueryStr_iff`
says for which values the query has the tokens of its form, where every value is one literal.

Scope: texts are byte strings, and the columns are those of the table.
-/

set_option autoImplicit false
set_option relaxedAutoImplicit false
set_option maxRecDepth 3000

namespace Userland.AutoInstall

open Userland.Library

/-! ### Names of columns -/

def RangeCriterion.name : RangeCriterion → Text
  | .mac => "mac".toList
  | .ipv4 => "ipv4".toList
  | .network => "network".toList
  | .mem => "mem".toList

def ListCriterion.name : ListCriterion → Text
  | .arch => "arch".toList
  | .hostname => "hostname".toList
  | .cpu => "cpu".toList
  | .platform => "platform".toList
  | .zonename => "zonename".toList

def Column.name : Column → Text
  | .min c => "MIN".toList ++ c.name
  | .max c => "MAX".toList ++ c.name
  | .list c => c.name

namespace QueryText

/-! ### The query of a client -/

/-- `(crit IS NULL) AND ` -/
def nullClause (column : Column) : Text :=
  "(".toList ++ column.name ++ " IS NULL) AND ".toList

/-- The clause for a bound, with the comparison that is made with it. -/
def boundClause (comparison : Text) (column : Column) (isMac : Bool) (critval : Text) : Text :=
  if isMac then
    "(HEX(".toList ++ column.name ++ ") ".toList ++ comparison ++ " HEX(x'".toList ++ critval ++
      "') OR ".toList ++
      column.name ++ " IS NULL) AND ".toList
  else
    "(".toList ++ column.name ++ " ".toList ++ comparison ++ " ".toList ++ critval ++
      " OR ".toList ++ column.name ++
      " IS NULL) AND ".toList

/-- The clause for a list of values. -/
def listClause (column : Column) (critval : Text) : Text :=
  "(".toList ++ column.name ++ " IS NULL OR is_in_list('".toList ++ column.name ++
    "', '".toList ++ critval ++
    "', ".toList ++ column.name ++ ", 'None') == 1) AND ".toList

/-- The clause for a column, from the criteria of the client. -/
def clause (criteria : Criterion → Option Text) (column : Column) : Text :=
  match criteria column.criterion with
  | none => nullClause column
  | some value =>
    match column with
    | .min c => boundClause "<=".toList column (c = .mac) (sanitizeSQL value)
    | .max c => boundClause ">=".toList column (c = .mac) (sanitizeSQL value)
    | .list _ => listClause column (sanitizeSQL value)

def selectText : Text :=
  "SELECT name, ".toList ++ "(COALESCE(MAXmac, MINmac) IS NOT NULL) as mac_val, ".toList ++
    "(COALESCE(MAXipv4, MINipv4) IS NOT NULL) as ipv4_val, ".toList ++
    "(COALESCE(MAXnetwork, MINnetwork) IS NOT NULL) as net_val, ".toList ++
    "(COALESCE(MAXmem, MINmem) IS NOT NULL) as mem_val ".toList ++ "FROM manifests WHERE ".toList

def orderText : Text :=
  "ORDER BY mac_val desc, ipv4_val desc, ".toList ++
    "platform desc, arch desc, cpu desc, ".toList ++
    "net_val desc, mem_val desc LIMIT 1".toList

/-- `build_query_str(criteria, criteria_set_in_db, all_criteria_in_db)`. -/
def buildQueryStr (criteria : Criterion → Option Text) (criteriaSetInDb : List Column)
    (allCriteriaInDb : Option (List Column)) : Text :=
  let queryStr := selectText ++ criteriaSetInDb.flatMap (clause criteria)
  match allCriteriaInDb with
  | some allCriteria =>
    (queryStr ++ "(NOT (".toList ++ allCriteria.flatMap nullClause).rdrop 4 ++
      ")) ".toList ++ orderText
  | none => queryStr.rdrop 4 ++ orderText

/-! ### Values that are literals -/

/-- A value that is one literal, and nothing is left open behind it. -/
def IsLiteral (value : Text) : Prop :=
  (sqlLexer.ending .blank value).isDeep = false ∧ sqlTokens value = [.literal]

instance (value : Text) : Decidable (IsLiteral value) :=
  inferInstanceAs (Decidable (_ ∧ _))

/-- A value is one literal in its place: the digits of an address, a literal for a bound, and a text
with its apostrophes in pairs. -/
def Plain : Criterion → Text → Prop
  | .range .mac, value => IsBlob .even value
  | .range _, value => IsLiteral value
  | .list _, value => Paired false value

instance decidablePlain : (c : Criterion) → (value : Text) → Decidable (Plain c value)
  | .range .mac, value => inferInstanceAs (Decidable (IsBlob .even value))
  | .range .ipv4, value => inferInstanceAs (Decidable (IsLiteral value))
  | .range .network, value => inferInstanceAs (Decidable (IsLiteral value))
  | .range .mem, value => inferInstanceAs (Decidable (IsLiteral value))
  | .list _, value => inferInstanceAs (Decidable (Paired false value))

/-- The literal that stands for every value in the form of a query. -/
def standIn : Text :=
  ['0', '0']

theorem isBreak_of_isMark {c : Char} (h : isMark c = true) : isBreak c = true := by
  rcases eq_of_isBreak (List.contains_iff_mem.mpr
      (List.mem_cons_of_mem ' ' (List.contains_iff_mem.mp h))) with
    rfl | rfl | rfl | rfl | rfl <;> decide

section Places

variable {before value after sample : Text} {mark : Char}

theorem fits_iff (hmark : isMark mark = true) :
    (TextPart.place before value after mark sample).Fits sqlLexer ↔
      (sqlLexer.ending .blank (before ++ value ++ after)).isDeep = false ∧
        sqlTokens (before ++ value ++ after) = sqlTokens (before ++ sample ++ after) :=
  and_congr_left' (extendToken_isBreak (isBreak_of_isMark hmark) _)

/-- A value between apostrophes fits if its apostrophes stand in pairs. -/
theorem fits_quoted_iff (hmark : isMark mark = true)
    (hends : sqlLexer.ending .blank before = .quoted .apostrophe)
    (hbefore : ∀ rest, sqlTokens (before ++ rest) = sqlLexer.tokens (.quoted .apostrophe) rest) :
    (TextPart.place before value ['\''] mark standIn).Fits sqlLexer ↔ Paired false value := by
  rw [fits_iff hmark, List.append_assoc, List.append_assoc, hbefore, hbefore,
    Lexer.ending_append, hends]
  exact reads_quoted_iff false value

/-- A value between `x'` and `'` fits if it is made of hexadecimal digits. -/
theorem fits_blob_iff (hmark : isMark mark = true) :
    (TextPart.place ['x', '\''] value ['\''] mark standIn).Fits sqlLexer ↔ IsBlob .even value := by
  rw [fits_iff hmark, List.append_assoc, List.append_assoc]
  exact reads_blob_iff (by decide) value

/-- A value that stands bare, with a blank behind it or nothing, fits if it is a literal. -/
theorem fits_bare_iff (hmark : isMark mark = true)
    (hbefore : sqlLexer.ending .blank before = .blank)
    (hafter : after = [] ∨ ∃ rest, after = ' ' :: rest) (hinert : ∀ c ∈ after, isInert c = true)
    (hopen : (sqlLexer.ending .blank after).isDeep = false) :
    (TextPart.place before value after mark standIn).Fits sqlLexer ↔ IsLiteral value := by
  have hsealed : sqlLexer.Sealed (sqlLexer.ending sqlLexer.blank before) := by
    intro c
    show sqlLexer.extend (sqlLexer.ending .blank before) c = none
    rw [hbefore]
    rfl
  have hread : ∀ value : Text, sqlTokens (before ++ value ++ after) = sqlTokens before ++
      sqlTokens (value ++ after) := by
    intro value
    rw [List.append_assoc]
    exact Lexer.tokens_append_of_sealed hsealed _
  rw [fits_iff hmark, hread, hread, List.append_cancel_left_eq, List.append_assoc,
    Lexer.ending_append, hbefore, Lexer.ending_append, IsLiteral]
  cases hdeep : (sqlLexer.ending .blank value).isDeep with
  | true =>
    refine iff_of_false (fun h ↦ ?_) (fun h ↦ Bool.false_ne_true h.1.symm)
    exact Bool.false_ne_true (h.1.symm.trans (isDeep_ending hdeep hinert))
  | false =>
    rcases hafter with rfl | ⟨rest, rfl⟩
    · rw [List.append_nil, List.append_nil]
      exact and_congr_left' (iff_of_true hdeep rfl)
    · have hsplit : ∀ value : Text, (sqlLexer.ending .blank value).isDeep = false →
          sqlTokens (value ++ ' ' :: rest) = sqlTokens value ++ sqlTokens rest := by
        intro value hdeep
        exact Lexer.tokens_append_cons ((extendToken_isBreak (by decide) _).mpr hdeep)
      have hends : sqlLexer.ending (sqlLexer.ending .blank value) (' ' :: rest) =
          sqlLexer.ending .blank rest :=
        Lexer.ending_cons_of_none ((extendToken_isBreak (by decide) _).mpr hdeep)
      rw [hsplit value hdeep, hsplit standIn (by decide), List.append_cancel_right_eq, hends]
      exact and_congr_left' (iff_of_true hopen rfl)

end Places

/-! ### The parts of the query of a client -/

def boundParts (comparison : Text) (column : Column) (isMac : Bool) (critval : Text) :
    List (TextPart Char) :=
  if isMac then
    [.fixed ("(HEX(".toList ++ column.name ++ ") ".toList ++ comparison ++ " HEX(".toList),
      .place ['x', '\''] critval ['\''] ')' standIn,
        .fixed (" OR ".toList ++ column.name ++ " IS NULL) ".toList)]
  else
    [.fixed "(".toList, .place (column.name ++ " ".toList ++ comparison ++ " ".toList) critval
      (" OR ".toList ++ column.name ++ " IS NULL".toList) ')' standIn, .fixed " ".toList]

def listParts (column : Column) (critval : Text) : List (TextPart Char) :=
  [.fixed ("(".toList ++ column.name ++ " IS NULL OR is_in_list('".toList ++ column.name ++
    "',".toList),
    .place " '".toList critval ['\''] ',' standIn,
      .fixed (" ".toList ++ column.name ++ ", 'None') == 1) ".toList)]

/-- The parts of a clause, without the `AND ` behind it. -/
def clauseParts (criteria : Criterion → Option Text) (column : Column) : List (TextPart Char) :=
  match criteria column.criterion with
  | none => [.fixed ("(".toList ++ column.name ++ " IS NULL) ".toList)]
  | some value =>
    match column with
    | .min c => boundParts "<=".toList column (c = .mac) (sanitizeSQL value)
    | .max c => boundParts ">=".toList column (c = .mac) (sanitizeSQL value)
    | .list _ => listParts column (sanitizeSQL value)

def andText : Text :=
  "AND ".toList

/-- The criteria with the stand-in for every value. -/
def standIns (criteria : Criterion → Option Text) : Criterion → Option Text :=
  fun c ↦ (criteria c).map fun _ ↦ standIn

variable {criteria : Criterion → Option Text} {column : Column}

theorem textOf_boundParts (comparison : Text) (column : Column) (isMac : Bool) (critval : Text) :
    TextPart.textOf (boundParts comparison column isMac critval) ++ andText =
      boundClause comparison column isMac critval := by
  cases isMac <;>
    simp only [boundParts, boundClause, TextPart.textOf, TextPart.text, andText, List.flatMap_cons,
      List.flatMap_nil,
      List.append_assoc, List.append_nil, Bool.false_eq_true, if_true, if_false] <;>
    rfl

theorem textOf_listParts (column : Column) (critval : Text) :
    TextPart.textOf (listParts column critval) ++ andText = listClause column critval := by
  unfold listClause
  simp only [listParts, TextPart.textOf, TextPart.text, andText, List.flatMap_cons,
    List.flatMap_nil, List.append_assoc, List.append_nil]
  rfl

theorem textOf_clauseParts (criteria : Criterion → Option Text) (column : Column) :
    TextPart.textOf (clauseParts criteria column) ++ andText = clause criteria column := by
  unfold clauseParts clause
  cases criteria column.criterion with
  | none => simp [nullClause, TextPart.textOf, TextPart.text, andText]
  | some value =>
    cases column with
    | min c => exact textOf_boundParts _ _ _ _
    | max c => exact textOf_boundParts _ _ _ _
    | list c => exact textOf_listParts _ _

theorem map_sampled_boundParts (comparison : Text) (column : Column) (isMac : Bool)
    (critval : Text) :
    (boundParts comparison column isMac critval).map TextPart.sampled =
    boundParts comparison column isMac standIn := by
  cases isMac <;> rfl

theorem map_sampled_clauseParts (criteria : Criterion → Option Text) (column : Column) :
    (clauseParts criteria column).map TextPart.sampled =
    clauseParts (standIns criteria) column := by
  unfold clauseParts standIns
  cases criteria column.criterion with
  | none => rfl
  | some value =>
    cases column with
    | min c => exact map_sampled_boundParts _ _ _ _
    | max c => exact map_sampled_boundParts _ _ _ _
    | list c => rfl

/-- A text that ends with a blank or a mark, and where every mark is read. -/
def isTidy (text : Text) : Bool :=
  (match sqlLexer.ending .blank text with
    | .blank | .mark _ => true
    | _ => false) && (sqlTokens text).countP SqlToken.isMark == text.countP isMark

theorem tidy_of_isTidy {text : Text} (h : isTidy text = true) : sqlMarks.Tidy text := by
  obtain ⟨hends, hcount⟩ := (Bool.and_eq_true _ _).mp h
  refine ⟨fun c ↦ ?_, beq_iff_eq.mp hcount⟩
  show sqlLexer.extend (sqlLexer.ending .blank text) c = none
  cases hending : sqlLexer.ending .blank text with
  | blank | mark => rfl
  | name | operator | number | quoted | closed | blob | ended | lineComment | blockComment | blockStar =>
    rw [hending] at hends
    cases hends

theorem sqlTokens_append {text : Text} (h : sqlMarks.Tidy text) (rest : Text) :
    sqlTokens (text ++ rest) = sqlTokens text ++ sqlTokens rest :=
  Lexer.tokens_append_of_sealed h.ends rest

theorem countP_sanitizeSQL (text : Text) : (sanitizeSQL text).countP isMark = 0 := by
  refine List.countP_eq_zero.mpr fun c hc ↦ ?_
  have hkept := (List.mem_filter.mp hc).2
  intro hmark
  rcases eq_of_isBreak (isBreak_of_isMark hmark) with rfl | rfl | rfl | rfl | rfl
  · exact absurd hmark (by decide)
  all_goals exact absurd hkept (by decide)

theorem sound_place {before after value : Text} {mark : Char} (hmark : isMark mark = true)
    (hbefore : before.countP isMark = 0) (hafter : after.countP isMark = 0)
    (hopen : (sqlLexer.ending .blank (before ++ standIn ++ after)).isDeep = false) :
    (TextPart.place before (sanitizeSQL value) after mark standIn).Sound sqlMarks := by
  have hcount : ∀ value : Text, value.countP isMark = 0 →
      (before ++ value ++ after).countP isMark = 0 := by
    intro value hvalue
    rw [List.countP_append, List.countP_append, hbefore, hvalue, hafter]
  exact .place hmark (hcount _ (countP_sanitizeSQL value)) (hcount _ (by decide))
    ((extendToken_isBreak (isBreak_of_isMark hmark) _).mpr hopen)

/-- A text that is read as one name. -/
def IsName (text : Text) : Prop :=
  ∃ c rest, text = c :: rest ∧ startToken c = .name [c] ∧ (∀ d ∈ rest, isNameChar d = true) ∧
    text.countP isMark = 0

theorem isInert_name (column : Column) : ∀ c ∈ column.name, isInert c = true := by
  refine List.all_eq_true.mp ?_
  cases column with | min c | max c | list c => cases c <;> decide

theorem isName_name (column : Column) : IsName column.name := by
  cases column with | min c | max c | list c => cases c <;>
    exact ⟨_, _, rfl, rfl, List.all_eq_true.mp (by decide), by decide⟩

theorem reads_name {first rest : Text} (h : ∀ d ∈ rest, isNameChar d = true) :
    sqlLexer.ending (.name first) rest = .name (first ++ rest) ∧
      sqlLexer.tokens (.name first) rest = [.name (first ++ rest)] := by
  induction rest generalizing first with
  | nil => rw [List.append_nil]; exact ⟨rfl, rfl⟩
  | cons d rest ih =>
    obtain ⟨hd, hrest⟩ := List.forall_mem_cons.mp h
    have hextend : sqlLexer.extend (.name first) d = some (.name (first ++ [d])) := if_pos hd
    have hsplit : first ++ d :: rest = first ++ [d] ++ rest := List.append_cons first d rest
    rw [Lexer.ending_cons_of_some hextend, Lexer.tokens_cons_of_some hextend, hsplit]
    exact ih hrest

section Names

variable {text : Text}

theorem countP_isName (h : IsName text) : text.countP isMark = 0 := by
  obtain ⟨c, rest, -, -, -, hcount⟩ := h
  exact hcount

theorem reads_isName (h : IsName text) :
    sqlLexer.ending .blank text = .name text ∧ sqlTokens text = [.name text] := by
  obtain ⟨c, rest, rfl, hstart, hrest, -⟩ := h
  have hends : sqlLexer.ending .blank (c :: rest) = sqlLexer.ending (startToken c) rest :=
    Lexer.ending_cons_of_none rfl
  have htokens : sqlTokens (c :: rest) = sqlLexer.tokens (startToken c) rest :=
    Lexer.tokens_cons_of_none rfl
  rw [hends, htokens, hstart]
  exact reads_name hrest

/-- A mark or a blank ends a name. -/
theorem ending_isName (h : IsName text) {c : Char} (hc : isBreak c = true) (rest : Text) :
    sqlLexer.ending .blank (text ++ c :: rest) = sqlLexer.ending (startToken c) rest := by
  rw [Lexer.ending_append, (reads_isName h).1]
  exact Lexer.ending_cons_of_none ((extendToken_isBreak hc (.name text)).mpr rfl)

theorem tidy_isName (h : IsName text) {c : Char} (hc : isBreak c = true) :
    sqlMarks.Tidy (text ++ [c]) := by
  have hopen : sqlLexer.extend (sqlLexer.ending .blank text) c = none := by
    rw [(reads_isName h).1]
    exact (extendToken_isBreak hc (.name text)).mpr rfl
  have htokens : sqlTokens (text ++ [c]) = sqlTokens text ++ sqlLexer.tokens (startToken c) [] :=
    Lexer.tokens_append_cons hopen
  constructor
  · intro d
    show sqlLexer.extend (sqlLexer.ending .blank (text ++ [c])) d = none
    rw [ending_isName h hc]
    rcases eq_of_isBreak hc with rfl | rfl | rfl | rfl | rfl <;> rfl
  · show (sqlTokens (text ++ [c])).countP SqlToken.isMark = (text ++ [c]).countP isMark
    rw [htokens, (reads_isName h).2, List.countP_append, List.countP_append, countP_isName h]
    rcases eq_of_isBreak hc with rfl | rfl | rfl | rfl | rfl <;> rfl

end Names

variable {comparison : Text}

theorem tidy_comparison (h : comparison = "<=".toList ∨ comparison = ">=".toList) :
    sqlMarks.Tidy (" ".toList ++ comparison ++ " ".toList) ∧
      sqlLexer.ending .blank (" ".toList ++ comparison ++ " ".toList) = .blank ∧
      comparison.countP isMark = 0 := by
  rcases h with rfl | rfl <;> exact ⟨tidy_of_isTidy (by decide), by decide, by decide⟩

theorem tidy_nullText (column : Column) :
    sqlMarks.Tidy ("(".toList ++ column.name ++ " IS NULL) ".toList) := by
  have htext : "(".toList ++ column.name ++ " IS NULL) ".toList =
      "(".toList ++ (column.name ++ [' '] ++ "IS NULL) ".toList) := by
    rw [List.append_assoc, List.append_assoc]
    rfl
  rw [htext]
  exact (tidy_of_isTidy (by decide)).append
    ((tidy_isName (isName_name column) (by decide)).append (tidy_of_isTidy (by decide)))

theorem ending_beforeBound (h : comparison = "<=".toList ∨ comparison = ">=".toList)
    (column : Column) :
    sqlLexer.ending .blank (column.name ++ " ".toList ++ comparison ++ " ".toList) = .blank := by
  rw [List.append_assoc, List.append_assoc]
  exact (ending_isName (isName_name column) (by decide) (comparison ++ " ".toList)).trans
    (tidy_comparison h).2.1

theorem ending_behindBound (value : Text)
    (hvalue : sqlLexer.ending .blank (value ++ " OR ".toList) = .blank) (column : Column) :
    (sqlLexer.ending .blank (value ++ (" OR ".toList ++ column.name ++ " IS NULL".toList))).isDeep =
    false := by
  have hread : sqlLexer.ending .blank (column.name ++ ' ' :: "IS NULL".toList) = _ :=
    ending_isName (isName_name column) (by decide) "IS NULL".toList
  rw [List.append_assoc, ← List.append_assoc value, Lexer.ending_append, hvalue]
  exact (congrArg SqlState.isDeep hread).trans (by decide)

theorem sound_boundParts (hcomparison : comparison = "<=".toList ∨ comparison = ">=".toList)
    (column : Column) (isMac : Bool) (value : Text) :
    ∀ part ∈ boundParts comparison column isMac (sanitizeSQL value), part.Sound sqlMarks := by
  have hname := isName_name column
  obtain ⟨htidy, hends, hcount⟩ := tidy_comparison hcomparison
  cases isMac with
  | true =>
    simp only [boundParts, if_true, List.forall_mem_cons]
    refine ⟨.fixed ?_, sound_place (by decide) (by decide) (by decide) (by decide), .fixed ?_,
      fun part h ↦ absurd h List.not_mem_nil⟩
    · have htext : "(HEX(".toList ++ column.name ++ ") ".toList ++ comparison ++ " HEX(".toList =
          "(HEX(".toList ++ (column.name ++ [')'] ++
              (" ".toList ++ comparison ++ " ".toList ++ "HEX(".toList)) := by
        simp only [List.append_assoc]
        rfl
      rw [htext]
      exact (tidy_of_isTidy (by decide)).append
        ((tidy_isName hname (by decide)).append (htidy.append (tidy_of_isTidy (by decide))))
    · have htext : " OR ".toList ++ column.name ++ " IS NULL) ".toList =
          " OR ".toList ++ (column.name ++ [' '] ++ "IS NULL) ".toList) := by
        simp only [List.append_assoc]
        rfl
      rw [htext]
      exact (tidy_of_isTidy (by decide)).append
        ((tidy_isName hname (by decide)).append (tidy_of_isTidy (by decide)))
  | false =>
    simp only [boundParts, Bool.false_eq_true, if_false, List.forall_mem_cons]
    refine ⟨.fixed (tidy_of_isTidy (by decide)), sound_place (by decide) ?_ ?_ ?_,
      .fixed (tidy_of_isTidy (by decide)), fun part h ↦ absurd h List.not_mem_nil⟩
    · rw [List.countP_append, List.countP_append, List.countP_append, countP_isName hname, hcount]
      rfl
    · rw [List.countP_append, List.countP_append, countP_isName hname]
      decide
    · rw [List.append_assoc, Lexer.ending_append, ending_beforeBound hcomparison column]
      exact ending_behindBound standIn (by decide) column

theorem sound_listParts (c : ListCriterion) (value : Text) :
    ∀ part ∈ listParts (.list c) (sanitizeSQL value), part.Sound sqlMarks := by
  have hname := isName_name (.list c)
  simp only [listParts, List.forall_mem_cons]
  refine ⟨.fixed ?_, sound_place (by decide) (by decide) (by decide) (by decide), .fixed ?_,
    fun part h ↦ absurd h List.not_mem_nil⟩
  · have htext : "(".toList ++ (Column.list c).name ++ " IS NULL OR is_in_list('".toList ++
        (Column.list c).name ++
        "',".toList = "(".toList ++ ((Column.list c).name ++ [' '] ++
          ("IS NULL OR is_in_list(".toList ++
          ("'".toList ++ (Column.list c).name ++ "',".toList))) := by
      simp only [List.append_assoc]
      rfl
    rw [htext]
    refine (tidy_of_isTidy (by decide)).append ((tidy_isName hname (by decide)).append
      ((tidy_of_isTidy (by decide)).append (tidy_of_isTidy ?_)))
    cases c <;> decide
  · have htext : " ".toList ++ (Column.list c).name ++ ", 'None') == 1) ".toList =
        " ".toList ++ ((Column.list c).name ++ [','] ++ " 'None') == 1) ".toList) := by
      simp only [List.append_assoc]
      rfl
    rw [htext]
    exact (tidy_of_isTidy (by decide)).append
      ((tidy_isName hname (by decide)).append (tidy_of_isTidy (by decide)))

theorem sound_clauseParts (criteria : Criterion → Option Text) (column : Column) :
    ∀ part ∈ clauseParts criteria column, part.Sound sqlMarks := by
  unfold clauseParts
  cases criteria column.criterion with
  | none =>
    intro part hpart
    obtain rfl := List.mem_singleton.mp hpart
    exact .fixed (tidy_nullText column)
  | some value =>
    cases column with
    | min c => exact sound_boundParts (Or.inl rfl) _ _ _
    | max c => exact sound_boundParts (Or.inr rfl) _ _ _
    | list c => exact sound_listParts c value

theorem forall_fits_iff {first last : Text} {place : TextPart Char} :
    (∀ part ∈ [.fixed first, place, .fixed last], part.Fits sqlLexer) ↔ place.Fits sqlLexer := by
  simp only [List.forall_mem_cons]
  exact ⟨fun h ↦ h.2.1, fun h ↦ ⟨trivial, h, trivial, fun part h ↦ absurd h List.not_mem_nil⟩⟩

theorem fits_boundParts (hcomparison : comparison = "<=".toList ∨ comparison = ">=".toList)
    (column : Column) (isMac : Bool) (critval : Text) :
    (∀ part ∈ boundParts comparison column isMac critval, part.Fits sqlLexer) ↔
      if isMac then IsBlob .even critval else IsLiteral critval := by
  cases isMac with
  | true => exact forall_fits_iff.trans (fits_blob_iff (by decide))
  | false =>
    refine forall_fits_iff.trans (fits_bare_iff (by decide) (ending_beforeBound hcomparison column)
      (Or.inr ⟨_, rfl⟩)
      ?_ (ending_behindBound [] (by decide) column))
    exact List.forall_mem_append.mpr
      ⟨List.forall_mem_append.mpr ⟨List.all_eq_true.mp (by decide), isInert_name column⟩,
        List.all_eq_true.mp (by decide)⟩

theorem fits_clauseParts (criteria : Criterion → Option Text) (column : Column) :
    (∀ part ∈ clauseParts criteria column, part.Fits sqlLexer) ↔
      ∀ value, criteria column.criterion = some value →
      Plain column.criterion (sanitizeSQL value) := by
  unfold clauseParts
  cases criteria column.criterion with
  | none =>
    refine iff_of_true (fun part hpart ↦ ?_) fun value h ↦ absurd h.symm (Option.some_ne_none value)
    obtain rfl := List.mem_singleton.mp hpart
    trivial
  | some value =>
    have hplain : Plain column.criterion (sanitizeSQL value) ↔ ∀ value', some value = some value' →
        Plain column.criterion (sanitizeSQL value') :=
      ⟨fun h value' heq ↦ Option.some.inj heq ▸ h, fun h ↦ h value rfl⟩
    rw [← hplain]
    cases column with
    | min c => exact (fits_boundParts (Or.inl rfl) _ _ _).trans (by cases c <;> rfl)
    | max c => exact (fits_boundParts (Or.inr rfl) _ _ _).trans (by cases c <;> rfl)
    | list c => exact forall_fits_iff.trans (fits_quoted_iff (by decide) (by decide) fun _ ↦ rfl)

/-! ### The whole query of a client -/

/-- The values of the criteria that are in the table are literals. -/
def PlainCriteria (criteria : Criterion → Option Text) (columns : List Column) : Prop :=
  ∀ column ∈ columns, ∀ value, criteria column.criterion = some value →
    Plain column.criterion (sanitizeSQL value)

def andPart : TextPart Char :=
  .fixed andText

/-- The parts of all clauses. -/
def queryParts (criteria : Criterion → Option Text) (columns : List Column) :
    List (TextPart Char) :=
  columns.flatMap fun column ↦ clauseParts criteria column ++ [andPart]

theorem textOf_append (parts others : List (TextPart Char)) :
    TextPart.textOf (parts ++ others) = TextPart.textOf parts ++ TextPart.textOf others :=
  List.flatMap_append

theorem textOf_queryParts (criteria : Criterion → Option Text) (columns : List Column) :
    TextPart.textOf (queryParts criteria columns) = columns.flatMap (clause criteria) := by
  induction columns with
  | nil => rfl
  | cons column columns ih =>
    have hcons : queryParts criteria (column :: columns) =
        (clauseParts criteria column ++ [andPart]) ++ queryParts criteria columns :=
          List.flatMap_cons
    rw [hcons, textOf_append, textOf_append, ih, List.flatMap_cons, ← textOf_clauseParts]
    rfl

theorem sound_queryParts (criteria : Criterion → Option Text) (columns : List Column) :
    ∀ part ∈ queryParts criteria columns, part.Sound sqlMarks := by
  intro part hpart
  obtain ⟨column, -, hpart⟩ := List.mem_flatMap.mp hpart
  rcases List.mem_append.mp hpart with hpart | hpart
  · exact sound_clauseParts criteria column part hpart
  · obtain rfl := List.mem_singleton.mp hpart
    exact .fixed (tidy_of_isTidy (by decide))

theorem map_sampled_queryParts (criteria : Criterion → Option Text) (columns : List Column) :
    (queryParts criteria columns).map TextPart.sampled =
    queryParts (standIns criteria) columns := by
  rw [queryParts, List.map_flatMap, queryParts]
  refine List.flatMap_congr fun column _ ↦ ?_
  rw [List.map_append, map_sampled_clauseParts]
  rfl

theorem fits_queryParts (criteria : Criterion → Option Text) (columns : List Column) :
    (∀ part ∈ queryParts criteria columns, part.Fits sqlLexer) ↔
    PlainCriteria criteria columns := by
  constructor
  · intro h column hcolumn
    refine (fits_clauseParts criteria column).mp fun part hpart ↦ ?_
    exact h part (List.mem_flatMap.mpr ⟨column, hcolumn, List.mem_append_left _ hpart⟩)
  · intro h part hpart
    obtain ⟨column, hcolumn, hpart⟩ := List.mem_flatMap.mp hpart
    rcases List.mem_append.mp hpart with hpart | hpart
    · exact (fits_clauseParts criteria column).mpr (h column hcolumn) part hpart
    · obtain rfl := List.mem_singleton.mp hpart
      trivial

theorem rdrop_append_of_le {text rest : Text} {n : ℕ} (h : n ≤ rest.length) :
    (text ++ rest).rdrop n = text ++ rest.rdrop n := by
  rw [List.rdrop, List.rdrop, List.length_append, List.take_append,
    List.take_of_length_le (by omega)]
  congr 2
  omega

theorem rdrop_andText (text : Text) : (text ++ andText).rdrop 4 = text := by
  rw [rdrop_append_of_le (by decide), show andText.rdrop 4 = [] from by decide, List.append_nil]

theorem nullClause_eq (column : Column) :
    nullClause column = ("(".toList ++ column.name ++ " IS NULL) ".toList) ++ andText := by
  simp only [nullClause, andText, List.append_assoc]
  rfl

theorem tidy_flatMap_nullClause (columns : List Column) :
    sqlMarks.Tidy (columns.flatMap nullClause) := by
  induction columns with
  | nil => exact Marks.tidy_nil
  | cons column columns ih =>
    rw [List.flatMap_cons, nullClause_eq]
    exact ((tidy_nullText column).append (tidy_of_isTidy (by decide))).append ih

/-- What stands behind the clauses where the manifests without criteria are left out. -/
def filterText (allCriteria : List Column) : Text :=
  ("(NOT (".toList ++ allCriteria.flatMap nullClause).rdrop 4 ++ (")) ".toList ++ orderText)

theorem countP_filterText (allCriteria : List Column) :
    (sqlTokens (filterText allCriteria)).countP SqlToken.isMark =
    (filterText allCriteria).countP isMark := by
  have hlast : (sqlTokens (")) ".toList ++ orderText)).countP SqlToken.isMark =
      (")) ".toList ++ orderText).countP isMark := by
    decide
  rcases List.eq_nil_or_concat allCriteria with rfl | ⟨init, last, rfl⟩
  · decide
  · have htext : ("(NOT (".toList ++ (init ++ [last]).flatMap nullClause).rdrop 4 =
        "(NOT (".toList ++ (init.flatMap nullClause ++
            ("(".toList ++ last.name ++ " IS NULL) ".toList)) := by
      rw [List.flatMap_append, List.flatMap_singleton, nullClause_eq, ← List.append_assoc,
        ← List.append_assoc, rdrop_andText, List.append_assoc]
    have htidy : sqlMarks.Tidy ("(NOT (".toList ++
        (init.flatMap nullClause ++ ("(".toList ++ last.name ++ " IS NULL) ".toList))) :=
      (tidy_of_isTidy (by decide)).append
        ((tidy_flatMap_nullClause init).append (tidy_nullText last))
    rw [List.concat_eq_append, filterText, htext, List.countP_append, ← hlast]
    exact htidy.countP_tokens_append _

theorem tidy_selectText : sqlMarks.Tidy selectText :=
  (((((tidy_of_isTidy (by decide)).append (tidy_of_isTidy (by decide))).append
    (tidy_of_isTidy (by decide))).append (tidy_of_isTidy (by decide))).append
      (tidy_of_isTidy (by decide))).append (tidy_of_isTidy (by decide))

/-- The tokens of a query that is made of parts are those of its form exactly if the values fit. -/
theorem sqlTokens_selectText_iff {parts : List (TextPart Char)} {tail : Text}
    (h : ∀ part ∈ parts, part.Sound sqlMarks)
    (htail : (sqlTokens tail).countP SqlToken.isMark = tail.countP isMark) :
    sqlTokens (selectText ++ (TextPart.textOf parts ++ tail)) =
        sqlTokens (selectText ++ (TextPart.textOf (parts.map TextPart.sampled) ++ tail)) ↔
      ∀ part ∈ parts, part.Fits sqlLexer := by
  rw [sqlTokens_append tidy_selectText, sqlTokens_append tidy_selectText,
    List.append_cancel_left_eq]
  exact TextPart.tokens_eq_sampled_iff h htail

/-- The query of a client has the tokens of its form exactly if the values of the criteria are
literals. -/
theorem buildQueryStr_iff (criteria : Criterion → Option Text) (columns : List Column)
    (allCriteria : Option (List Column)) :
    sqlTokens (buildQueryStr criteria columns allCriteria) =
        sqlTokens (buildQueryStr (standIns criteria) columns allCriteria) ↔
        PlainCriteria criteria columns := by
  cases allCriteria with
  | some allCriteria =>
    have htext : ∀ criteria : Criterion → Option Text,
        buildQueryStr criteria columns (some allCriteria) =
        selectText ++ (TextPart.textOf (queryParts criteria columns) ++
            filterText allCriteria) := by
      intro criteria
      rw [textOf_queryParts, filterText]
      show (selectText ++ columns.flatMap (clause criteria) ++ "(NOT (".toList ++
        allCriteria.flatMap nullClause).rdrop 4 ++ ")) ".toList ++ orderText = _
      rw [List.append_assoc _ "(NOT (".toList, rdrop_append_of_le]
      · simp only [List.append_assoc]
      · rw [List.length_append]
        exact Nat.le_add_right_of_le (by decide)
    rw [htext, htext, ← map_sampled_queryParts, ← fits_queryParts]
    exact sqlTokens_selectText_iff (sound_queryParts criteria columns)
      (countP_filterText allCriteria)
  | none =>
    rcases List.eq_nil_or_concat columns with rfl | ⟨init, last, rfl⟩
    · exact iff_of_true rfl fun column h ↦ absurd h List.not_mem_nil
    · have htext : ∀ criteria : Criterion → Option Text,
          buildQueryStr criteria (init ++ [last]) none =
          selectText ++ (TextPart.textOf (queryParts criteria init ++ clauseParts criteria last) ++
              orderText) := by
        intro criteria
        rw [textOf_append, textOf_queryParts]
        show (selectText ++ (init ++ [last]).flatMap (clause criteria)).rdrop 4 ++ orderText = _
        rw [List.flatMap_append, List.flatMap_singleton, ← textOf_clauseParts criteria last,
          ← List.append_assoc, ← List.append_assoc, rdrop_andText]
        simp only [List.append_assoc]
      have hfits : (∀ part ∈ queryParts criteria init ++ clauseParts criteria last,
          part.Fits sqlLexer) ↔
          PlainCriteria criteria (init ++ [last]) := by
        rw [List.forall_mem_append, fits_queryParts, fits_clauseParts, PlainCriteria, PlainCriteria,
          List.forall_mem_append, List.forall_mem_singleton]
      have hsound : ∀ part ∈ queryParts criteria init ++ clauseParts criteria last,
          part.Sound sqlMarks :=
        List.forall_mem_append.mpr ⟨sound_queryParts criteria init, sound_clauseParts criteria last⟩
      rw [List.concat_eq_append, htext, htext, ← map_sampled_queryParts, ← map_sampled_clauseParts,
        ← List.map_append, ← hfits]
      exact sqlTokens_selectText_iff hsound (by decide)

end QueryText

end Userland.AutoInstall
