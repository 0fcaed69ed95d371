import Userland.AutoInstall.QueryText
import Userland.Pkg.Numeral

/-!
# The structure of queries

`insert_SQL` puts the values that an administrator gives into the text of a query, as
`build_query_str` does with those of a client. `sameStructure_iff` says for which values the queries
have the tokens of their forms, where every value is one literal.

Scope: texts are byte strings, and the columns are those of the table. A bound `unbounded` is one
that is not given.
-/

set_option autoImplicit false
set_option relaxedAutoImplicit false

namespace Userland.AutoInstall.QueryText

open Userland.Library

/-! ### The row of a manifest -/

/-- The criteria of a manifest: the bounds of ranges, and the values of lists. -/
structure FileCriteria where
  ranges : RangeCriterion → Option (List Text)
  lists : ListCriterion → Option (List Text)

/-- `str(value).upper()` -/
def upper (value : Text) : Text :=
  value.map Char.toUpper

/-- A bound with the comma behind it. -/
def boundValue (c : RangeCriterion) (value : Text) : Text :=
  if value = unbounded then "NULL,".toList
  else if c = .mac then "x'".toList ++ sanitizeSQL (upper value) ++ "',".toList
  else sanitizeSQL (upper value) ++ ",".toList

/-- The cells for a column: both bounds of a range stand at `MAX`. -/
def columnValues (criteria : FileCriteria) : Column → Text
  | .min _ => []
  | .max c =>
    match criteria.ranges c with
    | none => "NULL,NULL,".toList
    | some values => values.flatMap (boundValue c)
  | .list c =>
    match criteria.lists c with
    | none => "NULL,".toList
    | some values => "'".toList ++ sanitizeSQL (join values) ++ "',".toList

def insertText : Text :=
  "INSERT INTO manifests VALUES(".toList

/-- The query that `insert_SQL(files)` makes, for a manifest with `inst` others of its name. -/
def insertSQL (manifestName : Text) (inst : ℕ) (criteria : FileCriteria) (columns : List Column) :
    Text :=
  (insertText ++ "'".toList ++ sanitizeSQL manifestName ++ "',".toList ++
    Nat.toDigits 10 inst ++ ",".toList ++ columns.flatMap
      (columnValues criteria)).dropLast ++ ")".toList

/-! ### The row of a manifest, cell by cell -/

/-- A cell of a row: a value with what stands around it, and the literal that stands for the value.
-/
structure Cell where
  before : Text
  value : Text
  after : Text
  sample : Text

def Cell.part (cell : Cell) (mark : Char) : TextPart Char :=
  .place cell.before cell.value cell.after mark cell.sample

def Cell.text (cell : Cell) : Text :=
  cell.before ++ cell.value ++ cell.after

/-- A cell without a value. -/
def Cell.constant (text : Text) : Cell :=
  ⟨text, [], [], []⟩

/-- The cells of a row with the commas between them, and the parenthesis behind the last one. -/
def rowParts : List Cell → List (TextPart Char)
  | [] => []
  | [cell] => [cell.part ')']
  | cell :: next :: rest => cell.part ',' :: rowParts (next :: rest)

def boundCell (c : RangeCriterion) (value : Text) : Cell :=
  if value = unbounded then .constant "NULL".toList
  else if c = .mac then ⟨['x', '\''], sanitizeSQL (upper value), ['\''], standIn⟩
  else ⟨[], sanitizeSQL (upper value), [], standIn⟩

def quotedCell (value : Text) : Cell :=
  ⟨['\''], sanitizeSQL value, ['\''], standIn⟩

def cellsOf (criteria : FileCriteria) : Column → List Cell
  | .min _ => []
  | .max c =>
    match criteria.ranges c with
    | none => [.constant "NULL".toList, .constant "NULL".toList]
    | some values => values.map (boundCell c)
  | .list c =>
    match criteria.lists c with
    | none => [.constant "NULL".toList]
    | some values => [quotedCell (join values)]

/-- The cells of the row of a manifest. -/
def rowCells (manifestName : Text) (inst : ℕ) (criteria : FileCriteria) (columns : List Column) :
    List Cell :=
  quotedCell manifestName :: ⟨[], Nat.toDigits 10 inst, [], standIn⟩ ::
    columns.flatMap (cellsOf criteria)

/-- The cells of a row where the stand-in is in the place of every value. -/
def formCells (criteria : FileCriteria) (columns : List Column) : List Cell :=
  quotedCell standIn :: ⟨[], standIn, [], standIn⟩ :: columns.flatMap (cellsOf criteria)

theorem Cell.text_part (cell : Cell) (mark : Char) : (cell.part mark).text = cell.text ++ [mark] :=
  rfl

theorem textOf_rowParts {cells : List Cell} (hne : cells ≠ []) :
    TextPart.textOf (rowParts cells) = (cells.flatMap fun cell ↦
      cell.text ++ [',']).dropLast ++ [')'] := by
  induction cells with
  | nil => exact absurd rfl hne
  | cons cell rest ih =>
    cases rest with
    | nil =>
      rw [rowParts, TextPart.textOf_cons, Cell.text_part, List.flatMap_singleton,
        List.dropLast_concat]
      exact List.append_nil _
    | cons next rest =>
      have hlast : ((next :: rest).flatMap fun cell : Cell ↦ cell.text ++ [',']) ≠ [] := by
        rw [List.flatMap_cons]
        exact List.append_ne_nil_of_left_ne_nil
          (List.append_ne_nil_of_right_ne_nil _ (List.cons_ne_nil _ _)) _
      have hsplit : ((cell :: next :: rest).flatMap fun cell : Cell ↦ cell.text ++ [',']) =
          (cell.text ++ [',']) ++ (next :: rest).flatMap fun cell : Cell ↦ cell.text ++ [','] :=
            List.flatMap_cons
      rw [rowParts, TextPart.textOf_cons, Cell.text_part, ih (List.cons_ne_nil next rest), hsplit,
        List.dropLast_append_of_ne_nil hlast, List.append_assoc (cell.text ++ [','])]

theorem flatMap_cellsOf (criteria : FileCriteria) (column : Column) :
    ((cellsOf criteria column).flatMap fun cell ↦ cell.text ++ [',']) =
    columnValues criteria column := by
  cases column with
  | min c => rfl
  | max c =>
    simp only [cellsOf, columnValues]
    cases criteria.ranges c with
    | none => rfl
    | some values =>
      show (values.map (boundCell c)).flatMap _ = _
      rw [List.flatMap_map]
      refine List.flatMap_congr fun value _ ↦ ?_
      unfold boundCell boundValue
      split_ifs
      · rfl
      · simp [Cell.text]
      · simp [Cell.text]
  | list c =>
    simp only [cellsOf, columnValues]
    cases criteria.lists c with
    | none => rfl
    | some values => simp [quotedCell, Cell.text]

theorem insertSQL_eq (manifestName : Text) (inst : ℕ) (criteria : FileCriteria)
    (columns : List Column) :
    insertSQL manifestName inst criteria columns = insertText ++
      TextPart.textOf (rowParts (rowCells manifestName inst criteria columns)) := by
  have hcells : ((rowCells manifestName inst criteria columns).flatMap fun cell ↦
      cell.text ++ [',']) =
      "'".toList ++ sanitizeSQL manifestName ++ "',".toList ++ Nat.toDigits 10 inst ++ ",".toList ++
        columns.flatMap (columnValues criteria) := by
    rw [rowCells, List.flatMap_cons, List.flatMap_cons, List.flatMap_assoc]
    have hcolumns : (columns.flatMap fun column ↦ (cellsOf criteria column).flatMap fun cell ↦
        cell.text ++ [',']) =
        columns.flatMap (columnValues criteria) := List.flatMap_congr fun column _ ↦
          flatMap_cellsOf criteria column
    rw [hcolumns]
    simp [quotedCell, Cell.text]
  have hne : ((rowCells manifestName inst criteria columns).flatMap fun cell : Cell ↦
      cell.text ++ [',']) ≠ [] := by
    rw [hcells]
    simp
  have hrow : rowCells manifestName inst criteria columns ≠ [] := List.cons_ne_nil _ _
  rw [textOf_rowParts hrow, ← List.append_assoc, ← List.dropLast_append_of_ne_nil hne, hcells,
    insertSQL]
  simp only [List.append_assoc]
  rfl

/-! ### Cells that are sound -/

/-- The criteria of a manifest with the stand-in for every value. -/
def FileCriteria.standIns (criteria : FileCriteria) : FileCriteria where
  ranges c := (criteria.ranges c).map (List.map fun value ↦ if value = unbounded then unbounded
    else standIn)
  lists c := (criteria.lists c).map fun _ ↦ [standIn]

/-- All values are literals. -/
structure FileCriteria.Plain (criteria : FileCriteria) (columns : List Column) : Prop where
  ranges : ∀ c, Column.max c ∈ columns → ∀ values, criteria.ranges c = some values →
    ∀ value ∈ values, value ≠ unbounded → QueryText.Plain (.range c) (sanitizeSQL (upper value))
  lists : ∀ c, Column.list c ∈ columns → ∀ values, criteria.lists c = some values →
    QueryText.Plain (.list c) (sanitizeSQL (join values))

/-- A cell that can stand before a comma or a parenthesis. -/
structure Cell.Sound (cell : Cell) : Prop where
  before : cell.before.countP isMark = 0
  value : cell.value.countP isMark = 0
  after : cell.after.countP isMark = 0
  sample : cell.sample.countP isMark = 0
  ends : (sqlLexer.ending .blank (cell.before ++ cell.sample ++ cell.after)).isDeep = false

theorem Cell.Sound.part {cell : Cell} (h : cell.Sound) {mark : Char} (hmark : isMark mark = true) :
    (cell.part mark).Sound sqlMarks := by
  have hcount : ∀ value : Text, value.countP isMark = 0 →
      (cell.before ++ value ++ cell.after).countP isMark = 0 := by
    intro value hvalue
    rw [List.countP_append, List.countP_append, h.before, hvalue, h.after]
  exact .place hmark (hcount _ h.value) (hcount _ h.sample)
    ((extendToken_isBreak (isBreak_of_isMark hmark) _).mpr h.ends)

theorem sound_rowParts {cells : List Cell} (h : ∀ cell ∈ cells, cell.Sound) :
    ∀ part ∈ rowParts cells, part.Sound sqlMarks := by
  induction cells with
  | nil => exact fun part hpart ↦ absurd hpart List.not_mem_nil
  | cons cell rest ih =>
    obtain ⟨hcell, hrest⟩ := List.forall_mem_cons.mp h
    cases rest with
    | nil =>
      intro part hpart
      obtain rfl := List.mem_singleton.mp hpart
      exact hcell.part (by decide)
    | cons next rest => exact List.forall_mem_cons.mpr ⟨hcell.part (by decide), ih hrest⟩

/-- The value of a cell has the tokens of the sample, before a comma and before a parenthesis alike.
-/
def Cell.Fits (cell : Cell) : Prop :=
  (cell.part ',').Fits sqlLexer

theorem Cell.fits_part_iff {cell : Cell} {mark : Char} (hmark : isMark mark = true) :
    (cell.part mark).Fits sqlLexer ↔ cell.Fits :=
  (fits_iff hmark).trans (fits_iff (by decide)).symm

theorem fits_rowParts {cells : List Cell} :
    (∀ part ∈ rowParts cells, part.Fits sqlLexer) ↔ ∀ cell ∈ cells, cell.Fits := by
  induction cells with
  | nil =>
    exact iff_of_true (fun part h ↦ absurd h List.not_mem_nil) fun cell h ↦
      absurd h List.not_mem_nil
  | cons cell rest ih =>
    cases rest with
    | nil => rw [rowParts, List.forall_mem_singleton, List.forall_mem_singleton,
      Cell.fits_part_iff (by decide)]
    | cons next rest => rw [rowParts, List.forall_mem_cons, List.forall_mem_cons, ih, Cell.Fits]

/-- The cell with the sample for the value. -/
def Cell.sampled (cell : Cell) : Cell :=
  { cell with value := cell.sample }

theorem map_sampled_rowParts (cells : List Cell) :
    (rowParts cells).map TextPart.sampled = rowParts (cells.map Cell.sampled) := by
  induction cells with
  | nil => rfl
  | cons cell rest ih =>
    cases rest with
    | nil => rfl
    | cons next rest =>
      rw [rowParts, List.map_cons, ih]
      rfl

theorem sound_constant {text : Text} (hmarks : text.countP isMark = 0)
    (hends : (sqlLexer.ending .blank text).isDeep = false) : (Cell.constant text).Sound where
  before := hmarks
  value := rfl
  after := rfl
  sample := rfl
  ends := by
    rw [Cell.constant, List.append_nil, List.append_nil]
    exact hends

theorem sound_quotedCell (value : Text) : (quotedCell value).Sound :=
  ⟨rfl, countP_sanitizeSQL value, rfl, rfl, rfl⟩

theorem sound_boundCell (c : RangeCriterion) (value : Text) : (boundCell c value).Sound := by
  unfold boundCell
  split_ifs
  · exact sound_constant (by decide) (by decide)
  · exact ⟨rfl, countP_sanitizeSQL _, rfl, rfl, rfl⟩
  · exact ⟨rfl, countP_sanitizeSQL _, rfl, rfl, rfl⟩

theorem reads_digits {digits : Text} (h : ∀ c ∈ digits, c.isDigit = true) :
    (sqlLexer.ending (.number .integer) digits).isDeep = false ∧
      sqlLexer.tokens (.number .integer) digits = [.literal] := by
  induction digits with
  | nil => exact ⟨rfl, rfl⟩
  | cons c rest ih =>
    obtain ⟨hc, hrest⟩ := List.forall_mem_cons.mp h
    have hextend : sqlLexer.extend (.number .integer) c = some (.number .integer) := by
      show (NumberPhase.integer.next c).map _ = _
      rw [NumberPhase.next, if_pos hc]
      rfl
    rw [Lexer.ending_cons_of_some hextend, Lexer.tokens_cons_of_some hextend]
    exact ih hrest

theorem startToken_of_isDigit {c : Char} (h : c.isDigit = true) :
    startToken c = .number .integer := by
  have hspace : [' ', '\t', '\n', '\r', '\x0c'].contains c = false := by
    refine Bool.eq_false_of_not_eq_true fun hmem ↦ ?_
    have hmem := List.contains_iff_mem.mp hmem
    simp only [List.mem_cons, List.not_mem_nil, or_false] at hmem
    rcases hmem with rfl | rfl | rfl | rfl | rfl <;> exact absurd h (by decide)
  have hmark : isMark c = false := by
    refine Bool.eq_false_of_not_eq_true fun hmark ↦ ?_
    rcases eq_of_isBreak (isBreak_of_isMark hmark) with rfl | rfl | rfl | rfl | rfl <;>
      exact absurd h (by decide)
  rw [startToken, hspace, if_neg Bool.false_ne_true, hmark, if_neg Bool.false_ne_true, if_pos h]

theorem isLiteral_toDigits (n : ℕ) : IsLiteral (Nat.toDigits 10 n) := by
  have hdigits : ∀ c ∈ Nat.toDigits 10 n, c.isDigit = true :=
    fun c ↦ Pkg.Text.isDigit_of_mem_toDigits
  obtain ⟨c, rest, htext⟩ := List.exists_cons_of_ne_nil (Nat.toDigits_ne_nil :
    Nat.toDigits 10 n ≠ [])
  rw [htext] at hdigits ⊢
  obtain ⟨hc, hrest⟩ := List.forall_mem_cons.mp hdigits
  have hends : sqlLexer.ending .blank (c :: rest) = sqlLexer.ending (startToken c) rest :=
    Lexer.ending_cons_of_none rfl
  have htokens : sqlTokens (c :: rest) = sqlLexer.tokens (startToken c) rest :=
    Lexer.tokens_cons_of_none rfl
  rw [IsLiteral, hends, htokens, startToken_of_isDigit hc]
  exact reads_digits hrest

theorem sound_cellsOf (criteria : FileCriteria) (column : Column) :
    ∀ cell ∈ cellsOf criteria column, cell.Sound := by
  have hnull : (Cell.constant "NULL".toList).Sound := sound_constant (by decide) (by decide)
  intro cell hcell
  cases column with
  | min c => exact absurd hcell List.not_mem_nil
  | max c =>
    simp only [cellsOf] at hcell
    cases hvalues : criteria.ranges c with
    | none =>
      simp only [hvalues, List.mem_cons, List.not_mem_nil, or_false, or_self] at hcell
      exact hcell ▸ hnull
    | some values =>
      simp only [hvalues] at hcell
      obtain ⟨value, -, rfl⟩ := List.mem_map.mp hcell
      exact sound_boundCell c value
  | list c =>
    simp only [cellsOf] at hcell
    cases hvalues : criteria.lists c with
    | none =>
      simp only [hvalues, List.mem_singleton] at hcell
      exact hcell ▸ hnull
    | some values =>
      simp only [hvalues, List.mem_singleton] at hcell
      exact hcell ▸ sound_quotedCell _

theorem map_sampled_cellsOf (criteria : FileCriteria) (column : Column) :
    (cellsOf criteria column).map Cell.sampled = cellsOf criteria.standIns column := by
  cases column with
  | min c => rfl
  | max c =>
    simp only [cellsOf, FileCriteria.standIns]
    cases criteria.ranges c with
    | none => rfl
    | some values =>
      show (values.map (boundCell c)).map Cell.sampled = (values.map _).map (boundCell c)
      rw [List.map_map, List.map_map]
      refine List.map_congr_left fun value _ ↦ ?_
      show (boundCell c value).sampled = boundCell c (if value = unbounded then unbounded
        else standIn)
      by_cases hvalue : value = unbounded
      · rw [if_pos hvalue, hvalue]
        rfl
      · rw [if_neg hvalue, boundCell, if_neg hvalue]
        cases c <;> rfl
  | list c =>
    simp only [cellsOf, FileCriteria.standIns]
    cases criteria.lists c with
    | none => rfl
    | some values => rfl

/-! ### The whole row -/

theorem sound_rowCells (manifestName : Text) (inst : ℕ) (criteria : FileCriteria)
    (columns : List Column) :
    ∀ cell ∈ rowCells manifestName inst criteria columns, cell.Sound := by
  have hinst : (Nat.toDigits 10 inst).countP isMark = 0 := by
    refine List.countP_eq_zero.mpr fun c hc hmark ↦ ?_
    have hdigit := Pkg.Text.isDigit_of_mem_toDigits hc
    rcases eq_of_isBreak (isBreak_of_isMark hmark) with rfl | rfl | rfl | rfl | rfl <;>
      exact absurd hdigit (by decide)
  refine List.forall_mem_cons.mpr ⟨sound_quotedCell _,
    List.forall_mem_cons.mpr ⟨?_, fun cell hcell ↦ ?_⟩⟩
  · exact ⟨rfl, hinst, rfl, rfl, rfl⟩
  · obtain ⟨column, -, hcell⟩ := List.mem_flatMap.mp hcell
    exact sound_cellsOf criteria column cell hcell

theorem map_sampled_rowCells (manifestName : Text) (inst : ℕ) (criteria : FileCriteria)
    (columns : List Column) :
    (rowCells manifestName inst criteria columns).map Cell.sampled =
    formCells criteria.standIns columns := by
  have hcolumns : (columns.flatMap (cellsOf criteria)).map Cell.sampled =
      columns.flatMap (cellsOf criteria.standIns) := by
    rw [List.map_flatMap]
    exact List.flatMap_congr fun column _ ↦ map_sampled_cellsOf criteria column
  rw [rowCells, List.map_cons, List.map_cons, hcolumns]
  rfl

theorem fits_constant {text : Text} (h : (Cell.constant text).Sound) : (Cell.constant text).Fits :=
  (fits_iff (by decide)).mpr ⟨h.ends, rfl⟩

theorem fits_quotedCell_iff (value : Text) :
    (quotedCell value).Fits ↔ Paired false (sanitizeSQL value) :=
  fits_quoted_iff (by decide) rfl fun _ ↦ rfl

theorem fits_bareCell_iff (value : Text) : (Cell.mk [] value [] standIn).Fits ↔ IsLiteral value :=
  fits_bare_iff (by decide) rfl (Or.inl rfl) (fun c h ↦ absurd h List.not_mem_nil) rfl

theorem fits_boundCell_iff (c : RangeCriterion) (value : Text) :
    (boundCell c value).Fits ↔
    (value ≠ unbounded → Plain (.range c) (sanitizeSQL (upper value))) := by
  by_cases hvalue : value = unbounded
  · rw [boundCell, if_pos hvalue]
    exact iff_of_true (fits_constant (sound_constant (by decide) (by decide))) fun hne ↦
      absurd hvalue hne
  · have hblob : (Cell.mk ['x', '\''] (sanitizeSQL (upper value)) ['\''] standIn).Fits ↔
        IsBlob .even (sanitizeSQL (upper value)) := fits_blob_iff (by decide)
    rw [boundCell, if_neg hvalue]
    refine Iff.trans ?_ ⟨fun h _ ↦ h, fun h ↦ h hvalue⟩
    cases c with
    | mac => exact hblob
    | ipv4 | network | mem => exact fits_bareCell_iff _

theorem fits_cellsOf (criteria : FileCriteria) (columns : List Column) :
    (∀ column ∈ columns, ∀ cell ∈ cellsOf criteria column, cell.Fits) ↔ criteria.Plain columns := by
  have hnull : (Cell.constant "NULL".toList).Fits :=
    fits_constant (sound_constant (by decide) (by decide))
  constructor
  · intro h
    refine ⟨fun c hc values hvalues value hvalue ↦ ?_, fun c hc values hvalues ↦ ?_⟩
    · have hcell : boundCell c value ∈ cellsOf criteria (.max c) := by
        simp only [cellsOf, hvalues]
        exact List.mem_map_of_mem hvalue
      exact (fits_boundCell_iff c value).mp (h _ hc _ hcell)
    · have hcell : quotedCell (join values) ∈ cellsOf criteria (.list c) := by
        simp only [cellsOf, hvalues]
        exact List.mem_singleton_self _
      exact (fits_quotedCell_iff _).mp (h _ hc _ hcell)
  · intro h column hcolumn cell hcell
    cases column with
    | min c => exact absurd hcell List.not_mem_nil
    | max c =>
      simp only [cellsOf] at hcell
      cases hvalues : criteria.ranges c with
      | none =>
        simp only [hvalues, List.mem_cons, List.not_mem_nil, or_false, or_self] at hcell
        exact hcell ▸ hnull
      | some values =>
        simp only [hvalues] at hcell
        obtain ⟨value, hvalue, rfl⟩ := List.mem_map.mp hcell
        exact (fits_boundCell_iff c value).mpr (h.ranges c hcolumn values hvalues value hvalue)
    | list c =>
      simp only [cellsOf] at hcell
      cases hvalues : criteria.lists c with
      | none =>
        simp only [hvalues, List.mem_singleton] at hcell
        exact hcell ▸ hnull
      | some values =>
        simp only [hvalues, List.mem_singleton] at hcell
        exact hcell ▸ (fits_quotedCell_iff _).mpr (h.lists c hcolumn values hvalues)

/-- The query for a row where the stand-in is in the place of every value. -/
def formSQL (criteria : FileCriteria) (columns : List Column) : Text :=
  insertText ++ TextPart.textOf (rowParts (formCells criteria columns))

/-- The query for a manifest has the tokens of its form exactly if the values are literals. -/
theorem insertSQL_iff (manifestName : Text) (inst : ℕ) (criteria : FileCriteria)
    (columns : List Column) :
    sqlTokens (insertSQL manifestName inst criteria columns) =
    sqlTokens (formSQL criteria.standIns columns) ↔
      Paired false (sanitizeSQL manifestName) ∧ criteria.Plain columns := by
  have hinsert : sqlMarks.Tidy insertText := tidy_of_isTidy (by decide +kernel)
  have htail : (sqlTokens []).countP SqlToken.isMark = ([] : Text).countP isMark := rfl
  have hparts := TextPart.tokens_eq_sampled_iff
    (sound_rowParts (sound_rowCells manifestName inst criteria columns)) htail
  rw [List.append_nil, List.append_nil, map_sampled_rowParts, map_sampled_rowCells,
    fits_rowParts] at hparts
  rw [insertSQL_eq, formSQL, sqlTokens_append hinsert, sqlTokens_append hinsert,
    List.append_cancel_left_eq]
  refine hparts.trans ?_
  rw [rowCells, List.forall_mem_cons, List.forall_mem_cons, fits_bareCell_iff,
    and_iff_right (isLiteral_toDigits inst), fits_quotedCell_iff, ← fits_cellsOf criteria columns]
  refine and_congr_right fun _ ↦ ⟨fun h column hcolumn cell hcell ↦ ?_, fun h cell hcell ↦ ?_⟩
  · exact h cell (List.mem_flatMap.mpr ⟨column, hcolumn, hcell⟩)
  · obtain ⟨column, hcolumn, hcell⟩ := List.mem_flatMap.mp hcell
    exact h column hcolumn cell hcell

/-! ### One structure for all values -/

/-- The query for a client has the tokens of all queries with literals for the same criteria. -/
def KeepsQuery (criteria : Criterion → Option Text) (columns : List Column)
    (allCriteria : Option (List Column)) :
    Prop :=
  ∀ other : Criterion → Option Text, (∀ c, (other c).isSome = (criteria c).isSome) →
    PlainCriteria other columns →
    sqlTokens (buildQueryStr criteria columns allCriteria) =
      sqlTokens (buildQueryStr other columns allCriteria)

/-- The query for a manifest has the tokens of all queries with literals for the same criteria and
bounds. -/
def KeepsRow (manifestName : Text) (inst : ℕ) (criteria : FileCriteria) (columns : List Column) :
    Prop :=
  ∀ (otherName : Text) (otherInst : ℕ) (other : FileCriteria), other.standIns = criteria.standIns →
    Paired false (sanitizeSQL otherName) → other.Plain columns →
      sqlTokens (insertSQL manifestName inst criteria columns) =
        sqlTokens (insertSQL otherName otherInst other columns)

theorem standIns_eq {criteria other : Criterion → Option Text}
    (h : ∀ c, (other c).isSome = (criteria c).isSome) :
    standIns other = standIns criteria := by
  funext c
  have hsome := h c
  unfold standIns
  cases hother : other c with
  | none =>
    rw [hother, Option.isSome_none, eq_comm, Option.isSome_eq_false_iff,
      Option.isNone_iff_eq_none] at hsome
    rw [hsome]
  | some value =>
    rw [hother, Option.isSome_some, eq_comm, Option.isSome_iff_exists] at hsome
    obtain ⟨value', hvalue⟩ := hsome
    rw [hvalue]
    rfl

theorem plainCriteria_standIns (criteria : Criterion → Option Text) (columns : List Column) :
    PlainCriteria (standIns criteria) columns := by
  intro column _ value hvalue
  obtain ⟨given, -, rfl⟩ := Option.map_eq_some_iff.mp hvalue
  cases column with
  | min c => cases c <;> exact of_decide_eq_true rfl
  | max c => cases c <;> exact of_decide_eq_true rfl
  | list c => exact ⟨rfl, rfl, rfl⟩

theorem plain_standIns (criteria : FileCriteria) (columns : List Column) :
    criteria.standIns.Plain columns := by
  constructor
  · intro c _ values hvalues value hvalue hne
    obtain ⟨given, -, rfl⟩ := Option.map_eq_some_iff.mp hvalues
    obtain ⟨bound, -, rfl⟩ := List.mem_map.mp hvalue
    by_cases hbound : bound = unbounded
    · rw [if_pos hbound] at hne
      exact absurd rfl hne
    · rw [if_neg hbound]
      cases c <;> exact of_decide_eq_true rfl
  · intro c _ values hvalues
    obtain ⟨given, -, rfl⟩ := Option.map_eq_some_iff.mp hvalues
    exact ⟨rfl, rfl, rfl⟩

theorem standIns_standIns (criteria : FileCriteria) :
    criteria.standIns.standIns = criteria.standIns := by
  rw [FileCriteria.standIns, FileCriteria.standIns]
  congr 1
  · funext c
    rw [Option.map_map]
    cases criteria.ranges c with
    | none => rfl
    | some values =>
      show some _ = some _
      rw [Function.comp_apply, List.map_map]
      refine congrArg some (List.map_congr_left fun value _ ↦ ?_)
      rw [Function.comp_apply]
      by_cases hvalue : value = unbounded
      · rw [if_pos hvalue, if_pos rfl]
      · rw [if_neg hvalue, if_neg (by decide)]
  · funext c
    rw [Option.map_map]
    rfl

/-- The values of criteria do not change the structure of a query exactly if every value is a
literal in its place. -/
theorem sameStructure_iff (criteria : Criterion → Option Text) (columns : List Column)
    (allCriteria : Option (List Column)) (manifestName : Text) (inst : ℕ)
    (fileCriteria : FileCriteria) (fileColumns : List Column) :
    (KeepsQuery criteria columns allCriteria ↔ PlainCriteria criteria columns) ∧
    (KeepsRow manifestName inst fileCriteria fileColumns ↔
      Paired false (sanitizeSQL manifestName) ∧ fileCriteria.Plain fileColumns) := by
  constructor
  · constructor
    · intro h
      refine (buildQueryStr_iff criteria columns allCriteria).mp ?_
      refine h (standIns criteria) (fun c ↦ ?_) (plainCriteria_standIns criteria columns)
      rw [standIns, Option.isSome_map]
    · intro h other hsame hother
      rw [(buildQueryStr_iff criteria columns allCriteria).mpr h,
        (buildQueryStr_iff other columns allCriteria).mpr hother, standIns_eq hsame]
  · constructor
    · intro h
      refine (insertSQL_iff manifestName inst fileCriteria fileColumns).mp ?_
      rw [h standIn inst fileCriteria.standIns (standIns_standIns fileCriteria) ⟨rfl, rfl, rfl⟩
        (plain_standIns fileCriteria fileColumns),
          (insertSQL_iff standIn inst fileCriteria.standIns fileColumns).mpr
          ⟨⟨rfl, rfl, rfl⟩, plain_standIns fileCriteria fileColumns⟩, standIns_standIns]
    · intro h otherName otherInst other hsame hname hother
      rw [(insertSQL_iff manifestName inst fileCriteria fileColumns).mpr h,
        (insertSQL_iff otherName otherInst other fileColumns).mpr ⟨hname, hother⟩, hsame]

/-- A client that gives a size of memory. -/
def memoryOf (size : Text) : Criterion → Option Text
  | .range .mem => some size
  | _ => none

/-- A size of memory `1 OR 1` changes the query. -/
theorem not_keepsQuery_memory :
    ¬ KeepsQuery (memoryOf "1 OR 1".toList) [.min .mem] (some [.min .mem]) := by
  intro h
  have hplain : PlainCriteria (memoryOf "1".toList) [.min .mem] := by
    intro column hcolumn value hvalue
    obtain rfl := List.mem_singleton.mp hcolumn
    obtain rfl := Option.some.inj hvalue
    exact of_decide_eq_true rfl
  have hsame := h (memoryOf "1".toList)
    (fun c ↦ by cases c with | range c => cases c <;> rfl | list c => rfl) hplain
  have hfits := (buildQueryStr_iff _ _ _).mp (hsame.trans ((buildQueryStr_iff _ _ _).mpr hplain))
  have hliteral := hfits (.min .mem) List.mem_cons_self "1 OR 1".toList rfl
  exact absurd hliteral (by decide)

end Userland.AutoInstall.QueryText
