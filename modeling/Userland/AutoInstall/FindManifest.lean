import Userland.AutoInstall.Criteria

/-!
# The manifest for a client

`findManifest` reads one row from the table: the first one, in an order of the columns, of those
whose criteria the client satisfies (`mem_rows_iff`). The order takes the texts of the lists where
it should only see whether they are there. `findsBest_iff` says when the row is still one of the
most specific.

Scope: rows that are equal in the order may come in any order, which is the order of the table here.
What a client sends is an address, a number or a text without a quotation mark, as its criterion
demands.
-/

set_option autoImplicit false
set_option relaxedAutoImplicit false

namespace Userland.AutoInstall

open Userland.Library

/-- The character that ends a text in a query. -/
def quote : Char := Char.ofNat 39

/-- The criteria of a client, and the names of other values that it sends. -/
structure Client where
  range : (c : RangeCriterion) → Option c.Value
  list : ListCriterion → Option Text
  others : List Text
  quotable : ∀ c value, list c = some value → quote ∉ value

/-- Whether a client sends nothing for a column. -/
def Client.lacks (client : Client) : Column → Bool
  | .min c => (client.range c).isNone
  | .max c => (client.range c).isNone
  | .list c => (client.list c).isNone

/-- `len(criteria) == 0`. -/
def Client.isEmpty (client : Client) : Bool :=
  Column.all.all client.lacks && client.others.isEmpty

/-! ### The query -/

/-- `getCriteria(queue, onlyUsed, strip=False)`. -/
def getCriteria (table : List Row) (onlyUsed : Bool) : List Column :=
  if onlyUsed then Column.all.filter fun column ↦ table.any fun row ↦ row.isSet column
  else Column.all

/-- A condition of the query. -/
inductive Clause
  /-- `(MINc <= value OR MINc IS NULL)` -/
  | minAtMost (c : RangeCriterion) (value : c.Value)
  /-- `(MAXc >= value OR MAXc IS NULL)` -/
  | maxAtLeast (c : RangeCriterion) (value : c.Value)
  /-- `(c IS NULL OR is_in_list('c', 'value', c, 'None') == 1)` -/
  | inList (c : ListCriterion) (value : Text)
  /-- `(column IS NULL)` -/
  | isNull (column : Column)

/-- Whether a row fulfils a condition. -/
def Clause.holds (row : Row) : Clause → Bool
  | .minAtMost c value => (row.min c).all fun bound ↦ leValue bound value
  | .maxAtLeast c value => (row.max c).all fun bound ↦ leValue value bound
  | .inList c value => (row.list c).isNone || isInList c (some value) (row.list c)
  | .isNull column => !row.isSet column

/-- The criteria in the order of their precedence. -/
def precedence : List Criterion :=
  [.range .mac, .range .ipv4, .list .platform, .list .arch, .list .cpu, .range .network,
    .range .mem]

/-- A value that rows are ordered by. -/
inductive Cell
  | null
  | integer (value : ℤ)
  | text (value : Text)

/-- `NULL` comes before the integers, and these before the texts. -/
def Cell.rank : Cell → List ℤ
  | .null => []
  | .integer value => [0, value]
  | .text value => 1 :: value.map fun c ↦ (c.toNat : ℤ)

theorem Cell.rank_injective : Function.Injective Cell.rank := by
  intro first second h
  cases first <;> cases second <;> simp_all [Cell.rank]
  next s t =>
    refine List.map_injective_iff.mpr (fun c d hcd ↦ ?_) h
    exact Char.ext (UInt32.toNat_inj.mp (Int.ofNat.inj hcd))

instance : LinearOrder Cell := LinearOrder.lift' Cell.rank Cell.rank_injective

/-- What a row is ordered by for a criterion: `mac_val`, `platform` and so on. -/
def sortCell : Criterion → Row → Cell
  | .range c, row => .integer (if (row.max c <|> row.min c).isSome then 1 else 0)
  | .list c, row =>
    match row.list c with
    | none => .null
    | some text => .text text

def sortKey (row : Row) : List Cell :=
  precedence.map (sortCell · row)

/-- `SELECT … FROM manifests WHERE clauses AND (NOT (all columns IS NULL)) ORDER BY … LIMIT 1`. -/
structure Query where
  clauses : List Clause
  nonCriteria : List Column

/-- The rows that a query selects from. -/
def Query.rows (query : Query) (table : List Row) : List Row :=
  table.filter fun row ↦ query.clauses.all (Clause.holds row) && query.nonCriteria.any row.isSet

def Query.run (query : Query) (table : List Row) : List Row :=
  ((query.rows table).argmax sortKey).toList

/-- The condition that `build_query_str` makes for a column. -/
def clause (client : Client) : Column → Clause
  | .min c =>
    match client.range c with
    | some value => .minAtMost c value
    | none => .isNull (.min c)
  | .max c =>
    match client.range c with
    | some value => .maxAtLeast c value
    | none => .isNull (.max c)
  | .list c =>
    match client.list c with
    | some value => .inList c (sanitizeSQL value)
    | none => .isNull (.list c)

/-- `build_query_str(criteria, criteria_set_in_db, all_criteria_in_db)`. -/
def buildQueryStr (client : Client) (criteriaSetInDb allCriteriaInDb : List Column) : Query :=
  { clauses := criteriaSetInDb.map (clause client), nonCriteria := allCriteriaInDb }

/-- The row that `findManifest` reads. -/
def response (client : Client) (table : List Row) : Option Row :=
  if client.isEmpty then none
  else
    let criteriaSetInDb := getCriteria table true
    if criteriaSetInDb.isEmpty then none
    else
      let allCriteriaInDb := getCriteria table false
      match (buildQueryStr client criteriaSetInDb allCriteriaInDb).run table with
      | [row] => some row
      | _ => none

/-- `findManifest(criteria, db)`. -/
def findManifest (client : Client) (table : List Row) : Option Text :=
  (response client table).map Row.name

/-! ### What is asked for -/

/-- The client satisfies a criterion: its value is in the range, or a member of the list. The table
holds the texts without the characters that `sanitizeSQL` takes out. -/
def Satisfies (client : Client) (row : Row) : Criterion → Prop
  | .range c => ∃ value, client.range c = some value ∧
      (∀ bound, row.min c = some bound → bound.toInt ≤ value.toInt) ∧
      ∀ bound, row.max c = some bound → value.toInt ≤ bound.toInt
  | .list c => ∃ value valueList, client.list c = some value ∧ row.list c = some valueList ∧
      ∃ word ∈ words valueList, folded c word = folded c (sanitizeSQL value)

/-- A manifest matches a client that satisfies each of its criteria. Manifests without criteria are
inactive or the default, and match no client. -/
structure Matches (client : Client) (row : Row) : Prop where
  active : ∃ c, row.populated c = true
  satisfied : ∀ c, row.populated c = true → Satisfies client row c

/-- In the first criterion where they differ, `first` is populated and `second` is not. -/
def MoreSpecific (first second : Row) : Prop :=
  precedence.map second.populated < precedence.map first.populated

/-- The row that is found matches, and no matching row is more specific; where none is found, none
matches. -/
structure FindsBest (client : Client) (table : List Row) (found : Option Row) : Prop where
  none : found = none → ∀ row ∈ table, ¬ Matches client row
  some : ∀ row, found = some row → row ∈ table ∧ Matches client row ∧
    ∀ other ∈ table, Matches client other → ¬ MoreSpecific other row

/-- The first column of the order in which the rows differ is a list that both populate, and `first`
has the greater text. -/
def TextOutranks (first second : Row) : Prop :=
  ∃ before c after, precedence = before ++ .list c :: after ∧
    (∀ d ∈ before, sortCell d second = sortCell d first) ∧
    ∃ s t, second.list c = some s ∧ first.list c = some t ∧ s < t

/-! ### The rows of the query -/

section Rows

variable {client : Client} {row : Row}

theorem holds_clause_min {c : RangeCriterion} : (clause client (.min c)).holds row = true ↔
    ∀ bound, row.min c = some bound → ∃ value, client.range c = some value ∧
    bound.toInt ≤ value.toInt := by
  cases hclient : client.range c with
  | none => cases hrow : row.min c <;> simp [clause, Clause.holds, Row.isSet, hclient, hrow]
  | some value => cases hrow : row.min c <;> simp [clause, Clause.holds, leValue_iff, hclient, hrow]

theorem holds_clause_max {c : RangeCriterion} : (clause client (.max c)).holds row = true ↔
    ∀ bound, row.max c = some bound → ∃ value, client.range c = some value ∧
    value.toInt ≤ bound.toInt := by
  cases hclient : client.range c with
  | none => cases hrow : row.max c <;> simp [clause, Clause.holds, Row.isSet, hclient, hrow]
  | some value => cases hrow : row.max c <;> simp [clause, Clause.holds, leValue_iff, hclient, hrow]

theorem holds_clause_list {c : ListCriterion} : (clause client (.list c)).holds row = true ↔
    (row.populated (.list c) = true → Satisfies client row (.list c)) := by
  cases hclient : client.list c with
  | none =>
    cases hrow : row.list c <;>
      simp [clause, Clause.holds, Row.isSet, Row.populated, Satisfies, hclient, hrow]
  | some value =>
    cases hrow : row.list c with
    | none => simp [clause, Clause.holds, Row.populated, hclient, hrow]
    | some valueList =>
      simp [clause, Clause.holds, Row.populated, Satisfies, hclient, hrow, isInList_iff]

/-- The two conditions of a range say that the client satisfies it, where it is populated. -/
theorem satisfies_range_iff {c : RangeCriterion} :
    (row.populated (.range c) = true → Satisfies client row (.range c)) ↔
      (clause client (.min c)).holds row = true ∧ (clause client (.max c)).holds row = true := by
  rw [holds_clause_min, holds_clause_max]
  constructor
  · refine fun h ↦ ⟨fun bound hbound ↦ ?_, fun bound hbound ↦ ?_⟩
    · obtain ⟨value, hvalue, hmin, -⟩ := h (by simp [Row.populated, hbound])
      exact ⟨value, hvalue, hmin bound hbound⟩
    · obtain ⟨value, hvalue, -, hmax⟩ := h (by simp [Row.populated, hbound])
      exact ⟨value, hvalue, hmax bound hbound⟩
  · rintro ⟨hmin, hmax⟩ hpopulated
    obtain ⟨value, hvalue⟩ : ∃ value, client.range c = some value := by
      rcases Bool.or_eq_true_iff.mp hpopulated with h | h
      · obtain ⟨bound, hbound⟩ := Option.isSome_iff_exists.mp h
        obtain ⟨value, hvalue, -⟩ := hmin bound hbound
        exact ⟨value, hvalue⟩
      · obtain ⟨bound, hbound⟩ := Option.isSome_iff_exists.mp h
        obtain ⟨value, hvalue, -⟩ := hmax bound hbound
        exact ⟨value, hvalue⟩
    refine ⟨value, hvalue, fun bound hbound ↦ ?_, fun bound hbound ↦ ?_⟩
    · obtain ⟨value', hvalue', hle⟩ := hmin bound hbound
      cases hvalue.symm.trans hvalue'
      exact hle
    · obtain ⟨value', hvalue', hle⟩ := hmax bound hbound
      cases hvalue.symm.trans hvalue'
      exact hle

/-- A row fulfils the conditions of all columns if the client satisfies what it populates. -/
theorem satisfied_iff : (∀ c, row.populated c = true → Satisfies client row c) ↔
    ∀ column, (clause client column).holds row = true := by
  constructor
  · intro h column
    cases column with
    | min c => exact (satisfies_range_iff.mp (h (.range c))).1
    | max c => exact (satisfies_range_iff.mp (h (.range c))).2
    | list c => exact holds_clause_list.mpr (h (.list c))
  · intro h c
    cases c with
    | range c => exact satisfies_range_iff.mpr ⟨h (.min c), h (.max c)⟩
    | list c => exact holds_clause_list.mp (h (.list c))

/-- The condition of a column holds of a row that does not populate it. -/
theorem holds_clause_of_not_isSet {column : Column} (h : row.isSet column = false) :
    (clause client column).holds row = true := by
  cases column with
  | min c =>
    refine holds_clause_min.mpr fun bound hbound ↦ ?_
    rw [Row.isSet, hbound] at h
    cases h
  | max c =>
    refine holds_clause_max.mpr fun bound hbound ↦ ?_
    rw [Row.isSet, hbound] at h
    cases h
  | list c =>
    refine holds_clause_list.mpr fun hpopulated ↦ ?_
    rw [Row.populated, ← Row.isSet, h] at hpopulated
    cases hpopulated

end Rows

theorem mem_getCriteria_used {table : List Row} {row : Row} (hrow : row ∈ table) {column : Column}
    (h : row.isSet column = true) : column ∈ getCriteria table true := by
  unfold getCriteria
  rw [if_pos rfl, List.mem_filter, List.any_eq_true]
  exact ⟨column.mem_all, row, hrow, h⟩

/-- The query selects from the rows that match the client. -/
theorem mem_rows_iff {client : Client} {table : List Row} {row : Row} :
    row ∈ (buildQueryStr client (getCriteria table true) (getCriteria table false)).rows table ↔
      row ∈ table ∧ Matches client row := by
  rw [Query.rows, List.mem_filter, Bool.and_eq_true, List.all_eq_true, List.any_eq_true]
  refine and_congr_right fun hrow ↦ ⟨fun ⟨hclauses, hset⟩ ↦ ⟨?_, ?_⟩, fun h ↦ ⟨?_, ?_⟩⟩
  · obtain ⟨column, -, hcolumn⟩ := hset
    exact ⟨_, Row.populated_criterion hcolumn⟩
  · refine satisfied_iff.mpr fun column ↦ ?_
    by_cases hcolumn : row.isSet column = true
    · exact hclauses _ (List.mem_map_of_mem (mem_getCriteria_used hrow hcolumn))
    · exact holds_clause_of_not_isSet (Bool.not_eq_true _ ▸ hcolumn)
  · intro x hx
    obtain ⟨column, -, rfl⟩ := List.mem_map.mp hx
    exact satisfied_iff.mp h.satisfied column
  · obtain ⟨c, hc⟩ := h.active
    obtain ⟨column, hcolumn⟩ := Row.exists_isSet hc
    exact ⟨column, column.mem_all, hcolumn⟩

/-- The matching rows, which the query selects from. -/
def candidates (client : Client) (table : List Row) : List Row :=
  (buildQueryStr client (getCriteria table true) (getCriteria table false)).rows table

theorem candidates_eq_nil_of_isEmpty {client : Client} {table : List Row}
    (h : client.isEmpty = true ∨ getCriteria table true = []) : candidates client table = [] := by
  refine List.eq_nil_iff_forall_not_mem.mpr fun row hrow ↦ ?_
  obtain ⟨hrow, hmatches⟩ := mem_rows_iff.mp hrow
  obtain ⟨c, hc⟩ := hmatches.active
  obtain ⟨column, hcolumn⟩ := Row.exists_isSet hc
  rcases h with hempty | hunused
  · have hlacks := List.all_eq_true.mp (Bool.and_eq_true_iff.mp hempty).1
    have hsatisfies := hmatches.satisfied c hc
    cases c with
    | range c =>
      obtain ⟨value, hvalue, -⟩ := hsatisfies
      have hnone := hlacks (.min c) (Column.mem_all _)
      rw [Client.lacks, hvalue] at hnone
      cases hnone
    | list c =>
      obtain ⟨value, valueList, hvalue, -⟩ := hsatisfies
      have hnone := hlacks (.list c) (Column.mem_all _)
      rw [Client.lacks, hvalue] at hnone
      cases hnone
  · have hmem := mem_getCriteria_used hrow hcolumn
    rw [hunused] at hmem
    exact absurd hmem List.not_mem_nil

/-- The row that is found is the first of the candidates. -/
theorem response_eq (client : Client) (table : List Row) :
    response client table = (candidates client table).argmax sortKey := by
  unfold response
  by_cases hempty : client.isEmpty = true
  · rw [if_pos hempty, candidates_eq_nil_of_isEmpty (.inl hempty), List.argmax_nil]
  rw [if_neg hempty]
  by_cases hunused : (getCriteria table true).isEmpty = true
  · rw [if_pos hunused, candidates_eq_nil_of_isEmpty (.inr (List.isEmpty_iff.mp hunused)),
      List.argmax_nil]
  rw [if_neg hunused]
  show (match ((candidates client table).argmax sortKey).toList with
    | [row] => some row
    | _ => none) = _
  cases (candidates client table).argmax sortKey <;> rfl

/-! ### The order of the rows -/

theorem Cell.text_lt_text_iff {s t : Text} : Cell.text s < Cell.text t ↔ s < t := by
  show Cell.rank (.text s) < Cell.rank (.text t) ↔ s < t
  rw [Cell.rank, Cell.rank, List.cons_lt_cons_iff,
    map_lt_map_of_forall (p := fun _ ↦ True) (fun c d _ _ ↦ ?_) (fun _ _ ↦ trivial) fun _ _ ↦
      trivial]
  · simp
  · rw [Int.ofNat_lt]
    rfl

theorem sortCell_range (c : RangeCriterion) (row : Row) :
    sortCell (.range c) row = .integer (if row.populated (.range c) then 1 else 0) := by
  cases hmax : row.max c <;> cases hmin : row.min c <;> simp [sortCell, Row.populated, hmax, hmin]

/-- A row that populates a criterion comes before one that does not. -/
theorem sortCell_lt_of_populated {c : Criterion} {first second : Row}
    (hfirst : first.populated c = false)
    (hsecond : second.populated c = true) : sortCell c first < sortCell c second := by
  cases c with
  | range c =>
    rw [sortCell_range, sortCell_range, hfirst, hsecond]
    decide
  | list c =>
    obtain ⟨t, ht⟩ := Option.isSome_iff_exists.mp hsecond
    have hnone : first.list c = none :=
      Option.not_isSome_iff_eq_none.mp (Bool.not_eq_true _ ▸ hfirst)
    simp only [sortCell, hnone, ht]
    exact List.nil_lt_cons _ _

/-- What comes later in a column is populated if what comes before it is. -/
theorem populated_le_of_sortCell_le (c : Criterion) (first second : Row)
    (h : sortCell c first ≤ sortCell c second) : first.populated c ≤ second.populated c := by
  cases hsecond : second.populated c with
  | true => exact Bool.le_true _
  | false =>
    cases hfirst : first.populated c with
    | false => exact le_rfl
    | true => exact absurd (sortCell_lt_of_populated hsecond hfirst) (not_lt.mpr h)

theorem specificity_eq_of_sortKey_eq (first second : Row) (h : sortKey first = sortKey second) :
    precedence.map first.populated = precedence.map second.populated := by
  refine List.map_congr_left fun c hc ↦ ?_
  have hcell : sortCell c first = sortCell c second := List.map_inj_left.mp h c hc
  exact le_antisymm (populated_le_of_sortCell_le c _ _ hcell.le)
    (populated_le_of_sortCell_le c _ _ hcell.ge)

/-- A row that is not more specific comes first where its text does. -/
theorem sortKey_lt_iff {first second : Row} (h : ¬ MoreSpecific first second) :
    sortKey second < sortKey first ↔ TextOutranks first second := by
  have hfirst : ¬ precedence.map (fun c ↦ second.populated c) < precedence.map fun c ↦
    first.populated c := h
  rw [sortKey, sortKey, fine_lt_iff populated_le_of_sortCell_le hfirst]
  constructor
  · rintro ⟨before, c, after, hcolumns, hbefore, hlt, hpopulated⟩
    cases c with
    | range c =>
      rw [sortCell_range, sortCell_range, hpopulated] at hlt
      exact absurd hlt (lt_irrefl _)
    | list c =>
      simp only [sortCell, Row.populated] at hlt hpopulated
      cases hs : second.list c with
      | none =>
        rw [hs] at hlt hpopulated
        cases ht : first.list c with
        | none =>
          rw [ht] at hlt
          exact absurd hlt (lt_irrefl _)
        | some t =>
          rw [ht] at hpopulated
          cases hpopulated
      | some s =>
        rw [hs] at hlt hpopulated
        cases ht : first.list c with
        | none =>
          rw [ht] at hpopulated
          cases hpopulated
        | some t =>
          rw [ht] at hlt
          exact ⟨before, c, after, hcolumns, hbefore, s, t, hs, ht, Cell.text_lt_text_iff.mp hlt⟩
  · rintro ⟨before, c, after, hcolumns, hbefore, s, t, hs, ht, hlt⟩
    refine ⟨before, .list c, after, hcolumns, hbefore, ?_, ?_⟩
    · simp only [sortCell, hs, ht]
      exact Cell.text_lt_text_iff.mpr hlt
    · simp only [Row.populated, hs, ht, Option.isSome_some]

/-- `findManifest` reads a matching row than which no matching row is more specific, and none only
where none matches, if and only if no matching row outranks all the most specific ones by the text
of a list. -/
theorem findsBest_iff (client : Client) (table : List Row) :
    findManifest client table = (response client table).map Row.name ∧
      (FindsBest client table (response client table) ↔
        ∀ row ∈ table, Matches client row → ∃ best ∈ table, Matches client best ∧
          (∀ other ∈ table, Matches client other → ¬ MoreSpecific other best) ∧
          ¬ TextOutranks row best) := by
  refine ⟨rfl, ?_⟩
  have hmem : ∀ row, row ∈ candidates client table ↔
    row ∈ table ∧ Matches client row := fun _ ↦ mem_rows_iff
  rw [response_eq]
  cases hfound : (candidates client table).argmax sortKey with
  | none =>
    have hnil := List.argmax_eq_none.mp hfound
    have hno : ∀ row ∈ table, ¬ Matches client row := by
      intro row hrow hmatches
      have hcandidate := (hmem row).mpr ⟨hrow, hmatches⟩
      rw [hnil] at hcandidate
      exact absurd hcandidate List.not_mem_nil
    refine ⟨fun _ row hrow hmatches ↦ absurd hmatches (hno row hrow), fun _ ↦ ⟨fun _ ↦ hno, ?_⟩⟩
    rintro row ⟨⟩
  | some found =>
    have hmost : (∀ row ∈ candidates client table, ¬ MoreSpecific row found) ↔
        ∀ row ∈ candidates client table, ∃ best ∈ candidates client table,
          (∀ other ∈ candidates client table, ¬ MoreSpecific other best) ∧
              ¬ sortKey best < sortKey row :=
      argmax_coarse_iff specificity_eq_of_sortKey_eq (Option.mem_def.mpr hfound)
    obtain ⟨htable, hmatches⟩ := (hmem found).mp (List.argmax_mem hfound)
    constructor
    · rintro ⟨-, hbest⟩ row hrow hrowMatches
      obtain ⟨-, -, hspecific⟩ := hbest found rfl
      refine ⟨found, htable, hmatches, hspecific, ?_⟩
      rw [← sortKey_lt_iff (hspecific row hrow hrowMatches)]
      exact List.not_lt_of_mem_argmax ((hmem row).mpr ⟨hrow, hrowMatches⟩) hfound
    · intro h
      refine ⟨fun hnone ↦ absurd hnone (Option.some_ne_none _), ?_⟩
      rintro row ⟨⟩
      refine ⟨htable, hmatches, fun other hother hotherMatches ↦ ?_⟩
      refine hmost.mpr (fun row hrow ↦ ?_) other ((hmem other).mpr ⟨hother, hotherMatches⟩)
      obtain ⟨hrow, hrowMatches⟩ := (hmem row).mp hrow
      obtain ⟨best, hbest, hbestMatches, hspecific, houtranks⟩ := h row hrow hrowMatches
      refine ⟨best, (hmem best).mpr ⟨hbest, hbestMatches⟩, fun other hother ↦ ?_, ?_⟩
      · obtain ⟨hother, hotherMatches⟩ := (hmem other).mp hother
        exact hspecific other hother hotherMatches
      · rwa [sortKey_lt_iff (hspecific row hrow hrowMatches)]

/-! ### A text that outranks a later criterion -/

/-- A client of platform `a`, with some memory. -/
def smallClient : Client where
  range c := if c = .mem then some ⟨2, fun h ↦ by subst h; decide⟩ else none
  list c := if c = .platform then some ['a'] else none
  others := []
  quotable := by
    intro c value h
    by_cases hc : c = .platform
    · rw [if_pos hc] at h
      cases h
      decide
    · rw [if_neg hc] at h
      cases h

/-- A manifest for platform `a` with a bound on the memory. -/
def narrowManifest : Row where
  name := ['n']
  inst := 0
  min c := if c = .mem then some ⟨1, fun h ↦ by subst h; decide⟩ else none
  max _ := none
  list c := if c = .platform then some ['a'] else none

/-- A manifest for the platforms `b` and `a`. -/
def wideManifest : Row where
  name := ['w']
  inst := 0
  min _ := none
  max _ := none
  list c := if c = .platform then some ['b', ' ', 'a'] else none

/-- The manifest with the greater text is found, although the other one is more specific. -/
theorem wideManifest_found :
    findManifest smallClient [narrowManifest, wideManifest] = some ['w'] ∧
      Matches smallClient narrowManifest ∧ MoreSpecific narrowManifest wideManifest ∧
      ¬ FindsBest smallClient [narrowManifest, wideManifest]
        (response smallClient [narrowManifest, wideManifest]) := by
  have hrows : candidates smallClient [narrowManifest, wideManifest] = [narrowManifest,
    wideManifest] := rfl
  have hfound : response smallClient [narrowManifest, wideManifest] = some wideManifest := rfl
  have hmatches : Matches smallClient narrowManifest :=
    (mem_rows_iff.mp (hrows ▸ List.mem_cons_self :
      narrowManifest ∈ candidates smallClient [narrowManifest, wideManifest])).2
  have hspecific : MoreSpecific narrowManifest wideManifest := by
    unfold MoreSpecific
    decide
  refine ⟨rfl, hmatches, hspecific, fun h ↦ ?_⟩
  obtain ⟨-, -, hmost⟩ := h.some wideManifest hfound
  exact hmost narrowManifest List.mem_cons_self hmatches hspecific

end Userland.AutoInstall
