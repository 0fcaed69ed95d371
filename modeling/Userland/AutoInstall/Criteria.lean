import Mathlib.Algebra.Ring.Int.Defs
import Mathlib.Data.Char
import Userland.Library.Ranking
import Userland.Pkg.Text

/-!
# The table of manifests

The rows of the table `manifests` of an install service, the criteria of its columns and the
comparisons that queries make with them. A hardware address is compared by the text of its
hexadecimal digits, which is the order of the addresses (`leValue_iff`).

Scope: the table is the one that the service is created with. A hardware address has six bytes, and
the other bounds are integers.
-/

set_option autoImplicit false
set_option relaxedAutoImplicit false

namespace Userland.AutoInstall

open Userland.Library

abbrev Text := List Char

/-! ### Criteria and columns -/

/-- The criteria that are ranges. -/
inductive RangeCriterion
  | mac
  | ipv4
  | network
  | mem
deriving DecidableEq

/-- The criteria that are lists of values. -/
inductive ListCriterion
  | arch
  | hostname
  | cpu
  | platform
  | zonename
deriving DecidableEq

inductive Criterion
  | range (c : RangeCriterion)
  | list (c : ListCriterion)
deriving DecidableEq

/-- The columns of the table that are criteria: `MINc` and `MAXc` of a range, and the lists. -/
inductive Column
  | min (c : RangeCriterion)
  | max (c : RangeCriterion)
  | list (c : ListCriterion)
deriving DecidableEq

/-- The columns in the order of the table. -/
def Column.all : List Column :=
  [.list .arch, .list .hostname, .min .mac, .max .mac, .min .ipv4, .max .ipv4, .list .cpu,
    .list .platform, .min .network, .max .network, .min .mem, .max .mem, .list .zonename]

theorem Column.mem_all (column : Column) : column ∈ Column.all := by
  cases column with
  | min c => cases c <;> decide
  | max c => cases c <;> decide
  | list c => cases c <;> decide

/-- The criterion of a column: its name without `MIN` and `MAX`. -/
def Column.criterion : Column → Criterion
  | .min c => .range c
  | .max c => .range c
  | .list c => .list c

/-! ### Bounds -/

/-- A bound: an integer, and the number of an address of six bytes where it is a hardware address.
-/
structure RangeCriterion.Value (c : RangeCriterion) where
  toInt : ℤ
  valid : c = .mac → 0 ≤ toInt ∧ toInt < 16 ^ 12

def hexDigit (d : ℕ) : Char :=
  if d < 10 then Char.ofNat (48 + d) else Char.ofNat (55 + d)

theorem hexDigit_lt_iff {d e : ℕ} (hd : d < 16) (he : e < 16) :
    hexDigit d < hexDigit e ↔ d < e := by
  have h : ∀ d e : Fin 16, hexDigit d < hexDigit e ↔ d < e := by decide
  exact h ⟨d, hd⟩ ⟨e, he⟩

/-- `HEX(address)`. -/
def hexText (address : ℤ) : Text :=
  (digits 16 12 address.toNat).map hexDigit

theorem hexText_lt_iff {first second : ℤ} (hfirst : 0 ≤ first ∧ first < 16 ^ 12)
    (hsecond : 0 ≤ second ∧ second < 16 ^ 12) :
    hexText first < hexText second ↔ first < second := by
  have hfirst' : first.toNat < 16 ^ 12 := by omega
  have hsecond' : second.toNat < 16 ^ 12 := by omega
  unfold hexText
  rw [map_lt_map_of_forall (p := fun d ↦ d < 16) (fun d e ↦ hexDigit_lt_iff)
    (fun d ↦ mem_digits_lt (by decide) hfirst') fun d ↦ mem_digits_lt (by decide) hsecond',
    digits_lt_iff (by decide) 12 hfirst' hsecond']
  omega

/-- `first <= second` in a query, for `HEX` texts where the criterion is a hardware address. -/
def leValue {c : RangeCriterion} (first second : c.Value) : Bool :=
  if c = .mac then !decide (hexText second.toInt < hexText first.toInt)
  else decide (first.toInt ≤ second.toInt)

theorem leValue_iff {c : RangeCriterion} (first second : c.Value) :
    leValue first second = true ↔ first.toInt ≤ second.toInt := by
  unfold leValue
  by_cases hc : c = .mac
  · rw [if_pos hc, Bool.not_eq_true', decide_eq_false_iff_not,
      hexText_lt_iff (second.valid hc) (first.valid hc), not_lt]
  · rw [if_neg hc, decide_eq_true_iff]

/-! ### Texts -/

/-- `sanitizeSQL(text)`. -/
def sanitizeSQL (text : Text) : Text :=
  text.filter fun c ↦ !(['%', '*', ',', ';', '(', ')'].contains c)

/-- `text.split()`. -/
def words (text : Text) : List Text :=
  (text.splitOnP Pkg.Text.isSpace).filter fun word ↦ !word.isEmpty

/-- `CRIT_LIST_CASE_SENSITIVE`. -/
def caseSensitive (c : ListCriterion) : Bool :=
  c = .zonename

/-- A value as it is compared for a criterion. -/
def folded (c : ListCriterion) (value : Text) : Text :=
  if caseSensitive c then value else Pkg.Text.lower value

/-- `is_in_list(crit_name, value, value_list)`, with white space as the separator. -/
def isInList (c : ListCriterion) (value valueList : Option Text) : Bool :=
  match value, valueList with
  | some value, some valueList =>
    if caseSensitive c then (words valueList).contains value
    else ((words valueList).map Pkg.Text.lower).contains (Pkg.Text.lower value)
  | _, _ => false

theorem isInList_iff {c : ListCriterion} {value valueList : Text} :
    isInList c (some value) (some valueList) = true ↔
    ∃ word ∈ words valueList, folded c word = folded c value := by
  unfold isInList folded
  by_cases hcase : caseSensitive c = true
  · simp [hcase]
  · simp [hcase]

/-! ### Rows -/

/-- A row of the table: the name and the instance of a manifest, and its criteria. -/
structure Row where
  name : Text
  inst : ℕ
  min : (c : RangeCriterion) → Option c.Value
  max : (c : RangeCriterion) → Option c.Value
  list : ListCriterion → Option Text

/-- Whether a column is not `NULL`. -/
def Row.isSet (row : Row) : Column → Bool
  | .min c => (row.min c).isSome
  | .max c => (row.max c).isSome
  | .list c => (row.list c).isSome

/-- Whether a criterion is populated. -/
def Row.populated (row : Row) : Criterion → Bool
  | .range c => (row.min c).isSome || (row.max c).isSome
  | .list c => (row.list c).isSome

theorem Row.populated_criterion {row : Row} {column : Column} (h : row.isSet column = true) :
    row.populated column.criterion = true := by
  cases column <;> simp_all [Row.isSet, Row.populated, Column.criterion]

theorem Row.exists_isSet {row : Row} {c : Criterion} (h : row.populated c = true) :
    ∃ column, row.isSet column = true := by
  cases c with
  | range c =>
    rcases Bool.or_eq_true_iff.mp h with hmin | hmax
    · exact ⟨.min c, hmin⟩
    · exact ⟨.max c, hmax⟩
  | list c => exact ⟨.list c, h⟩

end Userland.AutoInstall
