import Userland.AutoInstall.FindManifest

/-!
# Ranges that are given

The ranges of criteria that are published or set: the numerals of their bounds, the checks of
`find_colliding_criteria`, and whether a row of the table has a range that overlaps them.

Scope: the criteria have been read and prepared by `prepValuesAndRanges`, which pads the numbers of
an address and takes its colons or dots out. A bound is a numeral that the table stores as an
integer.
-/

set_option autoImplicit false
set_option relaxedAutoImplicit false

namespace Userland.AutoInstall

open Userland.Library

/-! ### Numerals -/

def digitValue (c : Char) : Option ℕ :=
  if '0' ≤ c ∧ c ≤ '9' then some (c.toNat - 48)
  else if 'a' ≤ c ∧ c ≤ 'f' then some (c.toNat - 87)
  else if 'A' ≤ c ∧ c ≤ 'F' then some (c.toNat - 55)
  else none

def digitsValue (base : ℕ) : Text → Option ℕ
  | [] => none
  | text => text.foldlM (fun n c ↦ (digitValue c).bind fun d ↦ if d < base then some (base * n + d)
    else none) 0

/-- `long(text, base)`. -/
def long (base : ℕ) : Text → Option ℤ
  | '-' :: text => (digitsValue base text).map fun n ↦ -(n : ℤ)
  | '+' :: text => (digitsValue base text).map fun n ↦ (n : ℤ)
  | text => (digitsValue base text).map fun n ↦ (n : ℤ)

/-- The base that the bounds of a range are written to. -/
def RangeCriterion.base (c : RangeCriterion) : ℕ :=
  if c = .mac then 16 else 10

/-- `long(INFINITY)`, of the digits `18446744073709551615`. -/
def infinity (base : ℕ) : ℤ :=
  if base = 16 then 0x18446744073709551615 else 18446744073709551615

/-! ### Criteria that are given -/

/-- A bound that is given: a numeral. -/
structure Bound (c : RangeCriterion) where
  text : Text
  value : c.Value
  reads : long c.base text = some value.toInt

/-- A range that is given; a bound is `none` for `unbounded`. -/
structure Range (c : RangeCriterion) where
  min : Option (Bound c)
  max : Option (Bound c)

/-- Why an operation is rejected. -/
inductive Rejection
  /-- `Criteria c is not a valid range, MIN and MAX unbounded.` -/
  | unboundedRange (c : RangeCriterion)
  /-- `Criteria c is not a valid range, MIN > MAX.` -/
  | reversedRange (c : RangeCriterion)
  /-- `Manifest has a range collision with manifest:name/inst in criteria: c!` -/
  | rangeCollision (name : Text) (inst : ℕ) (c : Criterion)
  /-- `Manifest has same criteria as manifest: name/inst!` -/
  | sameCriteria (name : Text) (inst : ℕ)
  /-- `Name is already registered with this service.` -/
  | alreadyRegistered (name : Text)
  /-- `install service does not contain the specified manifest`, or it is missing from the published
  area. -/
  | notPublished (name : Text)
  /-- `TypeError` -/
  | typeError

/-! ### `find_colliding_criteria` -/

section Ranges

variable {c : RangeCriterion}

def Range.low (range : Range c) : ℤ :=
  range.min.elim 0 fun bound ↦ bound.value.toInt

def Range.high (range : Range c) : ℤ :=
  range.max.elim (infinity c.base) fun bound ↦ bound.value.toInt

/-- The checks of a range. -/
def Range.check (range : Range c) : Except Rejection Unit :=
  if range.low = 0 ∧ range.high = infinity 10 then .error (.unboundedRange c)
  else if (range.low ≠ 0 ∧ range.high ≠ infinity 10) ∧
    range.low > range.high then .error (.reversedRange c)
  else .ok ()

/-- `db_criterion[0]` -/
def Row.low (row : Row) (c : RangeCriterion) : ℤ :=
  (row.min c).elim 0 RangeCriterion.Value.toInt

/-- `db_criterion[1]`. The integer `0` is taken for `NULL`. -/
def Row.high (row : Row) (c : RangeCriterion) : ℤ :=
  match row.max c with
  | none => infinity c.base
  | some bound => if c ≠ .mac ∧ bound.toInt = 0 then infinity c.base else bound.toInt

/-- Whether a row has the range, and overlaps it. -/
def Range.overlaps (range : Range c) (row : Row) : Bool :=
  row.populated (.range c) && (row.low c ≤ range.high && range.low ≤
    row.high c || range.low = row.high c)

end Ranges

/-! ### Texts -/

def unbounded : Text := ['u', 'n', 'b', 'o', 'u', 'n', 'd', 'e', 'd']

/-- `" ".join(values)`. -/
def join (values : List Text) : Text :=
  List.intercalate [' '] values

end Userland.AutoInstall
