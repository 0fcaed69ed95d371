import Userland.AutoInstall.PublishManifest

/-!
# One order for the bounds of ranges

`validate_criteria_from_user` compares the bounds of a range that is given for a profile as texts,
and `find_colliding_criteria` compares those of a manifest as numbers. `oneOrder_iff` says for which
ranges that makes no difference, and which ranges collide exactly if a client has a value in both.

Scope: the criterion is one of the table. A value of a client is a natural number, as it is stored.
-/

set_option autoImplicit false
set_option relaxedAutoImplicit false

namespace Userland.AutoInstall

variable {c : RangeCriterion}

/-! ### The check of a profile -/

/-- Why the criteria of a profile are not taken. -/
inductive CriteriaExit
  /-- `Criteria c is not a valid range (MIN > MAX)` -/
  | reversedRange
  /-- `Criteria c is not a valid hexadecimal value`, or `is not a valid integer value` -/
  | invalidValue
deriving DecidableEq

/-- `str(sys.maxint)` -/
def maxint : Text :=
  "9223372036854775807".toList

/-- `validate_criteria_from_user` for a range criterion of the table, from the texts of its bounds.
-/
def validateRange (c : RangeCriterion) (min max : Text) : Except CriteriaExit Unit :=
  if min ≠ unbounded ∧ max ≠ unbounded ∧ List.lt max min then .error .reversedRange
  else
    match long c.base (if min = unbounded then ['0'] else min),
      long c.base (if max = unbounded then maxint else max) with
    | some _, some _ => .ok ()
    | _, _ => .error .invalidValue

/-- The text of a bound. -/
def boundText (bound : Option (Bound c)) : Text :=
  bound.elim unbounded Bound.text

theorem Bound.text_ne_unbounded (bound : Bound c) : bound.text ≠ unbounded := by
  intro h
  have hreads := bound.reads
  rw [h] at hreads
  cases c <;> cases hreads

theorem long_bound (bound : Option (Bound c)) {other : Text} (hother : (long c.base other).isSome) :
    (long c.base (if boundText bound = unbounded then other else boundText bound)).isSome := by
  cases bound with
  | none => exact hother
  | some bound =>
    have hne : boundText (some bound) ≠ unbounded := bound.text_ne_unbounded
    rw [if_neg hne, show boundText (some bound) = bound.text from rfl, bound.reads]
    rfl

/-- Bounds that are numerals are rejected for their order only. -/
theorem validateRange_iff (range : Range c) :
    validateRange c (boundText range.min) (boundText range.max) = .ok () ↔
      ∀ min max, range.min = some min → range.max = some max → ¬ List.lt max.text min.text := by
  have hzero : (long c.base ['0']).isSome := by cases c <;> rfl
  have hmax : (long c.base maxint).isSome := by cases c <;> decide
  obtain ⟨low, hlow⟩ := Option.isSome_iff_exists.mp (long_bound range.min hzero)
  obtain ⟨high, hhigh⟩ := Option.isSome_iff_exists.mp (long_bound range.max hmax)
  rw [validateRange, hlow, hhigh]
  constructor
  · intro h min max hmin hmax hlt
    rw [hmin, hmax] at h
    rw [if_pos ⟨min.text_ne_unbounded, max.text_ne_unbounded, hlt⟩] at h
    cases h
  · intro h
    rw [if_neg]
    rintro ⟨hmin, hmax, hlt⟩
    cases hmin' : range.min with
    | none => exact hmin (by rw [hmin']; rfl)
    | some min =>
      cases hmax' : range.max with
      | none => exact hmax (by rw [hmax']; rfl)
      | some max =>
        rw [hmin', hmax'] at hlt
        exact h min max hmin' hmax' hlt

/-! ### One order -/

/-- A value is in a range, where the bounds that are missing are `0` and `INFINITY`. -/
def Range.Holds (range : Range c) (value : ℤ) : Prop :=
  range.low ≤ value ∧ value ≤ range.high

/-- The bounds are in the order of the numbers. -/
def Range.Ordered (range : Range c) : Prop :=
  range.low ≤ range.high

/-- A row of the table with a range. -/
def Row.Stores (row : Row) (range : Range c) : Prop :=
  row.min c = range.min.map Bound.value ∧ row.max c = range.max.map Bound.value

/-- A range is taken exactly if its bounds are in order, and it is reported to overlap one that is
stored exactly if a client has a value in both. -/
structure OneOrder (first second : Range c) : Prop where
  taken : validateRange c (boundText first.min) (boundText first.max) = .ok () ↔ first.Ordered
  colliding : first.check = .ok () → first.Ordered → second.Ordered →
    ∀ row : Row, row.Stores second →
    (first.overlaps row = true ↔ ∃ value : ℕ, first.Holds value ∧ second.Holds value)

/-- The texts of the bounds are in the order of the numbers, and those of the stand-ins. -/
structure Range.TextsOrdered (range : Range c) : Prop where
  texts : ∀ min max, range.min = some min → range.max = some max →
    (¬ List.lt max.text min.text ↔ min.value.toInt ≤ max.value.toInt)
  low : range.min = none → 0 ≤ range.high
  high : range.max = none → range.low ≤ infinity c.base

/-- An upper bound of a range is taken for a missing one. -/
def Range.ZeroTop (range : Range c) : Prop :=
  c ≠ .mac ∧ ∃ max, range.max = some max ∧ max.value.toInt = 0

/-- A stored range has a bound, and its upper bound is `0` only where the other range begins there.
Ranges below `0` are apart. -/
structure Comparable (first second : Range c) : Prop where
  bounded : second.min = none → second.max = none → first.high < 0 ∨ infinity c.base < first.low
  zero : second.ZeroTop → 0 ≤ first.high → first.low ≤ 0 ∨ infinity c.base < first.low
  negative : first.high < 0 ∨ second.high < 0 → first.high < second.low ∨ second.high < first.low

variable {range : Range c}

theorem low_of_stores {row : Row} (h : row.Stores range) : row.low c = range.low := by
  rw [Row.low, h.1, Range.low]
  cases range.min <;> rfl

theorem high_of_stores {row : Row} (h : row.Stores range) :
    (range.ZeroTop → row.high c = infinity c.base) ∧
    (¬ range.ZeroTop → row.high c = range.high) := by
  rw [Row.high, h.2, Range.high, Range.ZeroTop]
  cases range.max with
  | none => exact ⟨fun _ ↦ rfl, fun _ ↦ rfl⟩
  | some max =>
    by_cases hzero : c ≠ .mac ∧ max.value.toInt = 0
    · exact ⟨fun _ ↦ if_pos hzero, fun hnot ↦ absurd ⟨hzero.1, max, rfl, hzero.2⟩ hnot⟩
    · refine ⟨?_, fun _ ↦ if_neg hzero⟩
      rintro ⟨hmac, other, hother, hvalue⟩
      obtain rfl := Option.some.inj hother
      exact absurd ⟨hmac, hvalue⟩ hzero

theorem populated_of_stores {row : Row} (h : row.Stores range) :
    row.populated (.range c) = true ↔ ¬ (range.min = none ∧ range.max = none) := by
  rw [Row.populated, h.1, h.2, Bool.or_eq_true, Option.isSome_map, Option.isSome_map,
    Option.isSome_iff_ne_none, Option.isSome_iff_ne_none, not_and_or]

theorem overlaps_iff {row : Row} {first second : Range c} (h : row.Stores second) :
    first.overlaps row = true ↔ ¬ (second.min = none ∧ second.max = none) ∧
      (second.low ≤ first.high ∧ first.low ≤ row.high c ∨ first.low = row.high c) := by
  rw [Range.overlaps, Bool.and_eq_true, populated_of_stores h, low_of_stores h, Bool.or_eq_true,
    Bool.and_eq_true, decide_eq_true_eq, decide_eq_true_eq, decide_eq_true_eq]

/-- Ordered ranges have a natural number in common. -/
theorem exists_common_iff {first second : Range c} (hfirst : first.Ordered)
    (hsecond : second.Ordered) :
    (∃ value : ℕ, first.Holds value ∧ second.Holds value) ↔
      0 ≤ first.high ∧ 0 ≤ second.high ∧ first.low ≤ second.high ∧ second.low ≤ first.high := by
  constructor
  · rintro ⟨value, ⟨hlow, hhigh⟩, hlow', hhigh'⟩
    omega
  · rintro ⟨hpos, hpos', hleft, hright⟩
    have hfirst : first.low ≤ first.high := hfirst
    have hsecond : second.low ≤ second.high := hsecond
    refine ⟨(max first.low second.low).toNat, ⟨?_, ?_⟩, ?_, ?_⟩ <;> omega

theorem infinity_pos (c : RangeCriterion) : 0 < infinity c.base := by
  cases c <;> decide

theorem high_eq_zero_of_zeroTop (h : range.ZeroTop) : range.high = 0 := by
  obtain ⟨-, max, hmax, hzero⟩ := h
  rw [Range.high, hmax]
  exact hzero

/-- When a report about a stored range is right. -/
theorem reported_iff {row : Row} {first second : Range c} (hstores : row.Stores second)
    (hfirst : first.Ordered) (hsecond : second.Ordered) :
    (first.overlaps row = true ↔ ∃ value : ℕ, first.Holds value ∧ second.Holds value) ↔
    Comparable first second := by
  have hinfinity := infinity_pos c
  have hfirst' : first.low ≤ first.high := hfirst
  have hsecond' : second.low ≤ second.high := hsecond
  rw [overlaps_iff hstores, exists_common_iff hfirst hsecond]
  by_cases hnone : second.min = none ∧ second.max = none
  · have hlow : second.low = 0 := by rw [Range.low, hnone.1]; rfl
    have hhigh : second.high = infinity c.base := by rw [Range.high, hnone.2]; rfl
    have htop : ¬ second.ZeroTop := by
      rintro ⟨-, max, hmax, -⟩
      rw [hnone.2] at hmax
      cases hmax
    constructor
    · intro h
      refine ⟨fun _ _ ↦ ?_, fun hzero ↦ absurd hzero htop, fun hneg ↦ ?_⟩
      · by_contra hnot
        rw [not_or, Int.not_lt, Int.not_lt] at hnot
        exact (h.mpr (by omega)).1 hnone
      · omega
    · intro h
      have hbounded := h.bounded hnone.1 hnone.2
      exact iff_of_false (fun hnot ↦ hnot.1 hnone) (by omega)
  · have hbounded : second.min = none → second.max = none → first.high < 0 ∨
        infinity c.base < first.low :=
      fun hmin hmax ↦ absurd ⟨hmin, hmax⟩ hnone
    rw [and_iff_right hnone]
    by_cases hzero : second.ZeroTop
    · rw [(high_of_stores hstores).1 hzero]
      have hhigh := high_eq_zero_of_zeroTop hzero
      constructor
      · intro h
        exact ⟨hbounded, fun _ hpos ↦ by omega, fun hneg ↦ by omega⟩
      · intro h
        have htop := h.zero hzero
        have hneg := h.negative
        omega
    · rw [(high_of_stores hstores).2 hzero]
      constructor
      · intro h
        exact ⟨hbounded, fun htop ↦ absurd htop hzero, fun hneg ↦ by omega⟩
      · intro h
        have hneg := h.negative
        omega

theorem exists_stores (range : Range c) : ∃ row : Row, row.Stores range := by
  refine ⟨⟨[], 0, fun other ↦ if h : other = c then h ▸ range.min.map Bound.value else none,
    fun other ↦ if h : other = c then h ▸ range.max.map Bound.value
      else none, fun _ ↦ none⟩, ?_, ?_⟩
  · exact dif_pos rfl
  · exact dif_pos rfl

theorem taken_iff (range : Range c) :
    (validateRange c (boundText range.min) (boundText range.max) = .ok () ↔ range.Ordered) ↔
    range.TextsOrdered := by
  rw [validateRange_iff, Range.Ordered, Range.low, Range.high]
  have hinfinity := infinity_pos c
  constructor
  · intro h
    refine ⟨fun min max hmin hmax ↦ ?_, fun hmin ↦ ?_, fun hmax ↦ ?_⟩
    · rw [hmin, hmax] at h
      rw [← show (_ ↔ min.value.toInt ≤ max.value.toInt) from h]
      constructor
      · intro hnot low high hlow hhigh
        obtain rfl := Option.some.inj hlow
        obtain rfl := Option.some.inj hhigh
        exact hnot
      · exact fun hall ↦ hall min max rfl rfl
    · rw [hmin] at h
      exact h.mp fun min max hsome ↦ absurd hsome (Option.some_ne_none min).symm
    · rw [hmax] at h
      exact h.mp fun min max _ hsome ↦ absurd hsome (Option.some_ne_none max).symm
  · intro h
    cases hmin : range.min with
    | none =>
      refine iff_of_true (fun min max hsome ↦ absurd hsome (Option.some_ne_none min).symm) ?_
      exact h.low hmin
    | some min =>
      cases hmax : range.max with
      | none =>
        refine iff_of_true (fun min max _ hsome ↦ absurd hsome (Option.some_ne_none max).symm) ?_
        have hlow := h.high hmax
        rw [Range.low, hmin] at hlow
        exact hlow
      | some max =>
        rw [show (Option.elim (some min) 0 (fun bound ↦ bound.value.toInt) ≤
          Option.elim (some max) (infinity c.base) fun bound ↦ bound.value.toInt) =
            (min.value.toInt ≤ max.value.toInt) from rfl, ← h.texts min max hmin hmax]
        constructor
        · exact fun hall ↦ hall min max rfl rfl
        · intro hnot low high hlow hhigh
          obtain rfl := Option.some.inj hlow
          obtain rfl := Option.some.inj hhigh
          exact hnot

/-- One order is used for all checks exactly if the texts of the bounds are in the order of the
numbers, and the bounds that are stored are not taken for missing ones. -/
theorem oneOrder_iff (first second : Range c) : OneOrder first second ↔ first.TextsOrdered ∧
    (first.check = .ok () → first.Ordered → second.Ordered → Comparable first second) := by
  constructor
  · rintro ⟨htaken, hcolliding⟩
    refine ⟨(taken_iff first).mp htaken, fun hcheck hfirst hsecond ↦ ?_⟩
    obtain ⟨row, hrow⟩ := exists_stores second
    exact (reported_iff hrow hfirst hsecond).mp (hcolliding hcheck hfirst hsecond row hrow)
  · rintro ⟨htexts, hcomparable⟩
    refine ⟨(taken_iff first).mpr htexts, fun hcheck hfirst hsecond row hrow ↦ ?_⟩
    exact (reported_iff hrow hfirst hsecond).mpr (hcomparable hcheck hfirst hsecond)

/-! ### A range of sizes of memory -/

theorem mem_ne_mac : RangeCriterion.mem ≠ .mac := by
  decide

/-- A bound of a size of memory. -/
def memBound (text : Text) (value : ℤ) (h : long 10 text = some value) : Bound .mem where
  text := text
  value := ⟨value, fun h ↦ absurd h mem_ne_mac⟩
  reads := h

theorem long_900 : long 10 "900".toList = some 900 := by
  decide

theorem long_1024 : long 10 "1024".toList = some 1024 := by
  decide

/-- `900 1024` -/
def gigabyte : Range .mem where
  min := some (memBound "900".toList 900 long_900)
  max := some (memBound "1024".toList 1024 long_1024)

/-- A range from `900` to `1024` is rejected. -/
theorem not_oneOrder_gigabyte : ¬ OneOrder gigabyte gigabyte := by
  intro h
  have hordered : gigabyte.Ordered := by
    show (900 : ℤ) ≤ 1024
    decide
  have hrejected : validateRange .mem (boundText gigabyte.min) (boundText gigabyte.max) =
      .error .reversedRange := by
    decide
  exact absurd (hrejected.symm.trans (h.taken.mpr hordered)) (by decide)

end Userland.AutoInstall
