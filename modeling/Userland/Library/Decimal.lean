import Mathlib.Data.Int.Log
import Mathlib.Data.Rat.Floor
import Mathlib.Tactic.Linarith
import Mathlib.Tactic.NormNum
import Mathlib.Tactic.Positivity
import Mathlib.Tactic.Ring

/-!
# Decimal numbers of a precision

Numbers are rounded towards zero to a number of decimal digits (`roundDown`), and to whole numbers
(`trunc`). Rounding keeps the order (`roundDown_mono`) and the numbers that have no more digits
(`roundDown_of_digits`), and goes with powers of ten (`roundDown_zpow_mul`).
-/

set_option autoImplicit false
set_option relaxedAutoImplicit false

namespace Userland.Library.Decimal

/-! ### Whole numbers -/

/-- A number without its fraction. -/
def trunc (x : ℚ) : ℤ :=
  if x < 0 then ⌈x⌉ else ⌊x⌋

theorem trunc_of_nonneg {x : ℚ} (h : 0 ≤ x) : trunc x = ⌊x⌋ :=
  if_neg (not_lt.mpr h)

theorem trunc_neg (x : ℚ) : trunc (-x) = -trunc x := by
  rcases lt_trichotomy x 0 with h | rfl | h
  · rw [trunc, trunc, if_neg (by linarith), if_pos h, Int.floor_neg]
  · rfl
  · rw [trunc, trunc, if_pos (by linarith), if_neg (by linarith), Int.ceil_neg]

theorem trunc_nonneg {x : ℚ} (h : 0 ≤ x) : 0 ≤ trunc x := by
  rw [trunc_of_nonneg h]
  exact Int.floor_nonneg.mpr h

theorem trunc_mono {x y : ℚ} (h : x ≤ y) : trunc x ≤ trunc y := by
  rcases lt_or_ge x 0 with hx | hx
  · rcases lt_or_ge y 0 with hy | hy
    · rw [trunc, trunc, if_pos hx, if_pos hy]
      exact Int.ceil_mono h
    · refine le_trans ?_ (trunc_nonneg hy)
      rw [trunc, if_pos hx]
      exact Int.ceil_le.mpr (by exact_mod_cast hx.le)
  · rw [trunc_of_nonneg hx, trunc_of_nonneg (hx.trans h)]
    exact Int.floor_mono h

theorem trunc_intCast (n : ℤ) : trunc n = n := by
  rw [trunc, Int.ceil_intCast, Int.floor_intCast, ite_self]

theorem trunc_le {x : ℚ} (h : 0 ≤ x) : (trunc x : ℚ) ≤ x := by
  rw [trunc_of_nonneg h]
  exact Int.floor_le x

theorem lt_trunc_add_one {x : ℚ} (h : 0 ≤ x) : x < trunc x + 1 := by
  rw [trunc_of_nonneg h]
  exact Int.lt_floor_add_one x

/-- A whole number is reached by a number exactly if it is reached without the fraction. -/
theorem le_trunc_iff {x : ℚ} {n : ℤ} (hn : 0 < n) : n ≤ trunc x ↔ (n : ℚ) ≤ x := by
  constructor
  · intro h
    rcases lt_or_ge x 0 with hx | hx
    · have hle := trunc_mono hx.le
      rw [show trunc 0 = 0 from rfl] at hle
      omega
    · exact (Int.cast_le.mpr h).trans (trunc_le hx)
  · intro h
    rw [← trunc_intCast n]
    exact trunc_mono h

/-! ### Digits -/

section Round

variable {prec : ℕ} {x y : ℚ}

/-- The unit of the last digit of a number. -/
def ulp (prec : ℕ) (x : ℚ) : ℚ :=
  10 ^ (Int.log 10 |x| + 1 - prec)

/-- A number without the digits that are too many. -/
def roundDown (prec : ℕ) (x : ℚ) : ℚ :=
  trunc (x / ulp prec x) * ulp prec x

theorem ulp_pos (prec : ℕ) (x : ℚ) : 0 < ulp prec x :=
  zpow_pos (by norm_num) _

theorem zpow_log_le (h : 0 < x) : (10 : ℚ) ^ Int.log 10 |x| ≤ x := by
  rw [abs_of_pos h]
  exact_mod_cast Int.zpow_log_le_self (by norm_num : 1 < 10) h

theorem lt_zpow_log (h : 0 < x) : x < (10 : ℚ) ^ (Int.log 10 |x| + 1) := by
  rw [abs_of_pos h]
  exact_mod_cast Int.lt_zpow_succ_log_self (by norm_num : 1 < 10) x

theorem ulp_eq (prec : ℕ) (x : ℚ) : ulp prec x = 10 ^ Int.log 10 |x| * (10 * (10 ^ prec)⁻¹) := by
  rw [ulp, zpow_sub₀ (by norm_num), zpow_add₀ (by norm_num), zpow_one, zpow_natCast]
  ring

theorem roundDown_zero (prec : ℕ) : roundDown prec 0 = 0 := by
  rw [roundDown, zero_div, show trunc 0 = 0 from rfl, Int.cast_zero, zero_mul]

theorem roundDown_neg (prec : ℕ) (x : ℚ) : roundDown prec (-x) = -roundDown prec x := by
  rw [roundDown, roundDown, ulp, ulp, abs_neg, neg_div, trunc_neg, Int.cast_neg, neg_mul]

theorem roundDown_nonneg (h : 0 ≤ x) : 0 ≤ roundDown prec x :=
  mul_nonneg (Int.cast_nonneg (trunc_nonneg (div_nonneg h (ulp_pos prec x).le))) (ulp_pos prec x).le

theorem roundDown_le (h : 0 ≤ x) : roundDown prec x ≤ x := by
  rw [roundDown, ← le_div_iff₀ (ulp_pos prec x)]
  exact trunc_le (div_nonneg h (ulp_pos prec x).le)

theorem lt_roundDown_add_ulp (h : 0 ≤ x) : x < roundDown prec x + ulp prec x := by
  have hlt := lt_trunc_add_one (div_nonneg h (ulp_pos prec x).le)
  rw [div_lt_iff₀ (ulp_pos prec x), add_mul, one_mul] at hlt
  exact hlt

theorem roundDown_nonpos (h : x ≤ 0) : roundDown prec x ≤ 0 := by
  have hnonneg : 0 ≤ roundDown prec (-x) := roundDown_nonneg (neg_nonneg.mpr h)
  rw [roundDown_neg] at hnonneg
  linarith

/-- The digits that are left out are a small part of a number. -/
theorem mul_lt_roundDown (h : 0 < x) : x * (1 - 10 * (10 ^ prec)⁻¹) < roundDown prec x := by
  have hlt : x < roundDown prec x + ulp prec x := lt_roundDown_add_ulp h.le
  have hulp : ulp prec x ≤ x * (10 * (10 ^ prec)⁻¹) := by
    rw [ulp_eq]
    exact mul_le_mul_of_nonneg_right (zpow_log_le h) (by positivity)
  linarith

/-- A number with no more digits stays as it is. -/
theorem roundDown_of_digits {m e : ℤ} (h : |m| < 10 ^ prec) :
    roundDown prec (m * 10 ^ e) = m * 10 ^ e := by
  by_cases hm : m = 0
  · rw [hm, Int.cast_zero, zero_mul, roundDown_zero]
  have hpow : (0 : ℚ) < 10 ^ e := zpow_pos (by norm_num) _
  have habs : |(m * 10 ^ e : ℚ)| = |(m : ℚ)| * 10 ^ e := by rw [abs_mul, abs_of_pos hpow]
  have hpos : 0 < |(m * 10 ^ e : ℚ)| := abs_pos.mpr (mul_ne_zero (Int.cast_ne_zero.mpr hm) hpow.ne')
  have hlt : |(m * 10 ^ e : ℚ)| < (10 : ℕ) ^ ((prec : ℤ) + e) := by
    rw [habs, Nat.cast_ofNat, zpow_add₀ (by norm_num), zpow_natCast]
    exact mul_lt_mul_of_pos_right (by exact_mod_cast h) hpow
  have hlog := (Int.lt_zpow_iff_log_lt (by norm_num : 1 < 10) hpos).mp hlt
  obtain ⟨k, hk⟩ :=
    Int.eq_ofNat_of_zero_le (show 0 ≤ e - (Int.log 10 |(m * 10 ^ e : ℚ)| + 1 - prec) by omega)
  have hquot : (m * 10 ^ e : ℚ) / ulp prec (m * 10 ^ e) = ((m * 10 ^ k : ℤ) : ℚ) := by
    rw [ulp, mul_div_assoc, ← zpow_sub₀ (by norm_num), hk, Int.cast_mul, Int.cast_pow]
    rfl
  rw [roundDown, hquot, trunc_intCast, ← hquot, div_mul_cancel₀ _ (ulp_pos _ _).ne']

theorem exists_digits (prec : ℕ) (x : ℚ) :
    ∃ m : ℤ, |m| < 10 ^ prec ∧ roundDown prec x = m * 10 ^ (Int.log 10 |x| + 1 - prec) := by
  refine ⟨trunc (x / ulp prec x), ?_, rfl⟩
  have hnonneg : ∀ y : ℚ, 0 ≤ y → |trunc (y / ulp prec y)| < 10 ^ prec := by
    intro y hy
    rw [abs_of_nonneg (trunc_nonneg (div_nonneg hy (ulp_pos prec y).le))]
    rcases hy.eq_or_lt with rfl | hpos
    · rw [zero_div]
      exact pow_pos (by norm_num) _
    have hlt : y / ulp prec y < (10 : ℚ) ^ prec := by
      rw [div_lt_iff₀ (ulp_pos prec y), ulp, ← zpow_natCast, ← zpow_add₀ (by norm_num)]
      refine (lt_zpow_log hpos).trans_eq ?_
      congr 1
      omega
    have htrunc := (trunc_le (div_nonneg hy (ulp_pos prec y).le)).trans_lt hlt
    exact_mod_cast htrunc
  rcases le_total 0 x with hx | hx
  · exact hnonneg x hx
  · have hneg := hnonneg (-x) (neg_nonneg.mpr hx)
    rw [ulp, abs_neg, neg_div, trunc_neg, abs_neg] at hneg
    exact hneg

theorem roundDown_roundDown (prec : ℕ) (x : ℚ) :
    roundDown prec (roundDown prec x) = roundDown prec x := by
  obtain ⟨m, hm, heq⟩ := exists_digits prec x
  rw [heq]
  exact roundDown_of_digits hm

theorem roundDown_mono_of_pos (hprec : 0 < prec) (hx : 0 < x) (h : x ≤ y) :
    roundDown prec x ≤ roundDown prec y := by
  have hy := hx.trans_le h
  rcases (Int.log_mono_right (b := 10) hx h).eq_or_lt with heq | hlt
  · have hulp : ulp prec x = ulp prec y := by rw [ulp, ulp, abs_of_pos hx, abs_of_pos hy, heq]
    rw [roundDown, roundDown, hulp]
    exact mul_le_mul_of_nonneg_right
      (Int.cast_le.mpr (trunc_mono (div_le_div_of_nonneg_right h (ulp_pos prec y).le)))
        (ulp_pos prec y).le
  · refine (roundDown_le hx.le).trans ?_
    have hpower : x ≤ 10 ^ Int.log 10 |y| := by
      refine (lt_zpow_log hx).le.trans (zpow_le_zpow_right₀ (by norm_num) ?_)
      rw [abs_of_pos hx, abs_of_pos hy]
      omega
    refine hpower.trans ?_
    obtain ⟨k, hk⟩ := Nat.exists_eq_succ_of_ne_zero hprec.ne'
    have hquot : ((10 ^ k : ℤ) : ℚ) ≤ y / ulp prec y := by
      rw [le_div_iff₀ (ulp_pos prec y), ulp, Int.cast_pow, Int.cast_ofNat, ← zpow_natCast,
        ← zpow_add₀ (by norm_num), hk]
      refine le_trans (le_of_eq ?_) (zpow_log_le hy)
      congr 1
      push_cast
      ring
    have htrunc := Int.cast_le (R := ℚ).mpr (trunc_mono hquot)
    rw [trunc_intCast] at htrunc
    rw [roundDown]
    refine le_trans (le_of_eq ?_) (mul_le_mul_of_nonneg_right htrunc (ulp_pos prec y).le)
    rw [ulp, Int.cast_pow, Int.cast_ofNat, ← zpow_natCast, ← zpow_add₀ (by norm_num), hk]
    congr 1
    push_cast
    ring

/-- Rounding keeps the order. -/
theorem roundDown_mono (hprec : 0 < prec) (h : x ≤ y) : roundDown prec x ≤ roundDown prec y := by
  rcases lt_or_ge 0 x with hx | hx
  · exact roundDown_mono_of_pos hprec hx h
  · rcases lt_or_ge y 0 with hy | hy
    · have hle := roundDown_mono_of_pos hprec (neg_pos.mpr hy) (neg_le_neg h)
      rw [roundDown_neg, roundDown_neg] at hle
      exact neg_le_neg_iff.mp hle
    · exact (roundDown_nonpos hx).trans (roundDown_nonneg hy)

/-- A power of ten is no change of the digits. -/
theorem roundDown_zpow_mul (k : ℤ) (x : ℚ) :
    roundDown prec (10 ^ k * x) = 10 ^ k * roundDown prec x := by
  rcases eq_or_ne x 0 with rfl | hx
  · rw [mul_zero, roundDown_zero, mul_zero]
  have hpow : (0 : ℚ) < 10 ^ k := zpow_pos (by norm_num) _
  have hpos : 0 < |x| := abs_pos.mpr hx
  have hlog : Int.log 10 |10 ^ k * x| = k + Int.log 10 |x| := by
    rw [abs_mul, abs_of_pos hpow]
    have hle := zpow_log_le hpos
    have hlt := lt_zpow_log hpos
    rw [abs_abs] at hle hlt
    refine le_antisymm (Int.lt_add_one_iff.mp ?_) ?_
    · refine (Int.lt_zpow_iff_log_lt (by norm_num : 1 < 10) (mul_pos hpow hpos)).mp ?_
      rw [Nat.cast_ofNat, add_assoc, zpow_add₀ (by norm_num)]
      exact mul_lt_mul_of_pos_left hlt hpow
    · refine (Int.zpow_le_iff_le_log (by norm_num : 1 < 10) (mul_pos hpow hpos)).mp ?_
      rw [Nat.cast_ofNat, zpow_add₀ (by norm_num)]
      exact mul_le_mul_of_nonneg_left hle hpow.le
  have hulp : ulp prec (10 ^ k * x) = 10 ^ k * ulp prec x := by
    rw [ulp, ulp, hlog, ← zpow_add₀ (by norm_num)]
    congr 1
    ring
  rw [roundDown, roundDown, hulp, mul_div_mul_left _ _ hpow.ne']
  ring

end Round

end Userland.Library.Decimal
