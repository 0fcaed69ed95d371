import Mathlib.Data.List.Count
import Mathlib.Tactic.Ring

/-!
# Texts of binary digits

A text of binary digits is a run if no one follows a zero. Its value is then that of some ones with
zeros after them, and `value_eq_leading_iff` says that there are as many ones as it has.
-/

set_option autoImplicit false
set_option relaxedAutoImplicit false

namespace Userland.Library.BitText

/-- No one is left after the ones at the start. -/
def IsRun (text : List Char) : Prop :=
  '1' ∉ text.dropWhile (· = '1')

instance decidableIsRun (text : List Char) : Decidable (IsRun text) :=
  inferInstanceAs (Decidable (¬ _))

/-- A text of zeros and ones. -/
def IsBinary (text : List Char) : Prop :=
  ∀ c ∈ text, c = '0' ∨ c = '1'

/-- The number that a text stands for. -/
def value (text : List Char) : ℕ :=
  Nat.ofDigitChars 2 text 0

/-- The value of so many digits of which the first ones are ones and the others zeros. -/
def leading (length ones : ℕ) : ℕ :=
  2 ^ length - 2 ^ (length - ones)

variable {text rest : List Char}

@[simp]
theorem isRun_one_cons : IsRun ('1' :: text) ↔ IsRun text := by
  rw [IsRun, IsRun, List.dropWhile_cons_of_pos (by rfl)]

@[simp]
theorem isRun_zero_cons : IsRun ('0' :: text) ↔ '1' ∉ text := by
  rw [IsRun, List.dropWhile_cons_of_neg (by decide), List.mem_cons, not_or,
    and_iff_right (by decide)]

/-- What follows a text with a zero in it must not have a one. -/
theorem isRun_append (htext : IsBinary text) (rest : List Char) :
    IsRun (text ++ rest) ↔ IsRun text ∧ ('0' ∈ text → '1' ∉ rest) ∧ ('0' ∉ text → IsRun rest) := by
  induction text with
  | nil => simp [IsRun]
  | cons c text ih =>
    obtain ⟨hc, hrest⟩ := List.forall_mem_cons.mp htext
    rcases hc with rfl | rfl
    · rw [List.cons_append, isRun_zero_cons, isRun_zero_cons, List.mem_append, not_or]
      simp
    · rw [List.cons_append, isRun_one_cons, isRun_one_cons, ih hrest]
      simp

/-! ### Values -/

theorem ofDigitChars_two (text : List Char) (start : ℕ) :
    Nat.ofDigitChars 2 text start = start * 2 ^ text.length + value text := by
  induction text generalizing start with
  | nil => rw [value, Nat.ofDigitChars_nil, Nat.ofDigitChars_nil, List.length_nil, pow_zero,
    mul_one, add_zero]
  | cons c text ih =>
    rw [value, Nat.ofDigitChars_cons, Nat.ofDigitChars_cons, ih, ih (2 * 0 + _),
      List.length_cons, pow_succ]
    ring

theorem value_append (text rest : List Char) :
    value (text ++ rest) = value text * 2 ^ rest.length + value rest := by
  rw [value, Nat.ofDigitChars_append, ofDigitChars_two]
  rfl

theorem value_one_cons (text : List Char) : value ('1' :: text) = 2 ^ text.length + value text := by
  have h := value_append ['1'] text
  rwa [show value ['1'] = 1 by decide, one_mul] at h

theorem value_zero_cons (text : List Char) : value ('0' :: text) = value text := by
  have h := value_append ['0'] text
  rwa [show value ['0'] = 0 by decide, zero_mul, zero_add] at h

theorem value_lt (h : IsBinary text) : value text < 2 ^ text.length := by
  induction text with
  | nil => decide
  | cons c text ih =>
    obtain ⟨hc, htext⟩ := List.forall_mem_cons.mp h
    have hlt := ih htext
    rw [List.length_cons, pow_succ]
    rcases hc with rfl | rfl
    · rw [value_zero_cons]
      omega
    · rw [value_one_cons]
      omega

theorem value_eq_zero_iff (h : IsBinary text) : value text = 0 ↔ '1' ∉ text := by
  induction text with
  | nil => decide
  | cons c text ih =>
    obtain ⟨hc, htext⟩ := List.forall_mem_cons.mp h
    rcases hc with rfl | rfl
    · rw [value_zero_cons, ih htext, List.mem_cons, not_or, and_iff_right (by decide)]
    · rw [value_one_cons]
      have hpos : 0 < 2 ^ text.length := Nat.two_pow_pos _
      exact iff_of_false (by omega) fun hnot ↦ hnot List.mem_cons_self

theorem leading_succ (length ones : ℕ) :
    leading (length + 1) (ones + 1) = 2 ^ length + leading length ones := by
  have hle : 2 ^ (length - ones) ≤ 2 ^ length := Nat.pow_le_pow_right (by decide) (Nat.sub_le _ _)
  rw [leading, leading, Nat.add_sub_add_right, pow_succ]
  omega

/-- A text has the value of some ones with zeros after them exactly if it is a run with so many
ones. -/
theorem value_eq_leading_iff (h : IsBinary text) {ones : ℕ} (hle : ones ≤ text.length) :
    value text = leading text.length ones ↔ IsRun text ∧ text.count '1' = ones := by
  induction text generalizing ones with
  | nil =>
    obtain rfl : ones = 0 := Nat.le_zero.mp hle
    decide
  | cons c text ih =>
    obtain ⟨hc, htext⟩ := List.forall_mem_cons.mp h
    rcases hc with rfl | rfl
    · rw [isRun_zero_cons, value_zero_cons, List.count_cons_of_ne (by decide), List.length_cons]
      rcases ones with - | ones
      · rw [leading, Nat.sub_zero, Nat.sub_self, value_eq_zero_iff htext, List.count_eq_zero,
          and_self_iff]
      · rw [leading_succ]
        have hlt := value_lt htext
        refine iff_of_false (by omega) fun hboth ↦ ?_
        rw [List.count_eq_zero.mpr hboth.1] at hboth
        exact absurd hboth.2 (Nat.succ_ne_zero ones).symm
    · rw [isRun_one_cons, value_one_cons, List.count_cons_self, List.length_cons]
      rcases ones with - | ones
      · rw [leading, Nat.sub_zero, Nat.sub_self]
        have hpos : 0 < 2 ^ text.length := Nat.two_pow_pos _
        exact iff_of_false (by omega) fun hboth ↦ Nat.succ_ne_zero _ hboth.2
      · rw [leading_succ, Nat.add_right_inj, Nat.add_right_cancel_iff,
          ih htext (Nat.le_of_succ_le_succ hle)]

end Userland.Library.BitText
