import Mathlib.Algebra.Group.Int.Defs
import Mathlib.Data.Int.Notation
import Mathlib.Data.List.Induction
import Mathlib.Tactic.IntervalCases
import Userland.Pkg.Text

/-!
# Whole numbers as texts

`str(n)` and `int(text)`. A number that was printed is read back (`parseInt_strInt`), and the text
of a number has digits and a sign in it only (`mem_strInt`). A row of digits without padding is the
text of its value (`toDigits_ofDigitChars`).
-/

set_option autoImplicit false
set_option relaxedAutoImplicit false

namespace Userland.Pkg.Text

/-- `str(n)`. -/
def strInt (n : ℤ) : List Char :=
  if n < 0 then '-' :: Nat.toDigits 10 n.natAbs else Nat.toDigits 10 n.natAbs

/-- The number that a row of digits stands for. -/
def digitsValue (digits : List Char) : Option ℕ :=
  if digits ≠ [] ∧ digits.all Char.isDigit then some (Nat.ofDigitChars 10 digits 0) else none

/-- `int(text)`: digits, with a sign in front or not, between blanks; `none` is `ValueError`. -/
def parseInt (text : List Char) : Option ℤ :=
  match strip text with
  | '-' :: digits => (digitsValue digits).map fun n : ℕ ↦ -(n : ℤ)
  | '+' :: digits => (digitsValue digits).map fun n : ℕ ↦ (n : ℤ)
  | digits => (digitsValue digits).map fun n : ℕ ↦ (n : ℤ)

theorem isDigit_of_mem_toDigits {n : ℕ} {c : Char} (h : c ∈ Nat.toDigits 10 n) : c.isDigit = true :=
  Nat.isDigit_of_mem_toDigits (by decide) (by decide) h

theorem digitChar_of_isDigit {c : Char} (h : c.isDigit = true) :
    c.toNat - '0'.toNat < 10 ∧ Nat.digitChar (c.toNat - '0'.toNat) = c := by
  rw [Char.isDigit, Bool.and_eq_true, decide_eq_true_eq, decide_eq_true_eq] at h
  have hlow : 48 ≤ c.toNat := UInt32.le_iff_toNat_le.mp h.1
  have hhigh : c.toNat ≤ 57 := UInt32.le_iff_toNat_le.mp h.2
  have hc : Char.ofNat c.toNat = c := Char.ofNat_toNat c
  generalize c.toNat = n at hlow hhigh hc
  subst hc
  interval_cases n <;> decide

/-- A row of digits without padding is what its value is printed as. -/
theorem toDigits_ofDigitChars {digits : List Char} (hne : digits ≠ [])
    (hall : ∀ c ∈ digits, c.isDigit = true) (hzero : digits.head? = some '0' → digits = ['0']) :
    Nat.toDigits 10 (Nat.ofDigitChars 10 digits 0) = digits := by
  induction digits using List.reverseRecOn with
  | nil => exact absurd rfl hne
  | append_singleton front last ih =>
    obtain ⟨hlt, hlast⟩ := digitChar_of_isDigit (hall last (by simp))
    rw [Nat.ofDigitChars_append, Nat.ofDigitChars_cons, Nat.ofDigitChars_nil]
    cases front with
    | nil =>
      rw [Nat.ofDigitChars_nil, Nat.mul_zero, Nat.zero_add, Nat.toDigits_of_lt_base hlt, hlast]
      rfl
    | cons first rest =>
      have hhead : (first :: rest).head? ≠ some '0' := fun h ↦ by
        have := hzero (by simpa using h)
        simp at this
      have hfront := ih (by simp) (fun c hc ↦ hall c (List.mem_append_left _ hc))
        (fun h ↦ absurd h hhead)
      have hpos : 0 < Nat.ofDigitChars 10 (first :: rest) 0 := by
        refine Nat.pos_of_ne_zero fun hvalue ↦ hhead ?_
        rw [← hfront, hvalue]
        rfl
      rw [← Nat.toDigits_append_toDigits (by decide) hpos hlt, hfront,
        Nat.toDigits_of_lt_base hlt, hlast]

theorem mem_strInt {n : ℤ} {c : Char} (h : c ∈ strInt n) : c.isDigit = true ∨ c = '-' := by
  unfold strInt at h
  split_ifs at h
  · exact (List.mem_cons.mp h).symm.imp_left isDigit_of_mem_toDigits
  · exact Or.inl (isDigit_of_mem_toDigits h)

theorem strInt_ne_nil (n : ℤ) : strInt n ≠ [] := by
  unfold strInt
  split_ifs
  · exact List.cons_ne_nil _ _
  · exact Nat.toDigits_ne_nil

theorem notMem_strInt {c : Char} (hdigit : c.isDigit = false) (hsign : c ≠ '-') (n : ℤ) :
    c ∉ strInt n := by
  intro h
  rcases mem_strInt h with h | h
  · exact Bool.false_ne_true (hdigit.symm.trans h)
  · exact hsign h

theorem not_isSpace_of_mem_strInt {n : ℤ} {c : Char} (h : c ∈ strInt n) : isSpace c = false := by
  by_contra hspace
  rw [Bool.not_eq_false, isSpace, decide_eq_true_eq] at hspace
  simp only [List.mem_cons, List.not_mem_nil, or_false] at hspace
  refine notMem_strInt ?_ ?_ n h <;> rcases hspace with rfl | rfl | rfl | rfl | rfl | rfl <;> decide

theorem strip_of_forall {text : List Char} (h : ∀ c ∈ text, isSpace c = false) :
    strip text = text := by
  have hfront : text.dropWhile isSpace = text :=
    List.dropWhile_eq_self_iff.mpr fun hpos ↦ by simp [h _ (List.getElem_mem hpos)]
  rw [strip, hfront, List.rdropWhile_eq_self_iff]
  intro hne
  simp [h _ (List.getLast_mem hne)]

theorem digitsValue_toDigits (n : ℕ) : digitsValue (Nat.toDigits 10 n) = some n := by
  have hall : (Nat.toDigits 10 n).all Char.isDigit = true :=
    List.all_eq_true.mpr fun c hc ↦ isDigit_of_mem_toDigits hc
  rw [digitsValue, if_pos ⟨Nat.toDigits_ne_nil, hall⟩, Nat.ofDigitChars_ten_toDigits]

/-- A number that was printed is read back. -/
theorem parseInt_strInt (n : ℤ) : parseInt (strInt n) = some n := by
  rw [parseInt, strip_of_forall fun c hc ↦ not_isSpace_of_mem_strInt hc, strInt]
  by_cases hneg : n < 0
  · rw [if_pos hneg]
    change Option.map (fun n : ℕ ↦ -(n : ℤ)) (digitsValue (Nat.toDigits 10 n.natAbs)) = some n
    rw [digitsValue_toDigits, Option.map_some, Option.some.injEq]
    omega
  · rw [if_neg hneg]
    split
    · next digits heq =>
      have hminus : '-' ∈ Nat.toDigits 10 n.natAbs := heq ▸ List.mem_cons_self
      exact absurd (isDigit_of_mem_toDigits hminus) (by decide)
    · next digits heq =>
      have hplus : '+' ∈ Nat.toDigits 10 n.natAbs := heq ▸ List.mem_cons_self
      exact absurd (isDigit_of_mem_toDigits hplus) (by decide)
    · rw [digitsValue_toDigits, Option.map_some, Option.some.injEq]
      omega

/-- A row of digits is read as its value. -/
theorem parseInt_of_digits {digits : List Char} (h : ∀ c ∈ digits, c.isDigit = true) :
    parseInt digits = (digitsValue digits).map fun n : ℕ ↦ (n : ℤ) := by
  have hspace : ∀ c ∈ digits, isSpace c = false := by
    intro c hc
    by_contra hspace
    rw [Bool.not_eq_false, isSpace, decide_eq_true_eq] at hspace
    have hdigit := h c hc
    simp only [List.mem_cons, List.not_mem_nil, or_false] at hspace
    rcases hspace with rfl | rfl | rfl | rfl | rfl | rfl <;> exact absurd hdigit (by decide)
  rw [parseInt, strip_of_forall hspace]
  split
  · next rest => exact absurd (h '-' List.mem_cons_self) (by decide)
  · next rest => exact absurd (h '+' List.mem_cons_self) (by decide)
  · rfl

/-- A row of digits is its value, printed with zeros in front up to its length. -/
theorem leftpad_toDigits {digits : List Char} (hne : digits ≠ [])
    (hall : ∀ c ∈ digits, c.isDigit = true) :
    (Nat.toDigits 10 (Nat.ofDigitChars 10 digits 0)).leftpad digits.length '0' = digits := by
  induction digits with
  | nil => exact absurd rfl hne
  | cons c rest ih =>
    by_cases hzero : c = '0' ∧ rest ≠ []
    · obtain ⟨rfl, hrest⟩ := hzero
      have hvalue : Nat.ofDigitChars 10 ('0' :: rest) 0 = Nat.ofDigitChars 10 rest 0 := by
        rw [Nat.ofDigitChars_cons]
        rfl
      have hpad := ih hrest fun d hd ↦ hall d (List.mem_cons_of_mem _ hd)
      have hlength := congrArg List.length hpad
      rw [List.length_leftpad] at hlength
      rw [hvalue, List.length_cons, List.leftpad, Nat.succ_sub (by omega), List.replicate_succ,
        List.cons_append]
      exact congrArg ('0' :: ·) hpad
    · have hdigits := toDigits_ofDigitChars (List.cons_ne_nil c rest) hall fun hhead ↦ by
        obtain rfl : c = '0' := Option.some.inj hhead
        rw [not_and_not_right.mp hzero rfl]
      rw [hdigits, List.leftpad, Nat.sub_self]
      rfl

end Userland.Pkg.Text
