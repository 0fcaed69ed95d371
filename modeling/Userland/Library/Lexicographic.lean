import Mathlib.Data.Prod.Lex

/-!
# Comparisons that go on at ties

A comparison written as a chain of tests, each of which settles a component or leaves the decision
to the next one, is the comparison of a lexicographic product: a chain of three components for `<`
(`chainLt_iff`), and a three-way comparison whose ties are broken by one more component
(`breakTies_eq_cmp`).
-/

set_option autoImplicit false
set_option relaxedAutoImplicit false

namespace Userland.Library

variable {α β γ κ : Type} [LinearOrder α] [LinearOrder β] [LinearOrder γ] [LinearOrder κ]

section Chain

variable {a a' : α} {b b' : β} {c c' : γ} {firstLt firstEq secondLt secondEq thirdLt : Bool}

/-- The components are compared one after the other, and a difference settles the comparison. -/
theorem chainLt_iff (hfirstLt : firstLt = true ↔ a < a') (hfirstEq : firstEq = true ↔ a = a')
    (hsecondLt : secondLt = true ↔ b < b') (hsecondEq : secondEq = true ↔ b = b')
    (hthirdLt : thirdLt = true ↔ c < c') :
    (if firstLt then true
      else if !firstEq then false
      else if secondLt then true
      else if !secondEq then false
      else thirdLt) = true ↔ toLex (a, toLex (b, c)) < toLex (a', toLex (b', c')) := by
  simp only [Prod.Lex.toLex_lt_toLex, ← hfirstLt, ← hfirstEq, ← hsecondLt, ← hsecondEq, ← hthirdLt]
  have hfirst : firstLt = true → firstEq = false := fun h ↦
    Bool.eq_false_iff.mpr fun heq ↦ absurd (hfirstEq.mp heq) (hfirstLt.mp h).ne
  cases firstLt <;> cases firstEq <;> cases secondLt <;> cases secondEq <;> simp_all

end Chain

section Ties

variable {k k' : κ} {a a' : α} {keyLt keyGt tieLt tieGt : Bool}

/-- Ties of one component are broken by another one. -/
theorem breakTies_eq_cmp (hkeyLt : keyLt = true ↔ k < k') (hkeyGt : keyGt = true ↔ k' < k)
    (htieLt : tieLt = true ↔ a < a') (htieGt : tieGt = true ↔ a' < a) :
    (if keyLt then Ordering.lt
      else if keyGt then .gt
      else if tieLt then .lt
      else if tieGt then .gt
      else .eq) = cmp (toLex (k, a)) (toLex (k', a')) := by
  generalize hcmp : cmp (toLex (k, a)) (toLex (k', a')) = order
  symm
  simp only [hkeyLt, hkeyGt, htieLt, htieGt]
  split_ifs with hlt hgt hbreak hbreak'
  · rw [← hcmp, cmp_eq_lt_iff, Prod.Lex.toLex_lt_toLex]
    exact Or.inl hlt
  · rw [← hcmp, cmp_eq_gt_iff, Prod.Lex.toLex_lt_toLex]
    exact Or.inl hgt
  · rw [← hcmp, cmp_eq_lt_iff, Prod.Lex.toLex_lt_toLex]
    exact Or.inr ⟨le_antisymm (not_lt.mp hgt) (not_lt.mp hlt), hbreak⟩
  · rw [← hcmp, cmp_eq_gt_iff, Prod.Lex.toLex_lt_toLex]
    exact Or.inr ⟨le_antisymm (not_lt.mp hlt) (not_lt.mp hgt), hbreak'⟩
  · rw [← hcmp, cmp_eq_eq_iff, toLex_inj, Prod.mk.injEq]
    exact ⟨le_antisymm (not_lt.mp hgt) (not_lt.mp hlt),
      le_antisymm (not_lt.mp hbreak') (not_lt.mp hbreak)⟩

end Ties

end Userland.Library
