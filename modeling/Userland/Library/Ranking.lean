import Mathlib.Algebra.GroupWithZero.Nat
import Mathlib.Data.List.Lex
import Mathlib.Data.List.MinMax

/-!
# Rankings by several columns

Rows are ranked by a list of columns, the first column in which two rows differ deciding. A ranking
by the values of the columns (`fine`) is compared with a ranking by a coarser view of them
(`coarse`): the first row of the fine ranking is a first row of the coarse one if and only if no row
outranks all of these (`argmax_coarse_iff`), and `fine_lt_iff` says how a row that is not ahead in
the coarse ranking outranks another in the fine one.
-/

set_option autoImplicit false
set_option relaxedAutoImplicit false

namespace Userland.Library

variable {α γ κ μ : Type} [LinearOrder κ] [LinearOrder μ]

/-- The first difference decides. -/
theorem map_lt_map_iff {columns : List γ} {f g : γ → κ} :
    columns.map f < columns.map g ↔ ∃ before c after, columns = before ++ c :: after ∧
      (∀ d ∈ before, f d = g d) ∧ f c < g c := by
  induction columns with
  | nil => simp
  | cons first rest ih =>
    rw [List.map_cons, List.map_cons, List.cons_lt_cons_iff, ih]
    constructor
    · rintro (hlt | ⟨heq, before, c, after, rfl, hbefore, hlt⟩)
      · exact ⟨[], first, rest, rfl, by simp, hlt⟩
      · exact ⟨first :: before, c, after, rfl, List.forall_mem_cons.mpr ⟨heq, hbefore⟩, hlt⟩
    · rintro ⟨before, c, after, hcolumns, hbefore, hlt⟩
      cases before with
      | nil =>
        rw [List.nil_append, List.cons.injEq] at hcolumns
        exact .inl (hcolumns.1 ▸ hlt)
      | cons d before =>
        rw [List.cons_append, List.cons.injEq] at hcolumns
        rw [List.forall_mem_cons] at hbefore
        exact .inr ⟨hcolumns.1 ▸ hbefore.1, before, c, after, hcolumns.2, hbefore.2, hlt⟩

section TwoRankings

variable {fine : γ → α → κ} {coarse : γ → α → μ} {columns : List γ} {a b : α}

/-- Where the coarse ranking does not put `b` behind `a`, `a` outranks `b` in the fine one by a
column that looks alike in both. -/
theorem fine_lt_iff (hmono : ∀ c x y, fine c x ≤ fine c y → coarse c x ≤ coarse c y)
    (hcoarse : ¬ columns.map (coarse · b) < columns.map (coarse · a)) :
    columns.map (fine · b) < columns.map (fine · a) ↔
    ∃ before c after, columns = before ++ c :: after ∧
      (∀ d ∈ before, fine d b = fine d a) ∧ fine c b < fine c a ∧ coarse c b = coarse c a := by
  rw [map_lt_map_iff]
  refine ⟨fun h ↦ ?_, fun h ↦ ?_⟩
  · obtain ⟨before, c, after, hcolumns, hbefore, hlt⟩ := h
    refine ⟨before, c, after, hcolumns, hbefore, hlt, ?_⟩
    refine le_antisymm (hmono c b a hlt.le) (not_lt.mp fun hless ↦ hcoarse ?_)
    refine map_lt_map_iff.mpr ⟨before, c, after, hcolumns, fun d hd ↦ ?_, hless⟩
    exact le_antisymm (hmono d b a (hbefore d hd).le) (hmono d a b (hbefore d hd).ge)
  · obtain ⟨before, c, after, hcolumns, hbefore, hlt, -⟩ := h
    exact ⟨before, c, after, hcolumns, hbefore, hlt⟩

end TwoRankings

/-- The first row of the fine ranking is a first row of the coarse ranking if and only if every row
fails to outrank one of those. -/
theorem argmax_coarse_iff [DecidableLT κ] {fine : α → κ} {coarse : α → μ}
    (hcoarse : ∀ a b, fine a = fine b → coarse a = coarse b) {rows : List α} {best : α}
    (hbest : best ∈ rows.argmax fine) :
    (∀ row ∈ rows, ¬ coarse best < coarse row) ↔
      ∀ row ∈ rows, ∃ top ∈ rows, (∀ other ∈ rows, ¬ coarse top < coarse other) ∧
      ¬ fine top < fine row := by
  constructor
  · intro h row hrow
    exact ⟨best, List.argmax_mem hbest, h, List.not_lt_of_mem_argmax hrow hbest⟩
  · intro h
    obtain ⟨top, htop, hmost, hnot⟩ := h best (List.argmax_mem hbest)
    have hfine : fine top = fine best :=
      le_antisymm (not_lt.mp (List.not_lt_of_mem_argmax htop hbest)) (not_lt.mp hnot)
    rw [← hcoarse top best hfine]
    exact hmost

/-- Lists are ordered as their images are, for values whose images are ordered as they are. -/
theorem map_lt_map_of_forall {f : κ → μ} {p : κ → Prop}
    (hf : ∀ x y, p x → p y → (f x < f y ↔ x < y))
    {first second : List κ} (hfirst : ∀ x ∈ first, p x) (hsecond : ∀ x ∈ second, p x) :
    first.map f < second.map f ↔ first < second := by
  induction first generalizing second with
  | nil => cases second <;> simp
  | cons x first ih =>
    cases second with
    | nil => simp
    | cons y second =>
      rw [List.forall_mem_cons] at hfirst hsecond
      have hxy := hf x y hfirst.1 hsecond.1
      have hyx := hf y x hsecond.1 hfirst.1
      have heq : f x = f y ↔ x = y := by
        refine ⟨fun h ↦ ?_, congrArg f⟩
        rw [h] at hxy hyx
        exact le_antisymm (not_lt.mp fun hlt ↦ lt_irrefl _ (hyx.mpr hlt))
          (not_lt.mp fun hlt ↦ lt_irrefl _ (hxy.mpr hlt))
      rw [List.map_cons, List.map_cons, List.cons_lt_cons_iff, List.cons_lt_cons_iff, hxy, heq,
        ih hfirst.2 hsecond.2]

/-! ### Digits of one width -/

/-- The digits of a number to a base, in a field of some width. -/
def digits (base : ℕ) : ℕ → ℕ → List ℕ
  | 0, _ => []
  | width + 1, n => n / base ^ width :: digits base width (n % base ^ width)

theorem mem_digits_lt {base width n d : ℕ} (hbase : 0 < base) (hn : n < base ^ width)
    (hd : d ∈ digits base width n) : d < base := by
  induction width generalizing n with
  | zero => exact absurd hd List.not_mem_nil
  | succ width ih =>
    rw [digits, List.mem_cons] at hd
    rcases hd with rfl | hd
    · rw [pow_succ] at hn
      exact Nat.div_lt_of_lt_mul hn
    · exact ih (Nat.mod_lt _ (Nat.pow_pos hbase)) hd

/-- Fields of digits are ordered as the numbers are. -/
theorem digits_lt_iff {base : ℕ} (hbase : 0 < base) (width : ℕ) {m n : ℕ} (hm : m < base ^ width)
    (hn : n < base ^ width) : digits base width m < digits base width n ↔ m < n := by
  induction width generalizing m n with
  | zero =>
    rw [pow_zero, Nat.lt_one_iff] at hm hn
    simp [digits, hm, hn]
  | succ width ih =>
    have hpow := Nat.pow_pos (n := width) hbase
    rw [digits, digits, List.cons_lt_cons_iff, ih (Nat.mod_lt _ hpow) (Nat.mod_lt _ hpow)]
    have hmsplit := Nat.div_add_mod m (base ^ width)
    have hnsplit := Nat.div_add_mod n (base ^ width)
    constructor
    · rintro (hlt | ⟨heq, hlt⟩)
      · exact Nat.lt_of_div_lt_div hlt
      · rw [heq] at hmsplit
        omega
    · intro hlt
      rcases (Nat.div_le_div_right hlt.le : m / base ^ width ≤ n / base ^ width).lt_or_eq with h | h
      · exact .inl h
      · refine .inr ⟨h, ?_⟩
        rw [h] at hmsplit
        omega

end Userland.Library
