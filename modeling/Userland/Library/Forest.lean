import Mathlib.Data.List.Nodup
import Mathlib.Logic.Relation
import Mathlib.Order.WellFounded

/-!
# Forests given by child lists

`IsForest` says of child lists that every node occurs at most once in at most one of them and that
no descent is infinite. Shrinking the lists keeps a forest (`IsForest.mono`), and so does the
insertion of a node that no list holds and below which the new parent does not lie
(`IsForest.insert`). The subtrees of two children of a node are disjoint (`IsForest.disjoint`).
-/

set_option autoImplicit false
set_option relaxedAutoImplicit false

namespace Userland.Library

variable {N : Type} {children children' : N → List N}

/-- `x` is `n` or lies below it. -/
def BelowEq (children : N → List N) (n x : N) : Prop :=
  Relation.ReflTransGen (fun p c ↦ c ∈ children p) n x

/-- `x` lies below `n`. -/
def Below (children : N → List N) (n x : N) : Prop :=
  Relation.TransGen (fun p c ↦ c ∈ children p) n x

/-- Every node is held once, by one node, and there are no cycles. -/
structure IsForest (children : N → List N) : Prop where
  nodup : ∀ p, (children p).Nodup
  unique : ∀ {p q c}, c ∈ children p → c ∈ children q → p = q
  wf : WellFounded fun c p ↦ c ∈ children p

namespace IsForest

/-- Child lists that lose nodes stay a forest. -/
theorem mono (h : IsForest children) (hsub : ∀ p, (children' p).Sublist (children p)) :
    IsForest children' where
  nodup p := (h.nodup p).sublist (hsub p)
  unique hp hq := h.unique ((hsub _).mem hp) ((hsub _).mem hq)
  wf := Subrelation.wf (fun hc ↦ (hsub _).mem hc) h.wf

/-- No node lies below itself. -/
theorem not_below_self (h : IsForest children) (n : N) : ¬ Below children n n := fun hn ↦
  h.wf.transGen.irrefl.irrefl n (Relation.transGen_swap.mp hn)

theorem not_belowEq_of_mem (h : IsForest children) {p c : N} (hc : c ∈ children p) :
    ¬ BelowEq children c p := fun hp ↦
  h.not_below_self p (Relation.TransGen.head' hc hp)

/-- A node that no list holds may be inserted, unless the new parent lies below it. -/
theorem insert (h : IsForest children) {target node : N} (hfree : ∀ p, node ∉ children p)
    (habove : ¬ BelowEq children node target)
    (hlist : (children' target).Perm (node :: children target))
    (hother : ∀ p, p ≠ target → children' p = children p) : IsForest children' := by
  have hmem : ∀ {p c}, c ∈ children' p → (p = target ∧ c = node) ∨ c ∈ children p := by
    intro p c hc
    by_cases hp : p = target
    · subst hp
      rcases List.mem_cons.mp (hlist.mem_iff.mp hc) with rfl | hc
      · exact .inl ⟨rfl, rfl⟩
      · exact .inr hc
    · rw [hother p hp] at hc
      exact .inr hc
  -- what does not reach the new parent has the descents it had
  have hacc : ∀ x, ¬ BelowEq children x target → Acc (fun c p ↦ c ∈ children' p) x := by
    intro x
    induction x using h.wf.induction with
    | h x ih =>
      intro hx
      refine Acc.intro x fun y hy ↦ ?_
      rcases hmem hy with ⟨rfl, -⟩ | hy
      · exact absurd Relation.ReflTransGen.refl hx
      · exact ih y hy fun hbelow ↦ hx (Relation.ReflTransGen.head hy hbelow)
  refine ⟨fun p ↦ ?_, fun {p q c} hp hq ↦ ?_, ⟨fun x ↦ ?_⟩⟩
  · by_cases hp : p = target
    · subst hp
      exact hlist.nodup_iff.mpr (List.nodup_cons.mpr ⟨hfree p, h.nodup p⟩)
    · rw [hother p hp]
      exact h.nodup p
  · rcases hmem hp with ⟨rfl, rfl⟩ | hp <;> rcases hmem hq with ⟨rfl, heq⟩ | hq
    · rfl
    · exact absurd hq (hfree q)
    · exact absurd (heq ▸ hp) (hfree p)
    · exact h.unique hp hq
  · induction x using h.wf.induction with
    | h x ih =>
      refine Acc.intro x fun y hy ↦ ?_
      rcases hmem hy with ⟨rfl, rfl⟩ | hy
      · exact hacc y habove
      · exact ih y hy

/-- Of two nodes above a third, one is above the other. -/
theorem belowEq_total (h : IsForest children) {a b x : N} (ha : BelowEq children a x)
    (hb : BelowEq children b x) : BelowEq children a b ∨ BelowEq children b a := by
  induction ha with
  | refl => exact .inr hb
  | @tail y x hay hyx ih =>
    rcases Relation.ReflTransGen.cases_tail hb with rfl | ⟨z, hbz, hzx⟩
    · exact .inl (hay.tail hyx)
    · rw [h.unique hyx hzx] at ih
      exact ih hbz

theorem not_belowEq_sibling (h : IsForest children) {p c d : N} (hc : c ∈ children p)
    (hd : d ∈ children p) (hne : c ≠ d) : ¬ BelowEq children c d := by
  intro hcd
  rcases Relation.ReflTransGen.cases_tail hcd with heq | ⟨z, hcz, hzd⟩
  · exact hne heq.symm
  · rw [h.unique hzd hd] at hcz
    exact h.not_belowEq_of_mem hc hcz

/-- The subtrees of two children are disjoint. -/
theorem disjoint (h : IsForest children) {p c d x : N} (hc : c ∈ children p) (hd : d ∈ children p)
    (hne : c ≠ d) (hcx : BelowEq children c x) : ¬ BelowEq children d x := by
  intro hdx
  rcases h.belowEq_total hcx hdx with hcd | hdc
  · exact h.not_belowEq_sibling hc hd hne hcd
  · exact h.not_belowEq_sibling hd hc hne.symm hdc

end IsForest

end Userland.Library
