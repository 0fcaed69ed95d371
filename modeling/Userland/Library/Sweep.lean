import Mathlib

/-!
# What a sorted list of ends leaves free

The ends of ranges are put into one list, with a lower and an upper bound around it, and after
sorting every second step of the list is taken to be free. If the ranges are apart, these steps hold
exactly the points that are in no range (`exists_mem_pairs_iff`), and each goes from the end of a
range, or the lower bound, to the start of one, or the upper bound (`eq_or_exists_of_mem_pairs`).
-/

set_option autoImplicit false
set_option relaxedAutoImplicit false

namespace Userland.Library.Sweep

/-- The first and second element, the third and fourth, and so on. -/
def pairs {α : Type} : List α → List (α × α)
  | a :: b :: rest => (a, b) :: pairs rest
  | _ => []

section Pairs

variable {α : Type} {l : List α} {a b : α}

theorem mem_pairs_iff : (a, b) ∈ pairs l ↔ ∃ before after, l = before ++ a :: b :: after ∧
    Even before.length := by
  induction l using pairs.induct with
  | case1 c d rest ih =>
    rw [pairs, List.mem_cons, ih]
    constructor
    · rintro (heq | ⟨before, after, rfl, heven⟩)
      · cases heq
        exact ⟨[], rest, rfl, Even.zero⟩
      · exact ⟨c :: d :: before, after, rfl, by simpa [Nat.even_add_one] using heven⟩
    · rintro ⟨before, after, hlist, heven⟩
      match before with
      | [] =>
        cases hlist
        exact Or.inl rfl
      | [x] => simp at heven
      | x :: y :: before =>
        cases hlist
        exact Or.inr ⟨before, after, rfl, by simpa [Nat.even_add_one] using heven⟩
  | case2 l h =>
    have hpairs : pairs l = [] := by
      unfold pairs
      split
      · next c d rest => exact (h c d rest rfl).elim
      · rfl
    rw [hpairs]
    refine iff_of_false List.not_mem_nil ?_
    rintro ⟨before, after, rfl, -⟩
    match before with
    | [] => exact h a b after rfl
    | [x] => exact h x a (b :: after) rfl
    | x :: y :: before => exact h x y (before ++ a :: b :: after) rfl

theorem pairwise_pairs {R : α → α → Prop} (h : l.Pairwise R) :
    (pairs l).Pairwise fun p q ↦ R p.2 q.1 := by
  induction l using pairs.induct with
  | case1 c d rest ih =>
    rw [pairs]
    obtain ⟨hc, hd, hrest⟩ : (∀ x ∈ d :: rest, R c x) ∧ (∀ x ∈ rest, R d x) ∧ rest.Pairwise R := by
      rw [List.pairwise_cons, List.pairwise_cons] at h
      exact h
    refine List.pairwise_cons.mpr ⟨fun q hq ↦ ?_, ih hrest⟩
    obtain ⟨before, after, hlist, -⟩ := mem_pairs_iff.mp hq
    exact hd q.1 (by rw [hlist]; exact List.mem_append_right _ List.mem_cons_self)
  | case2 l hnot =>
    unfold pairs
    split
    · next c d rest => exact (hnot c d rest rfl).elim
    · exact List.Pairwise.nil

end Pairs

/-- The ends of all ranges. -/
def ends {α : Type} (ranges : List (α × α)) : List α :=
  ranges.flatMap fun r ↦ [r.1, r.2]

theorem mem_ends {α : Type} {ranges : List (α × α)} {x : α} :
    x ∈ ends ranges ↔ ∃ r ∈ ranges, x = r.1 ∨ x = r.2 := by
  simp [ends]

variable {α : Type} [LinearOrder α]

/-- The ends of all ranges in order, between two bounds. -/
def usage (lo hi : α) (ranges : List (α × α)) : List α :=
  lo :: ((ends ranges).insertionSort (· ≤ ·) ++ [hi])

/-- Ranges within bounds. -/
structure Within (lo hi : α) (ranges : List (α × α)) : Prop where
  bounds : lo ≤ hi
  ranges : ∀ r ∈ ranges, lo ≤ r.1 ∧ r.1 ≤ r.2 ∧ r.2 ≤ hi

section Sweep

variable {lo hi a b y : α} {ranges : List (α × α)}

theorem mem_usage {x : α} : x ∈ usage lo hi ranges ↔ x = lo ∨ x ∈ ends ranges ∨ x = hi := by
  simp [usage]

theorem Within.sorted (h : Within lo hi ranges) : (usage lo hi ranges).Pairwise (· ≤ ·) := by
  have hmem : ∀ x ∈ ends ranges, lo ≤ x ∧ x ≤ hi := by
    intro x hx
    obtain ⟨r, hr, rfl | rfl⟩ := mem_ends.mp hx
    · exact ⟨(h.ranges r hr).1, (h.ranges r hr).2.1.trans (h.ranges r hr).2.2⟩
    · exact ⟨(h.ranges r hr).1.trans (h.ranges r hr).2.1, (h.ranges r hr).2.2⟩
  refine List.pairwise_cons.mpr ⟨fun x hx ↦ ?_, ?_⟩
  · rcases List.mem_append.mp hx with hx | hx
    · exact (hmem x ((List.mem_insertionSort _).mp hx)).1
    · exact (List.mem_singleton.mp hx) ▸ h.bounds
  · refine List.pairwise_append.mpr ⟨List.pairwise_insertionSort _ _, List.pairwise_singleton _ _,
      fun x hx z hz ↦ ?_⟩
    exact (List.mem_singleton.mp hz) ▸ (hmem x ((List.mem_insertionSort _).mp hx)).2

/-- How many elements of a sorted list are up to a point between two neighbours. -/
theorem countP_le_of_sorted {before after : List α}
    (h : (before ++ a :: b :: after).Pairwise (· ≤ ·)) (ha : a ≤ y)
    (hb : y < b) : (before ++ a :: b :: after).countP (· ≤ y) = before.length + 1 := by
  obtain ⟨-, hrest, hbefore⟩ := List.pairwise_append.mp h
  obtain ⟨hafterA, hafter⟩ := List.pairwise_cons.mp hrest
  have hle : before.countP (· ≤ y) = before.length :=
    List.countP_eq_length.mpr fun x hx ↦
      decide_eq_true ((hbefore x hx a List.mem_cons_self).trans ha)
  have hgt : (b :: after).countP (· ≤ y) = 0 := by
    refine List.countP_eq_zero.mpr fun x hx ↦ ?_
    have hbx : b ≤ x := (List.mem_cons.mp hx).elim (fun heq ↦
      heq.ge) ((List.pairwise_cons.mp hafter).1 x)
    exact fun hxy ↦ absurd (of_decide_eq_true hxy) (not_le_of_gt (hb.trans_le hbx))
  have hcons : (a :: b :: after).countP (· ≤ y) = (b :: after).countP (· ≤ y) + 1 :=
    List.countP_cons_of_pos (decide_eq_true ha)
  rw [List.countP_append, hle, hcons, hgt]

/-- Every range that is ended by a point has two ends up to it, and every range around it has one.
-/
theorem countP_ends (h : ∀ r ∈ ranges, r.1 ≤ r.2) (y : α) : (ends ranges).countP (· ≤ y) =
    ranges.countP (fun r ↦ r.1 ≤ y ∧ y < r.2) + 2 * ranges.countP (fun r ↦ r.2 ≤ y) := by
  induction ranges with
  | nil => rfl
  | cons r rest ih =>
    have hr := h r List.mem_cons_self
    have hends : ends (r :: rest) = r.1 :: r.2 :: ends rest := rfl
    rw [hends, List.countP_cons, List.countP_cons, List.countP_cons, List.countP_cons,
      ih fun r' hr' ↦ h r' (List.mem_cons_of_mem _ hr')]
    by_cases h1 : r.1 ≤ y
    · by_cases h2 : r.2 ≤ y
      · simp [h1, h2, not_lt.mpr h2]
        omega
      · simp [h1, h2, not_le.mp h2]
        omega
    · have h2 : ¬ r.2 ≤ y := fun h2 ↦ h1 (hr.trans h2)
      simp [h1, h2]

/-- A point between two neighbours is in an even number of ranges exactly if these are a pair. -/
theorem even_length_iff (hwithin : Within lo hi ranges) {before after : List α}
    (hlist : usage lo hi ranges = before ++ a :: b :: after) (ha : a ≤ y) (hb : y < b) :
    Even before.length ↔ Even (ranges.countP fun r ↦ r.1 ≤ y ∧ y < r.2) := by
  have hsorted := hwithin.sorted
  have hlo : lo ≤ y := by
    have hle : lo ≤ a := by
      have hmem : a ∈ usage lo hi ranges := by
        rw [hlist]
        exact List.mem_append_right _ List.mem_cons_self
      exact (List.mem_cons.mp hmem).elim (fun heq ↦ heq.ge) ((List.pairwise_cons.mp hsorted).1 a)
    exact hle.trans ha
  have hhi : y < hi := by
    have hmem : b ∈ usage lo hi ranges := by
      rw [hlist]
      exact List.mem_append_right _ (List.mem_cons_of_mem _ List.mem_cons_self)
    refine hb.trans_le ?_
    rcases mem_usage.mp hmem with rfl | hends | rfl
    · exact hwithin.bounds
    · obtain ⟨r, hr, rfl | rfl⟩ := mem_ends.mp hends
      · exact (hwithin.ranges r hr).2.1.trans (hwithin.ranges r hr).2.2
      · exact (hwithin.ranges r hr).2.2
    · exact le_rfl
  have hcount := countP_le_of_sorted (hlist ▸ hsorted) ha hb
  have hcons : (usage lo hi ranges).countP (· ≤ y) =
      ((ends ranges).insertionSort (· ≤ ·) ++ [hi]).countP (· ≤ y) + 1 :=
    List.countP_cons_of_pos (decide_eq_true hlo)
  rw [← hlist, hcons, List.countP_append,
    (List.perm_insertionSort _ _).countP_eq, countP_ends fun r hr ↦ (hwithin.ranges r hr).2.1,
    List.countP_singleton, if_neg (by simpa using hhi), add_zero] at hcount
  have hlength : before.length = ranges.countP (fun r ↦ r.1 ≤ y ∧ y < r.2) +
      2 * ranges.countP (fun r ↦ r.2 ≤ y) := by omega
  rw [hlength, Nat.even_add]
  have htwice : Even (2 * ranges.countP fun r ↦ r.2 ≤ y) := ⟨_, Nat.two_mul _⟩
  exact ⟨fun h ↦ h.mpr htwice, fun h ↦ iff_of_true h htwice⟩

/-- No point is in two ranges. -/
def Apart (ranges : List (α × α)) : Prop :=
  ranges.Pairwise fun r s ↦ Disjoint (Set.Ico r.1 r.2) (Set.Ico s.1 s.2)

theorem Apart.countP_le_one (h : Apart ranges) (y : α) :
    ranges.countP (fun r ↦ r.1 ≤ y ∧ y < r.2) ≤ 1 := by
  induction ranges with
  | nil => exact Nat.zero_le _
  | cons r rest ih =>
    obtain ⟨hr, hrest⟩ := List.pairwise_cons.mp h
    rw [List.countP_cons]
    split_ifs with hy
    · have hnone : rest.countP (fun r ↦ r.1 ≤ y ∧ y < r.2) = 0 :=
          List.countP_eq_zero.mpr fun s hs hsy ↦
        Set.disjoint_left.mp (hr s hs) (of_decide_eq_true hy) (of_decide_eq_true hsy)
      omega
    · exact (ih hrest)

/-- A point between two neighbours is in no range exactly if these are a pair. -/
theorem Apart.even_length_iff (h : Apart ranges) (hwithin : Within lo hi ranges)
    {before after : List α}
    (hlist : usage lo hi ranges = before ++ a :: b :: after) (ha : a ≤ y) (hb : y < b) :
    Even before.length ↔ ∀ r ∈ ranges, y ∉ Set.Ico r.1 r.2 := by
  rw [Sweep.even_length_iff hwithin hlist ha hb]
  have hle := h.countP_le_one y
  have hzero : Even (ranges.countP fun r ↦ r.1 ≤ y ∧ y < r.2) ↔
      ranges.countP (fun r ↦ r.1 ≤ y ∧ y < r.2) = 0 := by
    constructor
    · rintro ⟨half, hhalf⟩
      omega
    · intro heq
      rw [heq]
      exact Even.zero
  rw [hzero, List.countP_eq_zero]
  simp only [decide_eq_true_eq, Set.mem_Ico]

theorem bounds_of_mem_pairs (hwithin : Within lo hi ranges)
    (h : (a, b) ∈ pairs (usage lo hi ranges)) :
    lo ≤ a ∧ a ≤ b ∧ b ≤ hi := by
  obtain ⟨before, after, hlist, -⟩ := mem_pairs_iff.mp h
  have hsorted := hwithin.sorted
  have hab : a ≤ b := by
    rw [hlist] at hsorted
    exact (List.pairwise_cons.mp (List.pairwise_append.mp hsorted).2.1).1 b List.mem_cons_self
  have hinside : ∀ x ∈ usage lo hi ranges, lo ≤ x ∧ x ≤ hi := by
    intro x hx
    rcases mem_usage.mp hx with rfl | hends | rfl
    · exact ⟨le_rfl, hwithin.bounds⟩
    · obtain ⟨r, hr, rfl | rfl⟩ := mem_ends.mp hends
      · exact ⟨(hwithin.ranges r hr).1, (hwithin.ranges r hr).2.1.trans (hwithin.ranges r hr).2.2⟩
      · exact ⟨(hwithin.ranges r hr).1.trans (hwithin.ranges r hr).2.1, (hwithin.ranges r hr).2.2⟩
    · exact ⟨hwithin.bounds, le_rfl⟩
  refine ⟨(hinside a ?_).1, hab, (hinside b ?_).2⟩ <;> rw [hlist]
  · exact List.mem_append_right _ List.mem_cons_self
  · exact List.mem_append_right _ (List.mem_cons_of_mem _ List.mem_cons_self)

/-- Nothing of a range is in a pair. -/
theorem Apart.disjoint_of_mem_pairs (happart : Apart ranges) (hwithin : Within lo hi ranges)
    (h : (a, b) ∈ pairs (usage lo hi ranges)) {r : α × α} (hr : r ∈ ranges) :
    Disjoint (Set.Ico a b) (Set.Ico r.1 r.2) := by
  obtain ⟨before, after, hlist, heven⟩ := mem_pairs_iff.mp h
  exact Set.disjoint_left.mpr fun y hy ↦
    (happart.even_length_iff hwithin hlist hy.1 hy.2).mp heven r hr

/-- No end of a range is inside of a pair. -/
theorem le_or_le_of_mem_pairs (hwithin : Within lo hi ranges)
    (h : (a, b) ∈ pairs (usage lo hi ranges)) {x : α} (hx : x ∈ ends ranges) : x ≤ a ∨ b ≤ x := by
  obtain ⟨before, after, hlist, -⟩ := mem_pairs_iff.mp h
  have hsorted := hwithin.sorted
  have hmem : x ∈ before ++ a :: b :: after := hlist ▸ mem_usage.mpr (Or.inr (Or.inl hx))
  rw [hlist] at hsorted
  obtain ⟨-, hrest, hbefore⟩ := List.pairwise_append.mp hsorted
  rcases List.mem_append.mp hmem with hmem | hmem
  · exact Or.inl (hbefore x hmem a List.mem_cons_self)
  · rcases List.mem_cons.mp hmem with rfl | hmem
    · exact Or.inl le_rfl
    · refine Or.inr ((List.mem_cons.mp hmem).elim (fun heq ↦ heq.ge) ?_)
      exact (List.pairwise_cons.mp (List.pairwise_cons.mp hrest).2).1 x

/-- A range is before a pair with something in it, or behind it. -/
theorem Apart.before_or_behind (happart : Apart ranges) (hwithin : Within lo hi ranges)
    (h : (a, b) ∈ pairs (usage lo hi ranges)) (hab : a < b) {r : α × α} (hr : r ∈ ranges) :
    r.2 ≤ a ∨ b ≤ r.1 := by
  rcases le_or_le_of_mem_pairs hwithin h (mem_ends.mpr ⟨r, hr, Or.inl rfl⟩) with h1 | h1
  · refine Or.inl (not_lt.mp fun h2 ↦ ?_)
    exact Set.disjoint_left.mp (happart.disjoint_of_mem_pairs hwithin h hr) ⟨le_rfl, hab⟩ ⟨h1, h2⟩
  · exact Or.inr h1

/-- Every point between the bounds is between two neighbours. -/
theorem exists_neighbours {l : List α} (first : α) (hfirst : first ≤ y) (hlast : ∃ x ∈ l, y < x) :
    ∃ before a b after, first :: l = before ++ a :: b :: after ∧ a ≤ y ∧ y < b := by
  induction l generalizing first with
  | nil => simp at hlast
  | cons next rest ih =>
    by_cases hnext : y < next
    · exact ⟨[], first, next, rest, rfl, hfirst, hnext⟩
    · obtain ⟨x, hx, hyx⟩ := hlast
      have hrest : ∃ x ∈ rest, y < x := by
        refine ⟨x, (List.mem_cons.mp hx).resolve_left fun heq ↦ hnext (heq ▸ hyx), hyx⟩
      obtain ⟨before, a, b, after, hlist, hab⟩ := ih next (not_lt.mp hnext) hrest
      exact ⟨first :: before, a, b, after, by rw [hlist]; rfl, hab⟩

/-- The pairs hold the points that are in no range. -/
theorem Apart.exists_mem_pairs_iff (happart : Apart ranges) (hwithin : Within lo hi ranges)
    (hlo : lo ≤ y) (hhi : y < hi) :
    (∃ a b, (a, b) ∈ pairs (usage lo hi ranges) ∧ y ∈ Set.Ico a b) ↔
    ∀ r ∈ ranges, y ∉ Set.Ico r.1 r.2 := by
  constructor
  · rintro ⟨a, b, hab, hy⟩ r hr
    exact Set.disjoint_left.mp (happart.disjoint_of_mem_pairs hwithin hab hr) hy
  · intro hnone
    have hlast : ∃ x ∈ (ends ranges).insertionSort (· ≤ ·) ++ [hi], y < x :=
      ⟨hi, List.mem_append_right _ List.mem_cons_self, hhi⟩
    obtain ⟨before, a, b, after, hlist, ha, hb⟩ := exists_neighbours lo hlo hlast
    exact ⟨a, b, mem_pairs_iff.mpr ⟨before, after, hlist,
      (happart.even_length_iff hwithin hlist ha hb).mpr hnone⟩, ha, hb⟩

/-- A pair with something in it starts at the lower bound or where a range ends, and ends at the
upper bound or where a range starts. -/
theorem Apart.eq_or_exists_of_mem_pairs (happart : Apart ranges) (hwithin : Within lo hi ranges)
    (h : (a, b) ∈ pairs (usage lo hi ranges)) (hab : a < b) :
    (a = lo ∨ ∃ r ∈ ranges, r.2 = a) ∧ (b = hi ∨ ∃ r ∈ ranges, r.1 = b) := by
  have hsplit : ∀ r ∈ ranges, r.2 ≤ a ∨ b ≤ r.1 := fun r hr ↦
    happart.before_or_behind hwithin h hab hr
  obtain ⟨before, after, hlist, -⟩ := mem_pairs_iff.mp h
  have hbounds := bounds_of_mem_pairs hwithin h
  have hmemA : a ∈ usage lo hi ranges := by
    rw [hlist]
    exact List.mem_append_right _ List.mem_cons_self
  have hmemB : b ∈ usage lo hi ranges := by
    rw [hlist]
    exact List.mem_append_right _ (List.mem_cons_of_mem _ List.mem_cons_self)
  constructor
  · rcases mem_usage.mp hmemA with ha | hends | ha
    · exact Or.inl ha
    · obtain ⟨r, hr, ha | ha⟩ := mem_ends.mp hends
      · refine Or.inr ⟨r, hr, le_antisymm ?_ (ha ▸ (hwithin.ranges r hr).2.1)⟩
        exact (hsplit r hr).resolve_right (ha ▸ not_le_of_gt hab)
      · exact Or.inr ⟨r, hr, ha.symm⟩
    · exact absurd (hab.trans_le hbounds.2.2) (ha ▸ lt_irrefl _)
  · rcases mem_usage.mp hmemB with hb | hends | hb
    · exact absurd (hbounds.1.trans_lt hab) (hb ▸ lt_irrefl _)
    · obtain ⟨r, hr, hb | hb⟩ := mem_ends.mp hends
      · exact Or.inr ⟨r, hr, hb.symm⟩
      · refine Or.inr ⟨r, hr, le_antisymm (hb ▸ (hwithin.ranges r hr).2.1) ?_⟩
        exact (hsplit r hr).resolve_left (hb ▸ not_le_of_gt hab)
    · exact Or.inl hb

end Sweep

end Userland.Library.Sweep
