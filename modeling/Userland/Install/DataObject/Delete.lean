import Userland.Install.DataObject.Tree

/-!
# What deletion removes

`delete` walks a child list that each deletion of a child shrinks, so that it passes over every
second child, and it leaves the parent reference of what it deletes as it was. `exists_deletes` says
what a call does on a sound heap: the visited nodes keep the children at odd positions, and the
parent loses the node. From it, `delete_removes_iff` says when the subtree is removed as intended,
and `tree_runs` what holds of the tree in every run of the methods.
-/

set_option autoImplicit false
set_option relaxedAutoImplicit false

namespace Userland.Install.DataObject

open Userland.Library Userland.Library.Program

variable {N : Type}

/-! ### Every second child -/

/-- The elements that a walk visits when each visit removes the element. -/
def evens : List N → List N
  | [] => []
  | [c] => [c]
  | c :: _ :: rest => c :: evens rest

/-- The elements that the walk passes over. -/
def odds : List N → List N
  | _ :: d :: rest => d :: odds rest
  | _ => []

variable {list : List N}

theorem mem_of_mem_evens {c : N} (h : c ∈ evens list) : c ∈ list := by
  induction list using evens.induct with
  | case1 => exact h
  | case2 d => exact h
  | case3 d e rest ih =>
    rw [evens, List.mem_cons] at h
    rcases h with rfl | h
    · exact List.mem_cons_self
    · exact List.mem_cons_of_mem _ (List.mem_cons_of_mem _ (ih h))

theorem odds_sublist (list : List N) : (odds list).Sublist list := by
  induction list using evens.induct with
  | case1 => exact List.Sublist.refl _
  | case2 d => exact List.nil_sublist _
  | case3 d e rest ih => exact (ih.cons_cons e).cons d

theorem mem_of_mem_odds {c : N} (h : c ∈ odds list) : c ∈ list :=
  (odds_sublist list).mem h

theorem mem_evens_or_mem_odds {c : N} (h : c ∈ list) : c ∈ evens list ∨ c ∈ odds list := by
  induction list using evens.induct with
  | case1 => exact .inl h
  | case2 d => exact .inl h
  | case3 d e rest ih =>
    rw [evens, odds, List.mem_cons, List.mem_cons]
    rcases List.mem_cons.mp h with rfl | h
    · exact .inl (.inl rfl)
    · rcases List.mem_cons.mp h with rfl | h
      · exact .inr (.inl rfl)
      · exact (ih h).imp .inr .inr

theorem odds_eq_nil_iff : odds list = [] ↔ list.length ≤ 1 := by
  match list with
  | [] => simp [odds]
  | [c] => simp [odds]
  | c :: d :: rest => simp [odds]

/-- An element that the walk visits is not passed over. -/
theorem not_mem_odds_of_mem_evens (hnodup : list.Nodup) {c : N} (h : c ∈ evens list) :
    c ∉ odds list := by
  induction list using evens.induct with
  | case1 => exact absurd h List.not_mem_nil
  | case2 d => exact List.not_mem_nil
  | case3 d e rest ih =>
    rw [List.nodup_cons, List.nodup_cons] at hnodup
    obtain ⟨hd, he, hrest⟩ := hnodup
    rw [evens, List.mem_cons] at h
    rw [odds, List.mem_cons, not_or]
    rcases h with rfl | h
    · exact ⟨fun heq ↦ hd (heq ▸ List.mem_cons_self),
        fun hodd ↦ hd (List.mem_cons_of_mem _ (mem_of_mem_odds hodd))⟩
    · exact ⟨fun heq ↦ he (heq ▸ mem_of_mem_evens h), ih hrest h⟩

/-- The nodes whose lists a call of `delete` walks. -/
def Visited (children : N → List N) (n x : N) : Prop :=
  Relation.ReflTransGen (fun p c ↦ c ∈ evens (children p)) n x

variable {children : N → List N}

theorem Visited.belowEq {n x : N} (h : Visited children n x) : BelowEq children n x :=
  Relation.ReflTransGen.mono (fun _ _ hc ↦ mem_of_mem_evens hc) _ _ h

/-! ### What one call does -/

variable [DecidableEq N]

/-- What becomes of a heap when a call of `delete` for `n` returns. The child lists below `n` were
those of `children`. -/
structure Deleted (children : N → List N) (n : N) (before after : Heap N) : Prop where
  parent : after.parent = before.parent
  visited : ∀ x, Visited children n x → after.children x = odds (children x)
  holder : ∀ p, before.parent n = some p → after.children p = (before.children p).erase n
  other : ∀ x, ¬ Visited children n x → before.parent n ≠ some x →
    after.children x = before.children x

/-- A call that is made while the lists below the node are those of `children`, and the parent holds
it. -/
structure Ready (children : N → List N) (n : N) (before : Heap N) : Prop where
  sound : Sound before
  agrees : ∀ x, BelowEq children n x → before.children x = children x
  holder : ∀ p, before.parent n = some p → n ∈ before.children p ∧ ¬ BelowEq children n p

/-- The call returns, with this bound and with every greater one. -/
def Deletes (children : N → List N) (bound : ℕ) (n : N) : Prop :=
  ∀ fuel, bound ≤ fuel → ∀ before, Ready children n before →
    ∃ after, exec (delete fuel n) before = (.ok (), after) ∧ Deleted children n before after

/-- What the walk over the rest of a child list achieves. -/
structure Walked (children : N → List N) (n : N) (done rest : List N) (before after : Heap N) :
    Prop where
  parent : after.parent = before.parent
  list : after.children n = done ++ odds rest
  visited : ∀ c ∈ evens rest, ∀ x, Visited children c x → after.children x = odds (children x)
  other : ∀ x, x ≠ n → (∀ c ∈ evens rest, ¬ Visited children c x) →
    after.children x = before.children x

variable {before after after' : Heap N} {n : N}

omit [DecidableEq N] in
/-- What the walk leaves is determined. -/
theorem Walked.unique {done rest : List N}
    (h : Walked children n done rest before after)
    (h' : Walked children n done rest before after') :
    after = after' := by
  have hchildren : after.children = after'.children := by
    funext x
    by_cases hx : x = n
    · rw [hx, h.list, h'.list]
    by_cases hv : ∃ c ∈ evens rest, Visited children c x
    · obtain ⟨c, hc, hcx⟩ := hv
      rw [h.visited c hc x hcx, h'.visited c hc x hcx]
    · have hnot : ∀ c ∈ evens rest, ¬ Visited children c x := fun c hc hcx ↦ hv ⟨c, hc, hcx⟩
      rw [h.other x hx hnot, h'.other x hx hnot]
  have hparent := h.parent.trans h'.parent.symm
  cases after
  cases after'
  cases hchildren
  cases hparent
  rfl

omit [DecidableEq N] in
/-- The walk only takes nodes out of lists. -/
theorem Walked.sublist {before after : Heap N}
    (h : Walked before.children n [] (before.children n) before after) (x : N) :
    (after.children x).Sublist (before.children x) := by
  by_cases hx : x = n
  · rw [hx, h.list]
    exact odds_sublist _
  by_cases hv : ∃ c ∈ evens (before.children n), Visited before.children c x
  · obtain ⟨c, hc, hcx⟩ := hv
    rw [h.visited c hc x hcx]
    exact odds_sublist _
  · rw [h.other x hx fun c hc hcx ↦ hv ⟨c, hc, hcx⟩]

/-- What the call leaves is determined. -/
theorem Deleted.unique
    (h : Deleted children n before after) (h' : Deleted children n before after') :
    after = after' := by
  have hchildren : after.children = after'.children := by
    funext x
    by_cases hv : Visited children n x
    · rw [h.visited x hv, h'.visited x hv]
    by_cases hx : before.parent n = some x
    · rw [h.holder x hx, h'.holder x hx]
    · rw [h.other x hv hx, h'.other x hv hx]
  have hparent := h.parent.trans h'.parent.symm
  cases after
  cases after'
  cases hchildren
  cases hparent
  rfl

theorem exec_deleteEach_of_none {fuel : ℕ} {index : ℕ} {heap : Heap N}
    (h : (heap.children n)[index]? = none) :
    exec (deleteEach (fuel + 1) n index) heap = (.ok (), heap) := by
  rw [deleteEach, exec_bind, exec_get]
  dsimp only
  rw [h]
  rfl

theorem exec_deleteEach_of_some {fuel : ℕ} {n child : N} {index : ℕ} {heap middle : Heap N}
    (h : (heap.children n)[index]? = some child)
    (hdelete : exec (delete fuel child) heap = (.ok (), middle)) :
    exec (deleteEach (fuel + 1) n index) heap = exec (deleteEach fuel n (index + 1)) middle := by
  rw [deleteEach, exec_bind, exec_get]
  dsimp only
  rw [h]
  dsimp only
  rw [exec_bind, hdelete]

theorem sound_of_exec_delete {fuel : ℕ} {before after : Heap N} (h : Sound before)
    (hexec : exec (delete fuel n) before = (.ok (), after)) : Sound after :=
  ((delete_sound fuel).1 n).of_exec h hexec

section Walk

variable {children : N → List N} {n : N} {bound : ℕ}

/-- One child of the walk is deleted, and leaves the list. -/
theorem exec_delete_child (hforest : IsForest children) {c : N} (hc : c ∈ children n)
    (hdelete : Deletes children bound c) {fuel : ℕ} (hfuel : bound ≤ fuel) {before : Heap N}
    (hsound : Sound before) {done rest : List N} (hlist : before.children n = done ++ c :: rest)
    (hagrees : ∀ x, BelowEq children c x → before.children x = children x) :
    ∃ after, exec (delete fuel c) before = (.ok (), after) ∧ Deleted children c before after ∧
      Sound after ∧ after.children n = done ++ rest := by
  have hmem : c ∈ before.children n := by
    rw [hlist]
    exact List.mem_append_right _ List.mem_cons_self
  have hparent := hsound.held hmem
  have hready : Ready children c before := by
    refine ⟨hsound, hagrees, fun p hp ↦ ?_⟩
    rw [hparent] at hp
    cases hp
    exact ⟨hmem, hforest.not_belowEq_of_mem hc⟩
  obtain ⟨after, hexec, hdeleted⟩ := hdelete fuel hfuel before hready
  refine ⟨after, hexec, hdeleted, sound_of_exec_delete hsound hexec, ?_⟩
  have hnodup := hsound.forest.nodup n
  rw [hlist] at hnodup
  have hdone : c ∉ done := fun hdone ↦
    (List.disjoint_of_nodup_append hnodup) hdone List.mem_cons_self
  rw [hdeleted.holder n hparent, hlist, List.erase_append_right _ hdone, List.erase_cons_head]

/-- The walk deletes a child, passes over the next, and goes on. -/
theorem exec_deleteEach (hforest : IsForest children) {rest : List N}
    (hrest : ∀ c ∈ rest, c ∈ children n)
    (hnodup : rest.Nodup) (hdelete : ∀ c ∈ rest, Deletes children bound c) {fuel : ℕ}
    (hfuel : bound + rest.length < fuel) {before : Heap N} (hsound : Sound before) {done : List N}
    (hlist : before.children n = done ++ rest)
    (hagrees : ∀ c ∈ rest, ∀ x, BelowEq children c x → before.children x = children x) :
    ∃ after, exec (deleteEach fuel n done.length) before = (.ok (), after) ∧
      Walked children n done rest before after := by
  induction rest using evens.induct generalizing fuel before done with
  | case1 =>
    obtain ⟨fuel, rfl⟩ := Nat.exists_eq_succ_of_ne_zero (Nat.ne_of_gt (Nat.zero_lt_of_lt hfuel))
    refine ⟨before, exec_deleteEach_of_none ?_, rfl, hlist, by simp [evens], fun _ _ _ ↦ rfl⟩
    rw [hlist, List.append_nil]
    exact List.getElem?_eq_none le_rfl
  | case2 c =>
    obtain ⟨fuel, rfl⟩ : ∃ k, fuel = k + 2 := ⟨fuel - 2, by simp at hfuel; omega⟩
    have hc : c ∈ [c] := List.mem_cons_self
    obtain ⟨middle, hexec, hdeleted, -, hmiddle⟩ := exec_delete_child hforest
      (hrest c hc) (hdelete c hc) (by simp at hfuel; omega : bound ≤ fuel + 1) hsound hlist
        (hagrees c hc)
    refine ⟨middle, ?_, hdeleted.parent, hmiddle, ?_, fun x hx hnot ↦ ?_⟩
    · rw [exec_deleteEach_of_some (by rw [hlist]; simp) hexec]
      refine exec_deleteEach_of_none ?_
      rw [hmiddle, List.append_nil]
      exact List.getElem?_eq_none (Nat.le_succ _)
    · rintro d hd x hx
      rw [evens, List.mem_singleton] at hd
      exact hdeleted.visited x (hd ▸ hx)
    · refine hdeleted.other x (hnot c List.mem_cons_self) fun hparent ↦ hx ?_
      have hheld := hsound.held (hlist ▸ List.mem_append_right _ List.mem_cons_self :
        c ∈ before.children n)
      exact Option.some.inj (hparent.symm.trans hheld)
  | case3 c d rest ih =>
    obtain ⟨fuel, rfl⟩ : ∃ k, fuel = k + 1 := ⟨fuel - 1, by omega⟩
    have hc : c ∈ c :: d :: rest := List.mem_cons_self
    have hparent := hsound.held
      (hlist ▸ List.mem_append_right _ List.mem_cons_self : c ∈ before.children n)
    obtain ⟨middle, hexec, hdeleted, hsound', hmiddle⟩ := exec_delete_child hforest
      (hrest c hc) (hdelete c hc) (by simp at hfuel; omega : bound ≤ fuel) hsound hlist
        (hagrees c hc)
    rw [List.nodup_cons, List.nodup_cons] at hnodup
    have hsub : ∀ e ∈ rest, e ∈ c :: d :: rest := fun e he ↦
      List.mem_cons_of_mem _ (List.mem_cons_of_mem _ he)
    have hdisjoint : ∀ e ∈ rest, ∀ x, BelowEq children e x → ¬ BelowEq children c x :=
        fun e he x hx ↦
      hforest.disjoint (hrest e (hsub e he)) (hrest c hc)
        (fun heq ↦ hnodup.1 (heq ▸ List.mem_cons_of_mem _ he)) hx
    have hunchanged : ∀ x, x ≠ n → ¬ Visited children c x → middle.children x = before.children x :=
      fun x hx hnot ↦ hdeleted.other x hnot fun hp ↦ hx (Option.some.inj (hp.symm.trans hparent))
    have hne : ∀ e ∈ rest, ∀ x, BelowEq children e x → x ≠ n := fun e he x hx heq ↦
      hforest.not_belowEq_of_mem (hrest e (hsub e he)) (heq ▸ hx)
    obtain ⟨after, hafter, hwalked⟩ := ih (fun e he ↦ hrest e (hsub e he)) hnodup.2.2
      (fun e he ↦ hdelete e (hsub e he))
        (by simp at hfuel; omega : bound + rest.length < fuel) hsound'
      (by rw [hmiddle]; simp : middle.children n = (done ++ [d]) ++ rest) fun e he x hx ↦ by
        rw [hunchanged x (hne e he x hx) fun hv ↦ hdisjoint e he x hx hv.belowEq]
        exact hagrees e (hsub e he) x hx
    refine ⟨after, ?_, hwalked.parent.trans hdeleted.parent, ?_, ?_, fun x hx hnot ↦ ?_⟩
    · rw [exec_deleteEach_of_some (by rw [hlist]; simp) hexec, ← hafter, List.length_append]
      rfl
    · rw [hwalked.list, odds]
      simp
    · intro e he x hx
      rw [evens, List.mem_cons] at he
      rcases he with rfl | he
      · rw [hwalked.other x ?_ fun f hf hv ↦ ?_]
        · exact hdeleted.visited x hx
        · exact fun heq ↦ hforest.not_belowEq_of_mem (hrest e hc) (heq ▸ hx.belowEq)
        · exact hdisjoint f (mem_of_mem_evens hf) x hv.belowEq hx.belowEq
      · exact hwalked.visited e he x hx
    · rw [hwalked.other x hx fun f hf ↦ hnot f (List.mem_cons_of_mem _ hf)]
      exact hunchanged x hx (hnot c List.mem_cons_self)

end Walk

omit [DecidableEq N] in
/-- A bound for each element of a list gives one for all of them. -/
theorem exists_bound {P : N → ℕ → Prop} (hmono : ∀ c a b, a ≤ b → P c a → P c b)
    (h : ∀ c ∈ list, ∃ bound, P c bound) : ∃ bound, ∀ c ∈ list, P c bound := by
  induction list with
  | nil => exact ⟨0, by simp⟩
  | cons c list ih =>
    obtain ⟨first, hfirst⟩ := h c List.mem_cons_self
    obtain ⟨others, hothers⟩ := ih fun d hd ↦ h d (List.mem_cons_of_mem _ hd)
    refine ⟨max first others, List.forall_mem_cons.mpr ⟨?_, fun d hd ↦ ?_⟩⟩
    · exact hmono c _ _ (le_max_left _ _) hfirst
    · exact hmono d _ _ (le_max_right _ _) (hothers d hd)

theorem exec_unlink_of_none {heap : Heap N} (h : heap.parent n = none) :
    exec (unlink n) heap = (.ok (), heap) := by
  rw [unlink, exec_bind, exec_get]
  dsimp only
  rw [h]
  rfl

theorem exec_unlink_of_mem {n p : N} {heap : Heap N} (h : heap.parent n = some p)
    (hmem : n ∈ heap.children p) :
    exec (unlink n) heap = (.ok (), heap.setChildren p ((heap.children p).erase n)) := by
  rw [unlink, exec_bind, exec_get]
  dsimp only
  rw [h]
  dsimp only
  rw [if_pos (List.contains_iff_mem.mpr hmem)]
  rfl

theorem exec_unlink_of_not_mem {n p : N} {heap : Heap N} (h : heap.parent n = some p)
    (hmem : n ∉ heap.children p) : exec (unlink n) heap = (.error .valueError, heap) := by
  rw [unlink, exec_bind, exec_get]
  dsimp only
  rw [h]
  dsimp only
  rw [if_neg fun hcontains ↦ hmem (List.contains_iff_mem.mp hcontains)]
  rfl

section Call

variable {children : N → List N} {n : N}

/-- The walk of a call, from the whole child list. -/
theorem exec_walk (hforest : IsForest children) {bound : ℕ}
    (hdelete : ∀ c ∈ children n, Deletes children bound c) {fuel : ℕ}
    (hfuel : bound + (children n).length + 1 < fuel) {before : Heap N} (hsound : Sound before)
    (hagrees : ∀ x, BelowEq children n x → before.children x = children x) :
    ∃ after, exec (delete fuel n) before = exec (unlink n) after ∧
      Walked children n [] (children n) before after := by
  obtain ⟨fuel, rfl⟩ : ∃ k, fuel = k + 1 := ⟨fuel - 1, by omega⟩
  obtain ⟨after, hexec, hwalked⟩ :=
    exec_deleteEach hforest (fun c hc ↦ hc) (hforest.nodup n) hdelete
    (by omega : bound + (children n).length < fuel) hsound
    (by rw [hagrees n .refl]; rfl : before.children n = [] ++ children n)
    fun c hc x hx ↦ hagrees x (Relation.ReflTransGen.head hc hx)
  refine ⟨after, ?_, hwalked⟩
  rw [List.length_nil] at hexec
  rw [delete, exec_bind, hexec]

omit [DecidableEq N] in
theorem visited_cases {x : N} (h : Visited children n x) :
    x = n ∨ ∃ c ∈ evens (children n), Visited children c x := by
  rcases Relation.ReflTransGen.cases_head h with rfl | ⟨c, hc, hcx⟩
  · exact .inl rfl
  · exact .inr ⟨c, hc, hcx⟩

/-- A walked heap, whose node has been taken from its parent's list where it has one. -/
theorem Walked.deleted {before middle after : Heap N}
    (h : Walked children n [] (children n) before middle)
    (hholder : ∀ p, before.parent n = some p → ¬ BelowEq children n p)
    (hnone : before.parent n = none → after = middle)
    (hsome : ∀ p, before.parent n = some p →
      after = middle.setChildren p ((middle.children p).erase n)) :
    Deleted children n before after := by
  have hmiddle : ∀ x, before.parent n ≠ some x → after.children x = middle.children x := by
    intro x hx
    cases hp : before.parent n with
    | none => rw [hnone hp]
    | some p =>
      rw [hsome p hp]
      exact children_setChildren_of_ne _ (fun heq ↦ hx (by rw [hp, heq])) _
  have hkeep : ∀ x, x ≠ n → ¬ Visited children n x → middle.children x = before.children x := by
    intro x hx hnot
    refine h.other x hx fun c hc hv ↦ hnot ?_
    exact Relation.ReflTransGen.head hc hv
  refine ⟨?_, fun x hx ↦ ?_, fun p hp ↦ ?_, fun x hnot hx ↦ ?_⟩
  · cases hp : before.parent n with
    | none => rw [hnone hp, h.parent]
    | some p => rw [hsome p hp, parent_setChildren, h.parent]
  · rw [hmiddle x fun hp ↦ hholder x hp hx.belowEq]
    rcases visited_cases hx with rfl | ⟨c, hc, hcx⟩
    · exact h.list
    · exact h.visited c hc x hcx
  · rw [hsome p hp, children_setChildren_self]
    have hne : p ≠ n := fun heq ↦ hholder p hp (heq ▸ .refl)
    rw [hkeep p hne fun hv ↦ hholder p hp hv.belowEq]
  · rw [hmiddle x hx]
    exact hkeep x (fun heq ↦ hnot (heq ▸ .refl)) hnot

/-- Every call on a heap that is ready for it returns. -/
theorem exists_deletes (hforest : IsForest children) (n : N) :
    ∃ bound, Deletes children bound n := by
  induction n using hforest.wf.induction with
  | h n ih =>
    obtain ⟨bound, hbound⟩ := exists_bound (P := fun c b ↦ Deletes children b c)
      (fun c a b hab h fuel hfuel ↦ h fuel (hab.trans hfuel)) ih
    refine ⟨bound + (children n).length + 2, fun fuel hfuel before hready ↦ ?_⟩
    obtain ⟨middle, hexec, hwalked⟩ := exec_walk hforest hbound hfuel hready.sound hready.agrees
    cases hparent : before.parent n with
    | none =>
      have hmiddle : middle.parent n = none := by rw [hwalked.parent, hparent]
      refine ⟨middle, hexec.trans (exec_unlink_of_none hmiddle), ?_⟩
      refine hwalked.deleted (fun p hp ↦ (hready.holder p hp).2) (fun _ ↦ rfl) fun p hp ↦ ?_
      rw [hparent] at hp
      cases hp
    | some p =>
      obtain ⟨hmem, habove⟩ := hready.holder p hparent
      have hne : p ≠ n := fun heq ↦ habove (heq ▸ .refl)
      have hlist : middle.children p = before.children p := by
        refine hwalked.other p hne fun c hc hv ↦ habove ?_
        exact Relation.ReflTransGen.head (mem_of_mem_evens hc) hv.belowEq
      have hmiddle : middle.parent n = some p := by rw [hwalked.parent, hparent]
      refine ⟨_, hexec.trans (exec_unlink_of_mem hmiddle (hlist ▸ hmem)), ?_⟩
      refine hwalked.deleted (fun q hq ↦ (hready.holder q hq).2) (fun hnone ↦ ?_) fun q hq ↦ ?_
      · rw [hparent] at hnone
        cases hnone
      · rw [hparent] at hq
        cases hq
        rfl

end Call

/-! ### When the subtree is removed -/

/-- With every bound that is large enough, the program ends with this result in this heap. -/
def Ends (program : ℕ → Doc N Unit) (before : Heap N) (result : Except DocError Unit)
    (after : Heap N) :
    Prop :=
  ∃ bound, ∀ fuel, bound ≤ fuel → exec (program fuel) before = (result, after)

omit [DecidableEq N] in
theorem Ends.unique {program : ℕ → Doc N Unit}
    {result result' : Except DocError Unit} (h : Ends program before result after)
    (h' : Ends program before result' after') : result = result' ∧ after = after' := by
  obtain ⟨bound, hbound⟩ := h
  obtain ⟨bound', hbound'⟩ := h'
  have heq := (hbound _ (le_max_left bound bound')).symm.trans
    (hbound' _ (le_max_right bound bound'))
  exact Prod.mk.inj heq

/-- `n.delete()` removes exactly the subtree of `n`. -/
structure RemovesSubtree (n : N) (before : Heap N) (result : Except DocError Unit)
    (after : Heap N) :
    Prop where
  returns : result = .ok ()
  gone : ∀ p, before.parent n = some p →
    n ∉ after.children p ∧ after.children p = (before.children p).erase n
  below : ∀ x, BelowEq before.children n x → after.children x = []
  others : ∀ x, ¬ BelowEq before.children n x →
    (before.parent n ≠ some x → after.children x = before.children x) ∧
      after.parent x = before.parent x

/-- The parent of `n` holds it, and `n` heads a chain: no node of its subtree has a second child. -/
structure Deletable (heap : Heap N) (n : N) : Prop where
  held : ∀ p, heap.parent n = some p → n ∈ heap.children p
  chain : ∀ x, BelowEq heap.children n x → (heap.children x).length ≤ 1

section Sound

variable {heap : Heap N}

/-- Unless its parent reference is stale, a call of `delete` for a node returns. -/
theorem Sound.ends_delete (h : Sound heap)
    (hheld : ∀ p, heap.parent n = some p → n ∈ heap.children p) :
    ∃ after, Ends (fun fuel ↦ delete fuel n) heap (.ok ()) after ∧
    Deleted heap.children n heap after := by
  obtain ⟨bound, hbound⟩ := exists_deletes h.forest n
  have hready : Ready heap.children n heap :=
    ⟨h, fun _ _ ↦ rfl, fun p hp ↦ ⟨hheld p hp, h.forest.not_belowEq_of_mem (hheld p hp)⟩⟩
  obtain ⟨after, -, hdeleted⟩ := hbound bound le_rfl heap hready
  refine ⟨after, ⟨bound, fun fuel hfuel ↦ ?_⟩, hdeleted⟩
  obtain ⟨after', hexec, hdeleted'⟩ := hbound fuel hfuel heap hready
  rw [hexec, hdeleted'.unique hdeleted]

/-- With a stale parent reference it fails, after the walk. -/
theorem Sound.ends_delete_stale (h : Sound heap) {n p : N} (hparent : heap.parent n = some p)
    (hstale : n ∉ heap.children p) :
    ∃ after, Ends (fun fuel ↦ delete fuel n) heap (.error .valueError) after := by
  obtain ⟨bound, hbound⟩ := exists_bound (P := fun c b ↦ Deletes heap.children b c)
    (fun c a b hab h fuel hfuel ↦ h fuel (hab.trans hfuel)) fun c _ ↦ exists_deletes h.forest c
  have hwalk := fun fuel (hfuel : bound + (heap.children n).length + 1 < fuel) ↦
    exec_walk h.forest hbound hfuel h fun _ _ ↦ rfl
  obtain ⟨after, -, hwalked⟩ := hwalk _ (Nat.lt_succ_self _)
  refine ⟨after, bound + (heap.children n).length + 2, fun fuel hfuel ↦ ?_⟩
  obtain ⟨after', hexec, hwalked'⟩ := hwalk fuel hfuel
  rw [hwalked'.unique hwalked] at hexec
  refine hexec.trans (exec_unlink_of_not_mem (p := p) (by rw [hwalked.parent, hparent]) fun hmem ↦
    hstale ?_)
  exact (hwalked.sublist p).mem hmem

omit [DecidableEq N] in
/-- Below nodes that have one child at most, every node is visited. -/
theorem visited_of_chain {n c x : N} (hc : Visited children n c)
    (hchain : ∀ y, BelowEq children c y → (children y).length ≤ 1) (h : BelowEq children c x) :
    Visited children n x := by
  induction h with
  | refl => exact hc
  | @tail y z hy hz ih =>
    refine Relation.ReflTransGen.tail ih ?_
    refine (mem_evens_or_mem_odds hz).resolve_right fun hodd ↦ ?_
    rw [odds_eq_nil_iff.mpr (hchain y hy)] at hodd
    exact absurd hodd List.not_mem_nil

omit [DecidableEq N] in
/-- A child that the walk passes over is not visited. -/
theorem not_visited_of_mem_odds (hforest : IsForest children) {n c : N}
    (hc : c ∈ odds (children n)) : ¬ Visited children n c := by
  have hmem := mem_of_mem_odds hc
  intro hv
  rcases visited_cases hv with rfl | ⟨e, he, hec⟩
  · exact hforest.not_belowEq_of_mem hmem .refl
  · refine hforest.not_belowEq_sibling (mem_of_mem_evens he) hmem (fun heq ↦ ?_) hec.belowEq
    exact not_mem_odds_of_mem_evens (hforest.nodup n) he (heq ▸ hc)

/-- A call of `delete` removes exactly the subtree if and only if the node is `Deletable`. -/
theorem Sound.delete_removes_iff (h : Sound heap) (n : N) :
    (∃ result after, Ends (fun fuel ↦ delete fuel n) heap result after ∧
      RemovesSubtree n heap result after) ↔ Deletable heap n := by
  -- no node below `n` is its parent
  have hne : ∀ x, n ∈ heap.children x → ¬ BelowEq heap.children n x := fun x hx ↦
    h.forest.not_belowEq_of_mem hx
  constructor
  · rintro ⟨result, after, hends, hremoves⟩
    have hheld : ∀ p, heap.parent n = some p → n ∈ heap.children p := by
      intro p hp
      by_contra hstale
      obtain ⟨after', hends'⟩ := h.ends_delete_stale hp hstale
      have hresult := (hends.unique hends').1
      rw [hremoves.returns] at hresult
      cases hresult
    obtain ⟨after', hends', hdeleted⟩ := h.ends_delete hheld
    rw [← (hends.unique hends').2] at hdeleted
    refine ⟨hheld, fun x hx ↦ ?_⟩
    have hempty := hremoves.below x hx
    by_cases hv : Visited heap.children n x
    · rw [← odds_eq_nil_iff, ← hdeleted.visited x hv]
      exact hempty
    · rw [hdeleted.other x hv fun hp ↦ hne x (hheld x hp) hx] at hempty
      rw [hempty]
      exact Nat.zero_le 1
  · intro hdeletable
    obtain ⟨after, hends, hdeleted⟩ := h.ends_delete hdeletable.held
    refine ⟨_, after, hends, rfl, fun p hp ↦ ?_, fun x hx ↦ ?_, fun x hx ↦ ⟨fun hp ↦ ?_, ?_⟩⟩
    · refine ⟨?_, hdeleted.holder p hp⟩
      rw [hdeleted.holder p hp]
      exact (h.forest.nodup p).not_mem_erase
    · rw [hdeleted.visited x (visited_of_chain .refl hdeletable.chain hx), odds_eq_nil_iff]
      exact hdeletable.chain x hx
    · exact hdeleted.other x (fun hv ↦ hx hv.belowEq) hp
    · rw [hdeleted.parent]

end Sound

/-! ### Runs -/

/-- A call of one of the methods. -/
inductive Op (N Name : Type)
  | insertChildren (target : N) (newChildren : List (Option N)) (before after : Option (Option N))
  | deleteChildren (target : N) (children : Option (List (Option N))) (name : Option Name)
      (classType : Option (N → Bool)) (notFoundIsErr : Bool)
  | delete (n : N)

namespace Op

variable {Name : Type} [DecidableEq Name]

/-- The method that a call runs. -/
def program (nameOf : N → Name) : Op N Name → ℕ → Doc N Unit
  | .insertChildren target newChildren before after, _ =>
    DataObject.insertChildren target newChildren before after
  | .deleteChildren target children name classType notFoundIsErr, _ =>
    DataObject.deleteChildren nameOf target children name classType notFoundIsErr
  | .delete n, fuel => DataObject.delete fuel n

omit [DecidableEq N] [DecidableEq Name] in
/-- What is inserted are different nodes that are in no tree. -/
def Admissible (heap : Heap N) : Op N Name → Prop
  | .insertChildren target newChildren _ _ =>
    (newChildren.filterMap id).Nodup ∧ ∀ child, some child ∈ newChildren →
      Detached heap target child
  | _ => True

/-- A call of `delete` is for a node without parent and children. -/
def Idle (heap : Heap N) : Op N Name → Prop
  | .delete n => heap.parent n = none ∧ heap.children n = []
  | _ => True

/-- A call from one heap to another. -/
def Step (nameOf : N → Name) (op : Op N Name) (before after : Heap N) : Prop :=
  ∃ result, Ends (op.program nameOf) before result after

end Op

omit [DecidableEq N] in
/-- What a program keeps, whether it returns or fails, holds after a call of it. -/
theorem Ends.keeps {program : ℕ → Doc N Unit} {before after : Heap N}
    {result : Except DocError Unit} (h : Ends program before result after) {P I : Heap N → Prop}
    (hprogram : ∀ fuel, Triple P (program fuel) (fun _ ↦ I) fun _ ↦ I) (hbefore : P before) :
    I after := by
  obtain ⟨bound, hbound⟩ := h
  have hrun := hprogram bound before hbefore
  rw [hbound bound le_rfl] at hrun
  cases result with
  | error _ => exact hrun
  | ok _ => exact hrun

section Runs

variable {Name : Type} [DecidableEq Name] {nameOf : N → Name} {op : Op N Name}
  {before after : Heap N}

/-- A call that inserts what is in no tree. -/
theorem insertChildren_keeps {I : Heap N → Prop} {target : N}
    (hhold : ∀ heap child index, I heap → Detached heap target child →
      I (heap.hold target index child))
    {newChildren : List (Option N)} (hnodup : (newChildren.filterMap id).Nodup)
    (first last : Option (Option N)) :
    Triple (fun heap ↦ I heap ∧ ∀ child, some child ∈ newChildren → Detached heap target child)
      (insertChildren target newChildren first last) (fun _ ↦ I) fun _ ↦ I := by
  refine Triple.bind (Triple.weaken (insertAt_keeps first last) (fun _ h ↦ h) (fun _ _ h ↦ h)
    fun _ _ h ↦ h.1) fun index ↦ ?_
  exact insertEach_keeps hhold hnodup index

theorem Op.Step.sound (hstep : op.Step nameOf before after) (hadmissible : op.Admissible before)
    (h : Sound before) : Sound after := by
  obtain ⟨result, hends⟩ := hstep
  cases op with
  | insertChildren target newChildren first last =>
    refine hends.keeps (fun _ ↦ insertChildren_keeps (fun heap child index hheap hdetached ↦ ?_)
      hadmissible.1 first last) ⟨h, hadmissible.2⟩
    exact hheap.hold hdetached index
  | deleteChildren target children name classType notFoundIsErr =>
    refine hends.keeps (fun _ ↦ deleteChildren_keeps nameOf children name classType notFoundIsErr
      fun heap child hheap hchild ↦ ?_) h
    exact hheap.release hchild
  | delete n => exact hends.keeps (fun fuel ↦ (delete_sound fuel).1 n) h

/-- A delete keeps the parent references valid only where there is nothing to delete. -/
theorem WellFormed.delete_iff (h : WellFormed before) {result : Except DocError Unit}
    (hends : Ends (fun fuel ↦ delete fuel n) before result after) :
    WellFormed after ↔ before.parent n = none ∧ before.children n = [] := by
  obtain ⟨after', hends', hdeleted⟩ := h.ends_delete fun p ↦ h.parent
  rw [(hends.unique hends').2]
  constructor
  · intro hafter
    have hnone : before.parent n = none := by
      by_contra hsome
      obtain ⟨p, hp⟩ := Option.ne_none_iff_exists'.mp hsome
      have hmem := hafter.parent (hdeleted.parent ▸ hp)
      rw [hdeleted.holder p hp] at hmem
      exact (h.forest.nodup p).not_mem_erase hmem
    refine ⟨hnone, ?_⟩
    by_contra hchildren
    obtain ⟨c, hc⟩ : ∃ c, c ∈ evens (before.children n) := by
      match hlist : before.children n with
      | [] => exact absurd hlist hchildren
      | [c] => exact ⟨c, List.mem_cons_self⟩
      | c :: _ :: _ => exact ⟨c, List.mem_cons_self⟩
    have hmem := hafter.parent (hdeleted.parent ▸ h.held (mem_of_mem_evens hc))
    rw [hdeleted.visited n .refl] at hmem
    exact not_mem_odds_of_mem_evens (h.forest.nodup n) hc hmem
  · rintro ⟨hnone, hnil⟩
    have hchildren : after'.children = before.children := by
      funext x
      by_cases hv : Visited before.children n x
      · rcases visited_cases hv with rfl | ⟨c, hc, -⟩
        · rw [hdeleted.visited x hv, hnil]
          rfl
        · rw [hnil] at hc
          exact absurd hc List.not_mem_nil
      · refine hdeleted.other x hv fun hp ↦ ?_
        rw [hnone] at hp
        cases hp
    have heq : after' = before := by
      have hparent := hdeleted.parent
      cases after'
      cases before
      cases hchildren
      cases hparent
      rfl
    rwa [heq]

theorem Op.Step.wellFormed (hstep : op.Step nameOf before after)
    (hadmissible : op.Admissible before)
    (hidle : op.Idle before) (h : WellFormed before) : WellFormed after := by
  obtain ⟨result, hends⟩ := hstep
  cases op with
  | insertChildren target newChildren first last =>
    refine hends.keeps (fun _ ↦ insertChildren_keeps (fun heap child index hheap hdetached ↦ ?_)
      hadmissible.1 first last) ⟨h, hadmissible.2⟩
    exact hheap.hold hdetached index
  | deleteChildren target children name classType notFoundIsErr =>
    refine hends.keeps (fun _ ↦ deleteChildren_keeps nameOf children name classType notFoundIsErr
      fun heap child hheap hchild ↦ ?_) h
    exact hheap.release hchild
  | delete n => exact (h.delete_iff hends).mpr hidle

/-- A run of the methods that only inserts nodes that are in no tree. -/
def Run (nameOf : N → Name) (initial heap : Heap N) : Prop :=
  Relation.ReflTransGen
    (fun before after ↦ ∃ op : Op N Name, op.Admissible before ∧
      op.Step nameOf before after) initial heap

/-- A run whose calls of `delete` are for nodes without parent and children. -/
def IdleRun (nameOf : N → Name) (initial heap : Heap N) : Prop :=
  Relation.ReflTransGen
    (fun before after ↦ ∃ op : Op N Name, op.Admissible before ∧ op.Idle before ∧
      op.Step nameOf before after) initial heap

theorem Run.sound {initial heap : Heap N} (hrun : Run nameOf initial heap) (h : Sound initial) :
    Sound heap := by
  induction hrun with
  | refl => exact h
  | tail _ hstep ih =>
    obtain ⟨op, hadmissible, hstep⟩ := hstep
    exact hstep.sound hadmissible ih

theorem IdleRun.wellFormed {initial heap : Heap N} (hrun : IdleRun nameOf initial heap)
    (h : WellFormed initial) : WellFormed heap := by
  induction hrun with
  | refl => exact h
  | tail _ hstep ih =>
    obtain ⟨op, hadmissible, hidle, hstep⟩ := hstep
    exact hstep.wellFormed hadmissible hidle ih

/-- In every run the child lists are a forest and held nodes refer to their holders. A call of
`delete` removes exactly the subtree if and only if the node is `Deletable`. The references of the
nodes that are not held stay valid in the runs without deletes of nodes that have a parent or
children, and in no others: each such delete breaks them. -/
theorem tree_runs (nameOf : N → Name) {initial : Heap N} (hinitial : WellFormed initial) :
    (∀ heap, Run nameOf initial heap → Sound heap ∧
      ∀ n : N, (∃ result after, Ends (fun fuel ↦ delete fuel n) heap result after ∧
        RemovesSubtree n heap result after) ↔ Deletable heap n) ∧
    (∀ heap, IdleRun nameOf initial heap → WellFormed heap) ∧
    ∀ heap, WellFormed heap → ∀ (n : N) result after,
    Ends (fun fuel ↦ delete fuel n) heap result after →
      (WellFormed after ↔ heap.parent n = none ∧ heap.children n = []) := by
  refine ⟨fun heap hrun ↦ ?_, fun heap hrun ↦ hrun.wellFormed hinitial,
    fun heap hheap n result after ↦ ?_⟩
  · have hsound := hrun.sound hinitial.toSound
    exact ⟨hsound, hsound.delete_removes_iff⟩
  · exact hheap.delete_iff

end Runs

/-! ### A tree with a child that is passed over -/

/-- Node 0 holds 1 and 2, and 2 holds 3. -/
def siblings : Heap ℕ where
  children n := if n = 0 then [1, 2] else if n = 2 then [3] else []
  parent n := if n = 1 then some 0 else if n = 2 then some 0 else if n = 3 then some 2 else none

theorem mem_children_siblings {p c : ℕ} :
    c ∈ siblings.children p ↔ (p = 0 ∧ (c = 1 ∨ c = 2)) ∨ (p = 2 ∧ c = 3) := by
  simp only [siblings]
  by_cases h0 : p = 0
  · simp [h0]
  · by_cases h2 : p = 2
    · simp [h2]
    · simp [h0, h2]

theorem siblings_wellFormed : WellFormed siblings where
  forest := by
    refine ⟨fun p ↦ ?_, fun {p q c} hp hq ↦ ?_, ?_⟩
    · simp only [siblings]
      by_cases h0 : p = 0
      · simp [h0]
      · by_cases h2 : p = 2
        · simp [h2]
        · simp [h0, h2]
    · rw [mem_children_siblings] at hp hq
      omega
    · refine Subrelation.wf (r := InvImage (· < ·) fun n ↦ 3 - n) (fun {c p} hc ↦ ?_)
        (InvImage.wf _ Nat.lt_wfRel.wf)
      rw [mem_children_siblings] at hc
      show 3 - c < 3 - p
      omega
  held := by
    intro p c hc
    rw [mem_children_siblings] at hc
    rcases hc with ⟨rfl, rfl | rfl⟩ | ⟨rfl, rfl⟩ <;> rfl
  parent := by
    intro n p hn
    rw [mem_children_siblings]
    simp only [siblings] at hn
    by_cases h1 : n = 1
    · simp [h1] at hn
      omega
    · by_cases h2 : n = 2
      · simp [h2] at hn
        omega
      · by_cases h3 : n = 3
        · simp [h3] at hn
          omega
        · simp [h1, h2, h3] at hn

/-- The delete of node 0 leaves node 2 in its list, with its child, and a reference from 1 to 0. -/
theorem siblings_delete :
    WellFormed siblings ∧ ∃ after, Ends (fun fuel ↦ delete fuel 0) siblings (.ok ()) after ∧
      after.children 0 = [2] ∧ after.children 2 = [3] ∧ after.parent 1 = some 0 ∧
      ¬ RemovesSubtree 0 siblings (.ok ()) after ∧ ¬ WellFormed after := by
  have hvisited : ¬ Visited siblings.children 0 2 :=
    not_visited_of_mem_odds siblings_wellFormed.forest List.mem_cons_self
  obtain ⟨after, hends, hdeleted⟩ := siblings_wellFormed.ends_delete (n := 0)
    fun p ↦ siblings_wellFormed.parent
  have hzero : after.children 0 = [2] := hdeleted.visited 0 .refl
  have htwo : after.children 2 = [3] := hdeleted.other 2 hvisited fun h ↦ absurd h (by decide)
  refine ⟨siblings_wellFormed, after, hends, hzero, htwo, ?_, fun h ↦ ?_, fun h ↦ ?_⟩
  · rw [hdeleted.parent]
    rfl
  · have hnil := h.below 2 (.single (mem_children_siblings.mpr (by omega)))
    rw [htwo] at hnil
    cases hnil
  · have hmem := h.parent (n := 1) (p := 0) (by rw [hdeleted.parent]; rfl)
    rw [hzero] at hmem
    exact absurd hmem (by decide)

/-- In the tree with node 4 below node 3, node 2 heads the chain 2, 3, 4. -/
theorem deletable_siblings_hold (hsound : Sound (siblings.hold 3 0 4)) :
    Deletable (siblings.hold 3 0 4) 2 := by
  refine ⟨fun p hp ↦ ?_, fun x hx ↦ ?_⟩
  · obtain rfl : p = 0 := (Option.some.inj hp).symm
    decide
  have hzero : x ≠ 0 := by
    rintro rfl
    rcases Relation.ReflTransGen.cases_tail hx with heq | ⟨p, -, hp⟩
    · cases heq
    · have hparent := hsound.held hp
      cases hparent
  rw [Heap.hold, children_setParent]
  by_cases hthree : x = 3
  · rw [hthree, children_setChildren_self]
    decide
  · rw [children_setChildren_of_ne _ hthree]
    simp only [siblings, if_neg hzero]
    split_ifs <;> simp

/-- A run that inserts node 4 into node 3, after which the delete of node 2 removes its subtree. -/
theorem siblings_insert_run :
    Sound (siblings.hold 3 0 4) ∧ WellFormed (siblings.hold 3 0 4) ∧
      ∃ result after, Ends (fun fuel ↦ delete fuel 2) (siblings.hold 3 0 4) result after ∧
        RemovesSubtree 2 (siblings.hold 3 0 4) result after := by
  have hdetached : Detached siblings 3 4 := by
    refine ⟨fun p hp ↦ ?_, fun h ↦ ?_⟩
    · rw [mem_children_siblings] at hp
      omega
    · rcases Relation.ReflTransGen.cases_head h with heq | ⟨c, hc, -⟩
      · cases heq
      · rw [mem_children_siblings] at hc
        omega
  have hadmissible : (Op.insertChildren 3 [some 4] none none : Op ℕ ℕ).Admissible siblings := by
    refine ⟨List.nodup_singleton 4, fun child hchild ↦ ?_⟩
    rw [List.mem_singleton, Option.some.injEq] at hchild
    rw [hchild]
    exact hdetached
  have hstep : (Op.insertChildren 3 [some 4] none none : Op ℕ ℕ).Step id siblings
      (siblings.hold 3 0 4) :=
    ⟨.ok (), 0, fun _ _ ↦ rfl⟩
  have hruns := tree_runs (id : ℕ → ℕ) siblings_wellFormed
  obtain ⟨hsound, hremoves⟩ := hruns.1 _ (.single ⟨_, hadmissible, hstep⟩)
  exact ⟨hsound, hruns.2.1 _ (.single ⟨_, hadmissible, trivial, hstep⟩),
    (hremoves 2).mpr (deletable_siblings_hold hsound)⟩

end Userland.Install.DataObject
