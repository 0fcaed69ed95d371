import Userland.Library.Forest
import Userland.Library.Program

/-!
# The tree of data objects

Nodes refer to each other: a node has a list of children and a reference to its parent.
`insert_children`, `delete_children` and `delete` are programs over these references. All of them
keep the child lists a forest whose nodes refer to the nodes that hold them (`Sound`); the
insertions are of nodes that are not in a tree. `insert_children` and `delete_children` also keep
every parent reference valid (`WellFormed`).

Scope: the child list is a plain list; the sub-classes whose lists validate what they take are
modelled on their own. `delete` recurses without a bound that the source would have; a bound on the
depth stands in for it.
-/

set_option autoImplicit false
set_option relaxedAutoImplicit false

namespace Userland.Install.DataObject

open Userland.Library Userland.Library.Program

variable {N : Type}

/-- What the methods raise, and the end of the bound on recursion. -/
inductive DocError
  | outOfFuel
  | valueError
  | objectNotFoundError
  | typeError
deriving DecidableEq

/-- `_children` and `_parent` of every node. -/
structure Heap (N : Type) where
  children : N → List N
  parent : N → Option N

/-- A method of a data object. -/
abbrev Doc (N : Type) := Program (Heap N) DocError

/-- `_check_object_type`: an argument is a data object, or something else. -/
def checkObjectType : Option N → Doc N N
  | some object => pure object
  | none => throw .typeError

/-- `list.insert(index, element)`. -/
def listInsert (index : ℕ) (element : N) (list : List N) : List N :=
  list.take index ++ element :: list.drop index

theorem perm_listInsert (index : ℕ) (element : N) (list : List N) :
    (listInsert index element list).Perm (element :: list) := by
  unfold listInsert
  refine List.perm_middle.trans ?_
  rw [List.take_append_drop]

variable [DecidableEq N]

/-- `n._children = list`. -/
def Heap.setChildren (heap : Heap N) (n : N) (list : List N) : Heap N :=
  { heap with children := Function.update heap.children n list }

/-- `n._parent = parent`. -/
def Heap.setParent (heap : Heap N) (n : N) (parent : Option N) : Heap N :=
  { heap with parent := Function.update heap.parent n parent }

@[simp] theorem parent_setChildren (heap : Heap N) (n : N) (list : List N) :
    (heap.setChildren n list).parent = heap.parent := rfl

@[simp] theorem children_setParent (heap : Heap N) (n : N) (parent : Option N) :
    (heap.setParent n parent).children = heap.children := rfl

@[simp] theorem children_setChildren_self (heap : Heap N) (n : N) (list : List N) :
    (heap.setChildren n list).children n = list :=
  Function.update_self ..

@[simp] theorem children_setChildren_of_ne (heap : Heap N) {n x : N} (h : x ≠ n) (list : List N) :
    (heap.setChildren n list).children x = heap.children x :=
  Function.update_of_ne h ..

@[simp] theorem parent_setParent_self (heap : Heap N) (n : N) (parent : Option N) :
    (heap.setParent n parent).parent n = parent :=
  Function.update_self ..

@[simp] theorem parent_setParent_of_ne (heap : Heap N) {n x : N} (h : x ≠ n) (parent : Option N) :
    (heap.setParent n parent).parent x = heap.parent x :=
  Function.update_of_ne h ..

/-! ### Insertion -/

/-- Where `insert_children` starts to insert. -/
def insertAt (target : N) (before after : Option (Option N)) : Doc N ℕ :=
  match before, after with
  | some _, some _ => throw .valueError
  | some before, none => do
    let before ← checkObjectType before
    let heap ← get
    match (heap.children target).idxOf? before with
    | some index => pure index
    | none => throw .objectNotFoundError
  | none, some after => do
    let after ← checkObjectType after
    let heap ← get
    match (heap.children target).idxOf? after with
    | some index => pure (index + 1)
    | none => throw .objectNotFoundError
  | none, none => do
    let heap ← get
    pure (heap.children target).length

/-- `target._children.insert(index, child)` and `child._parent = target`. -/
def Heap.hold (heap : Heap N) (target : N) (index : ℕ) (child : N) : Heap N :=
  (heap.setChildren target (listInsert index child (heap.children target))).setParent child
    (some target)

/-- The insertion of one child. -/
def insertChild (target : N) (index : ℕ) (child : N) : Doc N Unit :=
  modify fun heap ↦
    heap.hold target index child

/-- The loop of `insert_children`. -/
def insertEach (target : N) : ℕ → List (Option N) → Doc N Unit
  | _, [] => pure ()
  | index, child :: rest => do
    let child ← checkObjectType child
    insertChild target index child
    insertEach target (index + 1) rest

/-- `target.insert_children(new_children, before, after)`. -/
def insertChildren (target : N) (newChildren : List (Option N)) (before after : Option (Option N)) :
    Doc N Unit := do
  let index ← insertAt target before after
  insertEach target index newChildren

/-! ### Deletion -/

/-- `target._children.remove(child)`, where it is found, and `child._parent = None`. -/
def Heap.release (heap : Heap N) (target child : N) : Heap N :=
  (heap.setChildren target ((heap.children target).erase child)).setParent child none

/-- `target.__delete_child(child, not_found_is_err)`. -/
def deleteChild (target : N) (notFoundIsErr : Bool) (child : Option N) : Doc N Unit := do
  let child ← checkObjectType child
  let heap ← get
  if (heap.children target).contains child then
    modify fun heap ↦ heap.release target child
  else if notFoundIsErr then throw .objectNotFoundError
  else pure ()

/-- `target.delete_children(children, name, class_type, not_found_is_err)`. -/
def deleteChildren {Name : Type} [DecidableEq Name] (nameOf : N → Name) (target : N)
    (children : Option (List (Option N))) (name : Option Name) (classType : Option (N → Bool))
    (notFoundIsErr : Bool) : Doc N Unit := do
  let heap ← get
  if (heap.children target).isEmpty && name.isNone && classType.isNone then pure ()
  else
    match children with
    | some children => forEach (deleteChild target notFoundIsErr) children
    | none => do
      let selected := (heap.children target).filter fun child ↦
        name.all (fun name ↦ name = nameOf child) && classType.all fun isInstance ↦ isInstance child
      forEach (fun child ↦ deleteChild target notFoundIsErr (some child)) selected
      if selected.isEmpty && notFoundIsErr then throw .objectNotFoundError else pure ()

/-- The end of `n.delete()`: the parent loses `n`. -/
def unlink (n : N) : Doc N Unit := do
  let heap ← get
  match heap.parent n with
  | none => pure ()
  | some parent =>
    if (heap.children parent).contains n then
      modify fun heap ↦ heap.setChildren parent ((heap.children parent).erase n)
    else throw .valueError

mutual

/-- `n.delete()`, with a bound on the depth of recursion. -/
def delete : ℕ → N → Doc N Unit
  | 0, _ => throw .outOfFuel
  | fuel + 1, n => do
    deleteEach fuel n 0
    unlink n

/-- The loop of `delete`. The iterator keeps an index into the list, which shrinks while it is used.
-/
def deleteEach : ℕ → N → ℕ → Doc N Unit
  | 0, _, _ => throw .outOfFuel
  | fuel + 1, n, index => do
    let heap ← get
    match (heap.children n)[index]? with
    | none => pure ()
    | some child => do
      delete fuel child
      deleteEach fuel n (index + 1)

end

/-! ### Invariants -/

omit [DecidableEq N] in
/-- The child lists are a forest, and a node that is held refers to the node that holds it. -/
structure Sound (heap : Heap N) : Prop where
  forest : IsForest heap.children
  held : ∀ {p c}, c ∈ heap.children p → heap.parent c = some p

/-- Moreover, a node refers to no other node as its parent. -/
structure WellFormed (heap : Heap N) : Prop extends Sound heap where
  parent : ∀ {n p}, heap.parent n = some p → n ∈ heap.children p

/-- A node that is in no tree, seen from the node that shall hold it. -/
structure Detached (heap : Heap N) (target node : N) : Prop where
  free : ∀ p, node ∉ heap.children p
  notAbove : ¬ BelowEq heap.children node target

section Hold

variable {heap : Heap N} {target child : N}

theorem mem_children_hold {index : ℕ} {p c : N} :
    c ∈ (heap.hold target index child).children p ↔
    (p = target ∧ c = child) ∨ c ∈ heap.children p := by
  unfold Heap.hold
  rw [children_setParent]
  by_cases hp : p = target
  · subst hp
    rw [children_setChildren_self, (perm_listInsert index child _).mem_iff, List.mem_cons]
    simp
  · rw [children_setChildren_of_ne heap hp]
    simp [hp]

/-- A node that is inserted is held by one node. -/
theorem Sound.hold (h : Sound heap) (hdetached : Detached heap target child) (index : ℕ) :
    Sound (heap.hold target index child) where
  forest := by
    refine h.forest.insert hdetached.free hdetached.notAbove ?_ fun p hp ↦ ?_
    · show ((heap.setChildren target _).children target).Perm _
      rw [children_setChildren_self]
      exact perm_listInsert index child _
    · exact children_setChildren_of_ne heap hp _
  held := by
    intro p c hc
    unfold Heap.hold
    rcases mem_children_hold.mp hc with ⟨rfl, rfl⟩ | hc
    · exact parent_setParent_self ..
    · have hne : c ≠ child := fun heq ↦ hdetached.free p (heq ▸ hc)
      rw [parent_setParent_of_ne _ hne]
      exact h.held hc

theorem WellFormed.hold (h : WellFormed heap) (hdetached : Detached heap target child) (index : ℕ) :
    WellFormed (heap.hold target index child) where
  toSound := h.toSound.hold hdetached index
  parent := by
    intro n p hn
    rw [mem_children_hold]
    unfold Heap.hold at hn
    by_cases hne : n = child
    · subst hne
      rw [parent_setParent_self] at hn
      exact .inl ⟨(Option.some.inj hn).symm, rfl⟩
    · rw [parent_setParent_of_ne _ hne] at hn
      exact .inr (h.parent hn)

/-- Another node that is in no tree is in none after the insertion. -/
theorem Detached.hold {other : N} (h : Detached heap target other) (hne : other ≠ child)
    (index : ℕ) :
    Detached (heap.hold target index child) target other where
  free p hmem := by
    rcases mem_children_hold.mp hmem with ⟨-, heq⟩ | hmem
    · exact hne heq
    · exact h.free p hmem
  notAbove habove := by
    -- a descent that uses the new edge has reached the target before
    refine h.notAbove (Relation.ReflTransGen.head_induction_on habove .refl fun {a c} hc _ ih ↦ ?_)
    rcases mem_children_hold.mp hc with ⟨rfl, -⟩ | hc
    · exact .refl
    · exact Relation.ReflTransGen.head hc ih

end Hold

omit [DecidableEq N] in
/-- Child lists that lose nodes, whatever becomes of the references of nodes that are not held. -/
theorem Sound.mono {heap heap' : Heap N} (h : Sound heap)
    (hsub : ∀ p, (heap'.children p).Sublist (heap.children p))
    (hparent : ∀ p c, c ∈ heap'.children p → heap'.parent c = heap.parent c) : Sound heap' where
  forest := h.forest.mono hsub
  held hc := (hparent _ _ hc).trans (h.held ((hsub _).mem hc))

theorem sublist_setChildren_erase (heap : Heap N) (target child p : N) :
    ((heap.setChildren target ((heap.children target).erase child)).children p).Sublist
      (heap.children p) := by
  by_cases hp : p = target
  · subst hp
    rw [children_setChildren_self]
    exact List.erase_sublist
  · rw [children_setChildren_of_ne heap hp]

theorem Sound.release {heap : Heap N} (h : Sound heap) {target child : N}
    (hchild : child ∈ heap.children target) : Sound (heap.release target child) := by
  refine h.mono (sublist_setChildren_erase heap target child) fun p c hc ↦ ?_
  refine parent_setParent_of_ne _ (fun heq ↦ ?_) _
  -- the node that is taken out is held nowhere else
  subst heq
  have hp := h.forest.unique ((sublist_setChildren_erase heap target c p).mem hc) hchild
  subst hp
  rw [Heap.release, children_setParent, children_setChildren_self] at hc
  exact (h.forest.nodup p).not_mem_erase hc

theorem WellFormed.release {heap : Heap N} (h : WellFormed heap) {target child : N}
    (hchild : child ∈ heap.children target) : WellFormed (heap.release target child) where
  toSound := h.toSound.release hchild
  parent := by
    intro n p hn
    unfold Heap.release at hn ⊢
    by_cases hne : n = child
    · subst hne
      rw [parent_setParent_self] at hn
      cases hn
    · rw [parent_setParent_of_ne _ hne] at hn
      have hmem := h.parent hn
      rw [children_setParent]
      by_cases hp : p = target
      · subst hp
        rw [children_setChildren_self]
        exact (List.mem_erase_of_ne hne).mpr hmem
      · rwa [children_setChildren_of_ne heap hp]

/-! ### What the methods keep -/

section Keep

variable {I : Heap N → Prop} {target : N}

theorem insertAt_keeps (before after : Option (Option N)) :
    Triple I (insertAt target before after) (fun _ ↦ I) fun _ ↦ I := by
  have hcheck : ∀ object : Option N,
      Triple I (checkObjectType object) (fun _ ↦ I) fun _ ↦ I := by
    rintro (_ | object)
    · exact Triple.throw fun _ h ↦ h
    · exact Triple.pure fun _ h ↦ h
  have hget : Triple I (get : Doc N (Heap N)) (fun _ ↦ I) fun _ ↦ I := Triple.get fun _ h ↦ h
  rcases before with _ | before <;> rcases after with _ | after
  · exact Triple.bind hget fun _ ↦ Triple.pure fun _ h ↦ h
  · refine Triple.bind (hcheck after) fun found ↦ Triple.bind hget fun heap ↦ ?_
    cases (heap.children target).idxOf? found with
    | none => exact Triple.throw fun _ h ↦ h
    | some index => exact Triple.pure fun _ h ↦ h
  · refine Triple.bind (hcheck before) fun found ↦ Triple.bind hget fun heap ↦ ?_
    cases (heap.children target).idxOf? found with
    | none => exact Triple.throw fun _ h ↦ h
    | some index => exact Triple.pure fun _ h ↦ h
  · exact Triple.throw fun _ h ↦ h

/-- Different nodes that are in no tree are inserted one after the other. -/
theorem insertEach_keeps
    (hhold : ∀ heap child index, I heap → Detached heap target child →
      I (heap.hold target index child))
    {newChildren : List (Option N)} (hnodup : (newChildren.filterMap id).Nodup) (index : ℕ) :
    Triple (fun heap ↦ I heap ∧ ∀ child, some child ∈ newChildren → Detached heap target child)
      (insertEach target index newChildren) (fun _ ↦ I) fun _ ↦ I := by
  induction newChildren generalizing index with
  | nil => exact Triple.pure fun _ h ↦ h.1
  | cons first rest ih =>
    cases first with
    | none => exact Triple.bind (M := fun _ _ ↦ False) (Triple.throw fun _ h ↦ h.1) fun _ _ h ↦
      h.elim
    | some child =>
      rw [List.filterMap_cons_some (f := id) (b := child) rfl, List.nodup_cons] at hnodup
      have hdistinct : ∀ other, some other ∈ rest → other ≠ child := fun other hother heq ↦
        hnodup.1 (List.mem_filterMap.mpr ⟨some other, hother, heq ▸ rfl⟩)
      refine Triple.bind (M := fun found heap ↦ found = child ∧ I heap ∧
        ∀ other, some other ∈ some child :: rest → Detached heap target other)
        (Triple.pure fun _ h ↦ ⟨rfl, h⟩) fun found ↦ Triple.assume fun hfound ↦ ?_
      subst hfound
      refine Triple.bind (Triple.modify fun heap h ↦ ?_) fun _ ↦ ih hnodup.2 (index + 1)
      refine ⟨hhold heap found index h.1 (h.2 found List.mem_cons_self), fun other hother ↦ ?_⟩
      exact (h.2 other (List.mem_cons_of_mem _ hother)).hold (hdistinct other hother) index

theorem deleteChild_keeps (notFoundIsErr : Bool) (child : Option N)
    (hrelease : ∀ heap child, I heap → child ∈ heap.children target →
      I (heap.release target child)) :
    Triple I (deleteChild target notFoundIsErr child) (fun _ ↦ I) fun _ ↦ I := by
  cases child with
  | none => exact Triple.bind (M := fun _ _ ↦ False) (Triple.throw fun _ h ↦ h) fun _ _ h ↦ h.elim
  | some child =>
    refine Triple.bind (M := fun found heap ↦ found = child ∧ I heap)
      (Triple.pure fun _ h ↦ ⟨rfl, h⟩) fun found ↦ Triple.assume fun hfound ↦ ?_
    subst hfound
    refine Triple.bind (M := fun heap state ↦ heap = state ∧ I state)
      (Triple.get fun _ h ↦ ⟨rfl, h⟩) fun heap ↦ ?_
    by_cases hmem : (heap.children target).contains found = true
    · rw [if_pos hmem]
      refine Triple.modify fun state h ↦ hrelease state found h.2 ?_
      rw [← h.1]
      exact List.contains_iff_mem.mp hmem
    · rw [if_neg hmem]
      cases notFoundIsErr
      · exact Triple.pure fun _ h ↦ h.2
      · exact Triple.throw fun _ h ↦ h.2

theorem deleteChildren_keeps {Name : Type} [DecidableEq Name] (nameOf : N → Name)
    (children : Option (List (Option N))) (name : Option Name) (classType : Option (N → Bool))
    (notFoundIsErr : Bool)
    (hrelease : ∀ heap child, I heap → child ∈ heap.children target →
      I (heap.release target child)) :
    Triple I (deleteChildren nameOf target children name classType notFoundIsErr) (fun _ ↦ I)
      fun _ ↦ I := by
  refine Triple.bind (M := fun _ ↦ I) (Triple.get fun _ h ↦ h) fun heap ↦ ?_
  by_cases hnothing : ((heap.children target).isEmpty && name.isNone && classType.isNone) = true
  · rw [if_pos hnothing]
    exact Triple.pure fun _ h ↦ h
  rw [if_neg hnothing]
  cases children with
  | some children =>
    exact Triple.forEach_same fun child _ ↦ deleteChild_keeps notFoundIsErr child hrelease
  | none =>
    refine Triple.bind (Triple.forEach_same fun child _ ↦
      deleteChild_keeps notFoundIsErr (some child) hrelease) fun _ ↦ ?_
    split
    · exact Triple.throw fun _ h ↦ h
    · exact Triple.pure fun _ h ↦ h

end Keep

theorem unlink_sound (n : N) : Triple Sound (unlink n) (fun _ ↦ Sound) fun _ ↦ Sound := by
  refine Triple.bind (M := fun heap state ↦ heap = state ∧ Sound state)
    (Triple.get fun _ h ↦ ⟨rfl, h⟩) fun heap ↦ ?_
  cases heap.parent n with
  | none => exact Triple.pure fun _ h ↦ h.2
  | some parent =>
    dsimp only
    by_cases hmem : (heap.children parent).contains n = true
    · rw [if_pos hmem]
      refine Triple.modify fun state h ↦ ?_
      exact h.2.mono (sublist_setChildren_erase state parent n) fun _ _ _ ↦ rfl
    · rw [if_neg hmem]
      exact Triple.throw fun _ h ↦ h.2

/-- `delete` only takes nodes out of lists. -/
theorem delete_sound (fuel : ℕ) :
    (∀ n : N, Triple Sound (delete fuel n) (fun _ ↦ Sound) fun _ ↦ Sound) ∧
      ∀ (n : N) index, Triple Sound (deleteEach fuel n index) (fun _ ↦ Sound) fun _ ↦ Sound := by
  induction fuel with
  | zero => exact ⟨fun _ ↦ Triple.throw fun _ h ↦ h, fun _ _ ↦ Triple.throw fun _ h ↦ h⟩
  | succ fuel ih =>
    refine ⟨fun n ↦ Triple.bind (ih.2 n 0) fun _ ↦ unlink_sound n, fun n index ↦ ?_⟩
    refine Triple.bind (M := fun _ ↦ Sound) (Triple.get fun _ h ↦ h) fun heap ↦ ?_
    cases (heap.children n)[index]? with
    | none => exact Triple.pure fun _ h ↦ h
    | some child => exact Triple.bind (ih.1 child) fun _ ↦ ih.2 n (index + 1)

end Userland.Install.DataObject
