import Mathlib.Data.List.Basic
import Userland.Install.DataObject.Tree

/-!
# Searching for descendants

`get_descendants` goes through the children of a data object and below them, with a number of
elements that may still be found and a number of levels that may still be entered. It returns the
first elements of the listing of all descendants in preorder that are at most so deep and meet the
criteria (`getDescendants_eq`).

Scope. The objects below a data object are a tree; the types of objects and the test of `isinstance`
are parameters.
-/

set_option autoImplicit false
set_option relaxedAutoImplicit false

namespace Userland.Install.DataObject

/-- A data object of a type, with its children. -/
inductive Node (T : Type)
  | object (name : Option (List Char)) (type : T) (children : List (Node T))

namespace Node

variable {T : Type}

/-- `name`. -/
def name : Node T → Option (List Char)
  | object name _ _ => name

/-- The type of the object. -/
def type : Node T → T
  | object _ type _ => type

/-- `_children`. -/
def children : Node T → List (Node T)
  | object _ _ children => children

end Node

/-- The types that can be asked for; every object is an instance of `DataObjectBase`. -/
structure Classes (T : Type) where
  Class : Type
  isinstance : T → Class → Bool
  dataObjectBase : Class
  isinstance_dataObjectBase : ∀ type, isinstance type dataObjectBase = true

variable {T : Type}

section Search

variable (classes : Classes T)

/-- A child matches the criteria. -/
def isMatch (name : Option (List Char)) (classType : classes.Class) (child : Node T) : Bool :=
  classes.isinstance child.type classType && (name.isNone || decide (name = child.name))

/-- The depth for the children of a child; none if the search goes no deeper. -/
def deeper : Option ℤ → Option (Option ℤ)
  | none => some none
  | some maxDepth => if 1 < maxDepth then some (some (maxDepth - 1)) else if maxDepth = 1 then none
    else some none

/-- What is wrong with the arguments. -/
def checkArguments (name : Option (List Char)) (classType : Option classes.Class)
    (maxDepth maxCount : Option ℤ) :
    Except DocError Unit :=
  if maxDepth.any (· < 0) then .error .valueError
  else if maxCount.any (· < 1) then .error .valueError
  else if name.isNone && classType.isNone then .error .valueError
  else .ok ()

/-- What becomes of what was found below a child. -/
def extend (newList : List (Node T)) :
    Except DocError (List (Node T)) → Except DocError (List (Node T))
  | .ok childrenList => .ok (newList ++ childrenList)
  | .error .objectNotFoundError => .ok newList
  | .error error => .error error

/-- The end of the search. -/
def finish (notFoundIsErr : Bool) (newList : List (Node T)) : Except DocError (List (Node T)) :=
  if newList.isEmpty && notFoundIsErr then .error .objectNotFoundError else .ok newList

/-- The search below a child, with the call for the child as a parameter. -/
def searchBelow (search : Option ℤ → Except DocError (List (Node T))) (maxDepth : Option ℤ)
    (child : Node T) (newList : List (Node T)) : Except DocError (List (Node T)) :=
  if child.children.isEmpty then .ok newList
  else
    match deeper maxDepth with
    | none => .ok newList
    | some newMaxDepth => extend newList (search newMaxDepth)

mutual

/-- `get_descendants`. -/
def getDescendants (name : Option (List Char)) (classType : Option classes.Class)
    (maxDepth maxCount : Option ℤ) (notFoundIsErr : Bool) : Node T → Except DocError (List (Node T))
  | .object _ _ children => do
    checkArguments classes name classType maxDepth maxCount
    let newList ← searchEach name (classType.getD classes.dataObjectBase) maxDepth
      maxCount [] children
    finish notFoundIsErr newList

/-- The loop of `get_descendants` over the rest of the children. -/
def searchEach (name : Option (List Char)) (classType : classes.Class)
    (maxDepth maxCount : Option ℤ)
    (newList : List (Node T)) : List (Node T) → Except DocError (List (Node T))
  | [] => .ok newList
  | child :: rest =>
    if maxCount.any fun count ↦ count - (newList.length : ℤ) < 1 then .ok newList
    else
      let newMaxCount := maxCount.map fun count ↦ count - (newList.length : ℤ)
      if isMatch classes name classType child then
        let newList := newList ++ [child]
        if maxCount.any fun count ↦ count ≤ (newList.length : ℤ) then .ok newList
        else do
          let newList ← searchBelow (fun newMaxDepth ↦
            getDescendants name (some classType) newMaxDepth
              (newMaxCount.map (· - 1)) false child) maxDepth child newList
          searchEach name classType maxDepth maxCount newList rest
      else do
        let newList ← searchBelow (fun newMaxDepth ↦
          getDescendants name (some classType) newMaxDepth newMaxCount false child) maxDepth
            child newList
        searchEach name classType maxDepth maxCount newList rest

end

/-! ### The listing in preorder -/

mutual

/-- The descendants of an object at a depth, in preorder, with their depths. -/
def preorder (depth : ℕ) : Node T → List (ℕ × Node T)
  | .object _ _ children => preorderEach depth children

/-- The children and what is below them. -/
def preorderEach (depth : ℕ) : List (Node T) → List (ℕ × Node T)
  | [] => []
  | child :: rest => (depth + 1, child) :: (preorder (depth + 1) child ++ preorderEach depth rest)

end

/-- A depth is not more than the greatest one; none and zero stand for no limit. -/
def within (maxDepth : Option ℤ) (depth : ℕ) : Bool :=
  maxDepth.all fun most ↦ most = 0 || (depth : ℤ) ≤ most

/-- The matching elements of a listing that are not too deep. -/
def matching (name : Option (List Char)) (classType : classes.Class) (maxDepth : Option ℤ)
    (listing : List (ℕ × Node T)) : List (Node T) :=
  (listing.filter fun entry ↦ within maxDepth entry.1 &&
    isMatch classes name classType entry.2).map Prod.snd

/-- The first elements of a list, all of them if there is no limit. -/
def takeAtMost (maxCount : Option ℤ) (list : List (Node T)) : List (Node T) :=
  match maxCount with
  | none => list
  | some count => list.take count.toNat

mutual

theorem preorder_succ (depth : ℕ) :
    ∀ node : Node T, preorder (depth + 1) node = (preorder depth node).map fun entry ↦
    (entry.1 + 1, entry.2)
  | .object _ _ children => preorderEach_succ depth children

theorem preorderEach_succ (depth : ℕ) :
    ∀ children : List (Node T), preorderEach (depth + 1) children =
      (preorderEach depth children).map fun entry ↦ (entry.1 + 1, entry.2)
  | [] => rfl
  | child :: rest => by
    rw [preorderEach, preorderEach, preorder_succ (depth + 1) child, preorderEach_succ depth rest,
      List.map_cons, List.map_append]

end

mutual

theorem lt_of_mem_preorder {depth : ℕ} {entry : ℕ × Node T} :
    ∀ {node : Node T}, entry ∈ preorder depth node → depth < entry.1
  | .object _ _ _, h => lt_of_mem_preorderEach h

theorem lt_of_mem_preorderEach {depth : ℕ} {entry : ℕ × Node T} :
    ∀ {children : List (Node T)}, entry ∈ preorderEach depth children → depth < entry.1
  | [], h => absurd h List.not_mem_nil
  | child :: rest, h => by
    rw [preorderEach, List.mem_cons, List.mem_append] at h
    rcases h with rfl | h | h
    · exact Nat.lt_succ_self depth
    · exact (Nat.lt_succ_self depth).trans (lt_of_mem_preorder h)
    · exact lt_of_mem_preorderEach h

end

variable {classes} {name : Option (List Char)} {classType : classes.Class}
  {maxDepth maxCount : Option ℤ}

theorem matching_append (listing listing' : List (ℕ × Node T)) :
    matching classes name classType maxDepth (listing ++ listing') =
      matching classes name classType maxDepth listing ++
      matching classes name classType maxDepth listing' := by
  simp only [matching, List.filter_append, List.map_append]

/-- Below a child the limit is lower by one. -/
theorem matching_below (hdepth : maxDepth.any (· < 0) = false) (child : Node T) :
    matching classes name classType maxDepth (preorder 1 child) =
      match deeper maxDepth with
      | none => []
      | some newMaxDepth => matching classes name classType newMaxDepth (preorder 0 child) := by
  have hlower : ∀ newMaxDepth, (∀ depth, within maxDepth (depth + 1) = within newMaxDepth depth) →
      matching classes name classType maxDepth (preorder 1 child) =
        matching classes name classType newMaxDepth (preorder 0 child) := by
    intro newMaxDepth h
    simp only [matching, preorder_succ 0 child, List.filter_map, List.map_map, Function.comp_def, h]
  rcases maxDepth with - | most
  · exact hlower none fun _ ↦ rfl
  · have hmost : 0 ≤ most := by simpa using hdepth
    unfold deeper
    by_cases hgreat : 1 < most
    · simp only [if_pos hgreat]
      refine hlower _ fun depth ↦ ?_
      simp only [within, Option.all_some]
      grind
    · by_cases hone : most = 1
      · simp only [if_neg hgreat, if_pos hone]
        have hnone : (preorder 1 child).filter (fun entry ↦ within (some most) entry.1 &&
            isMatch classes name classType entry.2) = [] := by
          refine List.filter_eq_nil_iff.mpr fun entry hentry ↦ ?_
          have := lt_of_mem_preorder hentry
          simp only [within, Option.all_some]
          grind
        rw [matching, hnone, List.map_nil]
      · simp only [if_neg hgreat, if_neg hone]
        have hzero : most = 0 := by omega
        exact hlower none fun depth ↦ by simp [within, hzero]

/-! ### What is found -/

/-- Elements that are taken up to a limit may be cut before others are added. -/
theorem takeAtMost_append (newList found rest : List (Node T))
    (hlength : maxCount.all fun count ↦ (newList.length : ℤ) ≤ count) :
    takeAtMost maxCount (newList ++ takeAtMost (maxCount.map fun count ↦
      count - (newList.length : ℤ)) found ++ rest) =
      takeAtMost maxCount (newList ++ found ++ rest) := by
  rcases maxCount with - | count
  · rfl
  · have hle : (newList.length : ℤ) ≤ count := by simpa using hlength
    have hnat : (count - (newList.length : ℤ)).toNat = count.toNat - newList.length := by omega
    have hcut : newList ++ found.take (count.toNat - newList.length) =
        (newList ++ found).take count.toNat := by
      rw [List.take_append, List.take_of_length_le (by omega : newList.length ≤ count.toNat)]
    show ((newList ++ found.take (count - (newList.length : ℤ)).toNat) ++ rest).take count.toNat =
      ((newList ++ found) ++ rest).take count.toNat
    rw [hnat, hcut]
    generalize newList ++ found = all
    rw [List.take_append, List.take_append, List.take_take, List.length_take, Nat.min_self]
    congr 2
    omega

/-- What was found fits the limit after a search below a child. -/
theorem length_append_takeAtMost (newList found : List (Node T))
    (hlength : maxCount.all fun count ↦ (newList.length : ℤ) ≤ count) :
    maxCount.all fun count ↦ ((newList ++
      takeAtMost (maxCount.map fun count ↦ count - (newList.length : ℤ)) found).length :
      ℤ) ≤ count := by
  rcases maxCount with - | count
  · rfl
  · have hle : (newList.length : ℤ) ≤ count := by simpa using hlength
    rw [Option.all_some, decide_eq_true_iff, List.length_append]
    have := List.length_take_le (count - (newList.length : ℤ)).toNat found
    show ((newList.length + (found.take (count - (newList.length : ℤ)).toNat).length : ℕ) : ℤ) ≤
      count
    omega

/-- A limit that is reached cuts off what comes. -/
theorem takeAtMost_of_reached {newList : List (Node T)}
    (hlength : maxCount.all fun count ↦ (newList.length : ℤ) ≤ count)
    (hreached : maxCount.any fun count ↦ count ≤ (newList.length : ℤ)) (rest : List (Node T)) :
    takeAtMost maxCount (newList ++ rest) = newList := by
  rcases maxCount with - | count
  · cases hreached
  · rw [Option.all_some, decide_eq_true_iff] at hlength
    rw [Option.any_some, decide_eq_true_iff] at hreached
    exact List.take_left' (by omega)

theorem takeAtMost_of_length {newList : List (Node T)}
    (hlength : maxCount.all fun count ↦ (newList.length : ℤ) ≤ count) :
    takeAtMost maxCount newList = newList := by
  rcases maxCount with - | count
  · rfl
  · rw [Option.all_some, decide_eq_true_iff] at hlength
    exact List.take_of_length_le (by omega)

/-- The listing of a child and what follows it. -/
theorem matching_cons (hdepth : maxDepth.any (· < 0) = false) (child : Node T)
    (rest : List (Node T)) :
    matching classes name classType maxDepth (preorderEach 0 (child :: rest)) =
      (if isMatch classes name classType child then [child] else []) ++
        matching classes name classType maxDepth (preorder 1 child) ++
        matching classes name classType maxDepth (preorderEach 0 rest) := by
  have hwithin : within maxDepth (0 + 1) = true := by
    rcases maxDepth with - | most
    · rfl
    · rw [Option.any_some, decide_eq_false_iff_not] at hdepth
      simp only [within, Option.all_some, Bool.or_eq_true, decide_eq_true_iff]
      omega
  rw [preorderEach, ← List.cons_append, ← List.singleton_append, matching_append, matching_append]
  congr 2
  unfold matching
  split_ifs with hmatch
  · rw [List.filter_cons_of_pos (by rw [hwithin, hmatch, Bool.and_self]), List.filter_nil,
      List.map_singleton]
  · rw [List.filter_cons_of_neg (by rwa [hwithin, Bool.true_and]), List.filter_nil, List.map_nil]

/-- The search below a child adds what matches there, up to the limit. -/
theorem searchBelow_eq {newCount : Option ℤ} {search : Option ℤ → Except DocError (List (Node T))}
    {child : Node T} (hdepth : maxDepth.any (· < 0) = false) (newList : List (Node T))
    (hsearch : ∀ newMaxDepth : Option ℤ, newMaxDepth.any (· < 0) = false → search newMaxDepth =
      .ok (takeAtMost newCount (matching classes name classType newMaxDepth (preorder 0 child)))) :
    searchBelow search maxDepth child newList =
      .ok (newList ++ takeAtMost newCount
        (matching classes name classType maxDepth (preorder 1 child))) := by
  have hnil : takeAtMost newCount ([] : List (Node T)) = [] := by
    cases newCount <;> simp [takeAtMost]
  unfold searchBelow
  by_cases hempty : child.children.isEmpty = true
  · rw [if_pos hempty]
    have hpreorder : preorder 1 child = [] := by
      cases child with
      | object name type children =>
        have hchildren : children = [] := List.isEmpty_iff.mp hempty
        rw [hchildren, preorder, preorderEach]
    rw [hpreorder, matching, List.filter_nil, List.map_nil, hnil, List.append_nil]
  · rw [if_neg hempty, matching_below hdepth]
    rcases hdeeper : deeper maxDepth with - | newMaxDepth
    · show Except.ok newList = Except.ok (newList ++ takeAtMost newCount [])
      rw [hnil, List.append_nil]
    · show extend newList (search newMaxDepth) = _
      rw [hsearch newMaxDepth ?_]
      · rfl
      · unfold deeper at hdeeper
        split at hdeeper
        · cases hdeeper
          rfl
        · split_ifs at hdeeper with hgreat hone
          · cases hdeeper
            rw [Option.any_some, decide_eq_false_iff_not]
            omega
          · cases hdeeper
            rfl

variable (name classType)

mutual

/-- Below an object the first matching elements of the listing are found. -/
theorem getDescendants_some :
    ∀ (node : Node T) (maxDepth maxCount : Option ℤ), maxDepth.any (· < 0) = false →
      maxCount.any (· < 1) = false →
      getDescendants classes name (some classType) maxDepth maxCount false node =
        .ok (takeAtMost maxCount (matching classes name classType maxDepth (preorder 0 node)))
  | .object _ _ children, maxDepth, maxCount, hdepth, hcount => by
    have hcheck : checkArguments classes name (some classType) maxDepth maxCount = .ok () := by
      unfold checkArguments
      rw [hdepth, hcount]
      simp
    have hlength : maxCount.all fun count ↦ (([] : List (Node T)).length : ℤ) ≤ count := by
      cases maxCount <;> simp at hcount ⊢
      omega
    have heach := searchEach_eq children [] maxDepth maxCount hdepth hlength
    rw [getDescendants, hcheck]
    show (searchEach classes name classType maxDepth maxCount [] children).bind (finish false) = _
    rw [heach]
    show finish false _ = _
    rw [finish, Bool.and_false]
    rfl

/-- The loop adds what matches among the children and below them, up to the limit. -/
theorem searchEach_eq :
    ∀ (children : List (Node T)) (newList : List (Node T)) (maxDepth maxCount : Option ℤ),
      maxDepth.any (· < 0) = false → (maxCount.all fun count ↦ (newList.length : ℤ) ≤ count) →
      searchEach classes name classType maxDepth maxCount newList children =
        .ok (takeAtMost maxCount (newList ++ matching classes name classType maxDepth
          (preorderEach 0 children)))
  | [], newList, maxDepth, maxCount, _, hlength => by
    rw [searchEach, preorderEach, matching, List.filter_nil, List.map_nil, List.append_nil,
      takeAtMost_of_length hlength]
  | child :: rest, newList, maxDepth, maxCount, hdepth, hlength => by
    have hbelow := fun newMaxDepth newCount h h' ↦
      getDescendants_some child newMaxDepth newCount h h'
    have hrest := fun newList' h ↦ searchEach_eq rest newList' maxDepth maxCount hdepth h
    -- The rest of the children is searched after what is below the child.
    have hgo : ∀ newList' : List (Node T),
        (maxCount.all fun count ↦ (newList'.length : ℤ) ≤ count) →
        (maxCount.any fun count ↦ count ≤ (newList'.length : ℤ)) = false →
        (searchBelow (fun newMaxDepth ↦ getDescendants classes name (some classType) newMaxDepth
          (maxCount.map fun count ↦ count - (newList'.length : ℤ)) false child) maxDepth child
            newList').bind
          (fun newList ↦ searchEach classes name classType maxDepth maxCount newList rest) =
        .ok (takeAtMost maxCount (newList' ++ matching classes name classType maxDepth
          (preorder 1 child) ++
          matching classes name classType maxDepth (preorderEach 0 rest))) := by
      intro newList' hlength' hopen
      have hcount : (maxCount.map fun count ↦ count - (newList'.length : ℤ)).any
          (· < 1) = false := by
        cases maxCount <;> simp at hopen ⊢
        omega
      rw [searchBelow_eq hdepth newList' fun newMaxDepth h ↦ hbelow newMaxDepth _ h hcount]
      show searchEach classes name classType maxDepth maxCount _ rest = _
      rw [hrest _ (length_append_takeAtMost newList' _ hlength'),
        takeAtMost_append newList' _ _ hlength']
    rw [matching_cons hdepth, searchEach]
    by_cases hreached : (maxCount.any fun count ↦ count - (newList.length : ℤ) < 1) = true
    · have hfull : (maxCount.any fun count ↦ count ≤ (newList.length : ℤ)) = true := by
        cases maxCount <;> simp at hreached ⊢
        omega
      rw [if_pos hreached, takeAtMost_of_reached hlength hfull]
    have hopen : (maxCount.any fun count ↦ count ≤ (newList.length : ℤ)) = false := by
      cases maxCount <;> simp at hreached ⊢
      omega
    rw [if_neg hreached]
    by_cases hmatch : isMatch classes name classType child = true
    · have hlength' : maxCount.all fun count ↦ ((newList ++ [child]).length : ℤ) ≤ count := by
        cases maxCount <;> simp at hopen ⊢
        omega
      rw [if_pos hmatch, if_pos hmatch, List.append_assoc [child], ← List.append_assoc newList]
      dsimp only
      by_cases hfull : (maxCount.any fun count ↦ count ≤ ((newList ++ [child]).length : ℤ)) = true
      · rw [if_pos hfull, takeAtMost_of_reached hlength' hfull]
      · have hcount : ((maxCount.map fun count ↦ count - (newList.length : ℤ)).map (· - 1)) =
            maxCount.map fun count ↦ count - ((newList ++ [child]).length : ℤ) := by
          cases maxCount <;> simp
          omega
        rw [if_neg hfull, hcount, ← List.append_assoc (newList ++ [child])]
        exact hgo _ hlength' (Bool.eq_false_iff.mpr hfull)
    · rw [if_neg hmatch, if_neg hmatch, List.nil_append, ← List.append_assoc newList]
      exact hgo _ hlength hopen

end

variable {name}

/-- A descendant meets the criteria that are given. -/
def meets (name : Option (List Char)) (classType : Option classes.Class) (node : Node T) : Bool :=
  (name.all fun wanted ↦ node.name = some wanted) && classType.all fun type ↦
    classes.isinstance node.type type

/-- The descendants that meet the criteria and are not too deep, in preorder. -/
def listing (name : Option (List Char)) (classType : Option classes.Class) (maxDepth : Option ℤ)
    (node : Node T) :
    List (Node T) :=
  ((preorder 0 node).filter fun entry ↦ within maxDepth entry.1 &&
    meets name classType entry.2).map Prod.snd

theorem isMatch_getD (classType : Option classes.Class) (node : Node T) :
    isMatch classes name (classType.getD classes.dataObjectBase) node =
    meets name classType node := by
  have hclass : classes.isinstance node.type (classType.getD classes.dataObjectBase) =
      classType.all fun type ↦ classes.isinstance node.type type := by
    cases classType with
    | none => exact classes.isinstance_dataObjectBase _
    | some type => rfl
  have hname : (name.isNone || decide (name = node.name)) = name.all fun wanted ↦
      node.name = some wanted := by
    cases name with
    | none => rfl
    | some wanted => simp [eq_comm]
  rw [isMatch, meets, hclass, hname, Bool.and_comm]

theorem matching_getD (classType : Option classes.Class) (node : Node T) :
    matching classes name (classType.getD classes.dataObjectBase) maxDepth (preorder 0 node) =
      listing name classType maxDepth node := by
  simp only [matching, listing, isMatch_getD]

theorem getDescendants_of_checked (node : Node T) (name : Option (List Char))
    (classType : Option classes.Class) (maxDepth maxCount : Option ℤ) (notFoundIsErr : Bool)
    (hcheck : checkArguments classes name classType maxDepth maxCount = .ok ())
    (hdepth : maxDepth.any (· < 0) = false) (hcount : ∀ count, maxCount = some count → 1 ≤ count) :
    getDescendants classes name classType maxDepth maxCount notFoundIsErr node =
      if notFoundIsErr && (listing name classType maxDepth node).isEmpty then .error
      .objectNotFoundError
      else .ok (takeAtMost maxCount (listing name classType maxDepth node)) := by
  have hlength : maxCount.all fun count ↦ (([] : List (Node T)).length : ℤ) ≤ count := by
    cases maxCount <;> simp at hcount ⊢
    omega
  obtain ⟨label, type, children⟩ := node
  rw [getDescendants, hcheck]
  show (searchEach classes name _ maxDepth maxCount [] children).bind (finish notFoundIsErr) = _
  rw [searchEach_eq name _ children [] maxDepth maxCount hdepth hlength, List.nil_append,
    ← matching_getD]
  show finish notFoundIsErr
    (takeAtMost maxCount (matching classes name _ maxDepth (preorderEach 0 children))) = _
  rw [finish, preorder]
  generalize matching classes name _ maxDepth (preorderEach 0 children) = found
  have hempty : (takeAtMost maxCount found).isEmpty = found.isEmpty := by
    cases maxCount with
    | none => rfl
    | some count =>
      have := hcount count rfl
      cases found with
      | nil => simp [takeAtMost]
      | cons first rest =>
        obtain ⟨fewer, hfewer⟩ : ∃ fewer, count.toNat = fewer + 1 := ⟨count.toNat - 1, by omega⟩
        rw [takeAtMost, hfewer, List.take_succ_cons]
        rfl
  rw [hempty, Bool.and_comm]

/-- The first elements of the listing are returned, and it is an error exactly if nothing is listed
and that is to be one. -/
theorem getDescendants_eq (node : Node T) (name : Option (List Char))
    (classType : Option classes.Class)
    (maxDepth maxCount : Option ℤ) (notFoundIsErr : Bool)
    (hcriteria : name ≠ none ∨ classType ≠ none)
    (hdepth : ∀ depth, maxDepth = some depth → 0 ≤ depth)
    (hcount : ∀ count, maxCount = some count → 1 ≤ count) :
    getDescendants classes name classType maxDepth maxCount notFoundIsErr node =
      if notFoundIsErr && (listing name classType maxDepth node).isEmpty then .error
      .objectNotFoundError
      else .ok (takeAtMost maxCount (listing name classType maxDepth node)) := by
  have hdepth' : maxDepth.any (· < 0) = false := by
    cases maxDepth <;> simp at hdepth ⊢
    exact hdepth
  have hcount' : maxCount.any (· < 1) = false := by
    cases maxCount <;> simp at hcount ⊢
    exact hcount
  have hcheck : checkArguments classes name classType maxDepth maxCount = .ok () := by
    unfold checkArguments
    rw [hdepth', hcount']
    cases name <;> cases classType <;> simp at hcriteria ⊢
  exact getDescendants_of_checked node name classType maxDepth maxCount notFoundIsErr hcheck
    hdepth' hcount

end Search

/-- Objects of one type only. -/
def plain : Classes Unit where
  Class := Unit
  isinstance := fun _ _ ↦ true
  dataObjectBase := ()
  isinstance_dataObjectBase := fun _ ↦ rfl

/-- A tree of three levels with two objects of one name. -/
def sample : Node Unit :=
  .object none () [.object (some ['b']) () [.object (some ['d']) () []], .object (some ['d']) () []]

theorem getDescendants_sample :
    getDescendants plain (some ['d']) none (some 2) (some 1) true sample =
    .ok [.object (some ['d']) () []] :=
  getDescendants_eq sample (some ['d']) none (some 2) (some 1) true (.inl (by decide))
    (fun _ h ↦ by cases h; decide) (fun _ h ↦ by cases h; decide)

end Userland.Install.DataObject
