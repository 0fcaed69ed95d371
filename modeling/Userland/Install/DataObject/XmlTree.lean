import Userland.Install.DataObject.Descendants

/-!
# The XML of a tree of data objects

`get_xml_tree` asks every object for an element, and appends the elements of its children to its own
one, or to that of an older ancestor if it has none. `lineage_getXmlTree` compares the elements of
the result with the objects: in the order of depth first search they are the objects that have an
element and no ancestor that makes the XML of its children, and the ancestors of an element are the
elements of the ancestors of its object.

Scope. What `to_xml` returns is a parameter, with the sub-elements that are in it from the start.
-/

set_option autoImplicit false
set_option relaxedAutoImplicit false

namespace Userland.Install.DataObject

/-- An XML element: what it was made with, and the elements that were appended to it. -/
inductive Element (L : Type)
  | element (label : L) (appended : List (Element L))

namespace Element

variable {L : Type}

/-- `append`, for a row of elements. -/
def extend : Element L → List (Element L) → Element L
  | element label appended, more => element label (appended ++ more)

/-- `len(element)`, of an element that was made without sub-elements. -/
def len : Element L → ℕ
  | element _ appended => appended.length

theorem extend_nil : ∀ target : Element L, target.extend [] = target
  | element label appended => congrArg (element label) (List.append_nil appended)

theorem extend_extend (target : Element L) (first second : List (Element L)) :
    (target.extend first).extend second = target.extend (first ++ second) := by
  cases target with
  | element label appended => exact congrArg (element label) (List.append_assoc ..)

mutual

/-- The labels of an element and of what is in it, in the order of depth first search, each with
those around it, the nearest one first. -/
def lineage (around : List L) : Element L → List (List L × L)
  | element label appended => (around, label) :: lineageEach (label :: around) appended

/-- The same for a row of elements. -/
def lineageEach (around : List L) : List (Element L) → List (List L × L)
  | [] => []
  | first :: rest => lineage around first ++ lineageEach around rest

end

theorem lineageEach_append (around : List L) (first second : List (Element L)) :
    lineageEach around (first ++ second) = lineageEach around first ++
    lineageEach around second := by
  induction first with
  | nil => rfl
  | cons head rest ih => rw [List.cons_append, lineageEach, lineageEach, ih, List.append_assoc]

end Element

variable {T E : Type}

/-- The object that an element is made for, or none for the element that heads the tree, and what it
is made with. -/
abbrev Label (T E : Type) := Option (Node T) × E

section XmlTree

variable (toXml : Node T → Option E) (generatesXmlForChildren : Node T → Bool)

/-- The label of the element of an object. -/
def label (node : Node T) : Option (Label T E) :=
  (toXml node).map fun made ↦ (some node, made)

/-- An element that is appended, if there is one. -/
def appendSub : Option (Element (Label T E)) × Element (Label T E) → Element (Label T E)
  | (none, attachTo) => attachTo
  | (some sub, attachTo) => attachTo.extend [sub]

mutual

/-- `__create_xml_tree` with an ancestor, and what becomes of that. -/
def createXmlTree (ancestor : Element (Label T E)) :
    Node T → Option (Element (Label T E)) × Element (Label T E)
  | .object name type children =>
    let node := Node.object name type children
    match label toXml node with
    | some made =>
      (some (if generatesXmlForChildren node then .element made []
        else attachEach (.element made []) children), ancestor)
    | none => (none, if generatesXmlForChildren node then ancestor
      else attachEach ancestor children)

/-- The loop over the children, with the element that they are appended to. -/
def attachEach (attachTo : Element (Label T E)) : List (Node T) → Element (Label T E)
  | [] => attachTo
  | child :: rest => attachEach (appendSub (createXmlTree attachTo child)) rest

end

/-- `get_xml_tree`, which is `__create_xml_tree` without an ancestor. -/
def getXmlTree (root : E) (node : Node T) : Option (Element (Label T E)) :=
  match label toXml node with
  | some made =>
    some (if generatesXmlForChildren node then .element made []
      else attachEach toXml generatesXmlForChildren (.element made []) node.children)
  | none =>
    let element := if generatesXmlForChildren node then .element (none, root) []
      else attachEach toXml generatesXmlForChildren (.element (none, root) []) node.children
    if element.len ≠ 0 then some element else none

/-! ### The objects that have an element in the tree -/

mutual

/-- The objects of a tree in the order of depth first search, each with its ancestors, the nearest
one first. -/
def ancestry (ancestors : List (Node T)) : Node T → List (List (Node T) × Node T)
  | .object name type children =>
    (ancestors, .object name type children) :: ancestryEach
      (.object name type children :: ancestors) children

/-- The same for a row of children. -/
def ancestryEach (ancestors : List (Node T)) : List (Node T) → List (List (Node T) × Node T)
  | [] => []
  | child :: rest => ancestry ancestors child ++ ancestryEach ancestors rest

end

/-- The label of an object and those of its ancestors, if it has one and none of the ancestors makes
the XML of its children. -/
def shownEntry (entry : List (Node T) × Node T) : Option (List (Label T E) × Label T E) :=
  if entry.1.any generatesXmlForChildren then none
  else (label toXml entry.2).map fun made ↦ (entry.1.filterMap (label toXml), made)

/-- The labels that are to be in the tree. -/
def shown (node : Node T) : List (List (Label T E) × Label T E) :=
  (ancestry [] node).filterMap (shownEntry toXml generatesXmlForChildren)

/-! ### What is appended for an object -/

mutual

/-- The elements for an object, or for its children if it has none. -/
def forest : Node T → List (Element (Label T E))
  | .object name type children =>
    let node := Node.object name type children
    let below := if generatesXmlForChildren node then [] else forestEach children
    match label toXml node with
    | some made => [.element made below]
    | none => below

/-- The elements for a row of children. -/
def forestEach : List (Node T) → List (Element (Label T E))
  | [] => []
  | child :: rest => forest child ++ forestEach rest

end

variable {toXml generatesXmlForChildren}

mutual

/-- The ancestor of an object gets the elements for it, one of them when the call returns. -/
theorem appendSub_createXmlTree (ancestor : Element (Label T E)) : ∀ node : Node T,
    appendSub (createXmlTree toXml generatesXmlForChildren ancestor node) =
      ancestor.extend (forest toXml generatesXmlForChildren node)
  | .object name type children => by
    rw [createXmlTree, forest]
    cases label toXml (.object name type children) with
    | some made =>
      dsimp only
      split_ifs with hgenerates
      · rfl
      · rw [appendSub, attachEach_eq]
        rfl
    | none =>
      dsimp only
      split_ifs with hgenerates
      · exact ancestor.extend_nil.symm
      · exact attachEach_eq ancestor children

theorem attachEach_eq (attachTo : Element (Label T E)) : ∀ children : List (Node T),
    attachEach toXml generatesXmlForChildren attachTo children =
      attachTo.extend (forestEach toXml generatesXmlForChildren children)
  | [] => attachTo.extend_nil.symm
  | child :: rest => by
    rw [attachEach, attachEach_eq, appendSub_createXmlTree, forestEach, Element.extend_extend]

end

/-- The label of the head of the tree, which an object without an element gets. -/
def head (toXml : Node T → Option E) (root : E) (node : Node T) : List (Label T E) :=
  if (label toXml node).isSome then [] else [(none, root)]

theorem extend_root (root : E) (elements : List (Element (Label T E))) :
    (Element.element (none, root) []).extend elements = .element (none, root) elements :=
  rfl

/-- The tree is made of the elements for the object. -/
theorem getXmlTree_of_isSome (generatesXmlForChildren : Node T → Bool) (root : E) {node : Node T}
    {made : Label T E} (h : label toXml node = some made) :
    ∃ element, forest toXml generatesXmlForChildren node = [element] ∧
      getXmlTree toXml generatesXmlForChildren root node = some element := by
  obtain ⟨name, type, children⟩ := node
  rw [getXmlTree, forest, h]
  refine ⟨_, rfl, ?_⟩
  dsimp only [Node.children]
  split_ifs with hgenerates
  · rfl
  · rw [attachEach_eq]
    rfl

/-- If the object has none, the elements get a head, unless there are none. -/
theorem getXmlTree_of_none (root : E) {node : Node T} (h : label toXml node = none) :
    getXmlTree toXml generatesXmlForChildren root node =
      if (forest toXml generatesXmlForChildren node).isEmpty then none
      else some (.element (none, root) (forest toXml generatesXmlForChildren node)) := by
  obtain ⟨name, type, children⟩ := node
  rw [getXmlTree, forest, h]
  dsimp only [Node.children]
  by_cases hgenerates : generatesXmlForChildren (.object name type children) = true
  · rw [if_pos hgenerates, if_pos hgenerates]
    rfl
  · rw [if_neg hgenerates, if_neg hgenerates, attachEach_eq, extend_root]
    cases forestEach toXml generatesXmlForChildren children with
    | nil => rfl
    | cons first rest => rfl

/-! ### The order of the elements -/

/-- An entry with labels around all of its own. -/
def under {L : Type} (tops : List L) (entry : List L × L) : List L × L :=
  (entry.1 ++ tops, entry.2)

mutual

/-- Below an object that makes the XML of its children there is nothing. -/
theorem shown_of_generates {ancestors : List (Node T)}
    (h : ancestors.any generatesXmlForChildren = true) :
    ∀ node : Node T, (ancestry ancestors node).filterMap
    (shownEntry toXml generatesXmlForChildren) = []
  | .object name type children => by
    have hbelow : (Node.object name type children :: ancestors).any generatesXmlForChildren =
        true := by
      rw [List.any_cons, h, Bool.or_true]
    rw [ancestry, List.filterMap_cons, shownEntry, if_pos h, shownEach_of_generates hbelow children]

theorem shownEach_of_generates {ancestors : List (Node T)}
    (h : ancestors.any generatesXmlForChildren = true) :
    ∀ children : List (Node T),
      (ancestryEach ancestors children).filterMap (shownEntry toXml generatesXmlForChildren) = []
  | [] => rfl
  | child :: rest => by
    rw [ancestryEach, List.filterMap_append, shown_of_generates h child,
      shownEach_of_generates h rest]
    rfl

end

mutual

/-- The elements for an object are in the order of the objects, and below those of their ancestors.
-/
theorem lineage_forest (tops : List (Label T E)) (ancestors : List (Node T))
    (h : ancestors.any generatesXmlForChildren = false) : ∀ node : Node T,
    Element.lineageEach (ancestors.filterMap (label toXml) ++ tops)
    (forest toXml generatesXmlForChildren node) =
      ((ancestry ancestors node).filterMap (shownEntry toXml generatesXmlForChildren)).map
      (under tops)
  | .object name type children => by
    have hbelow := lineage_below tops ancestors h name type children
    have hfirst : shownEntry toXml generatesXmlForChildren (ancestors, .object name type children) =
        (label toXml (.object name type children)).map fun made ↦
            (ancestors.filterMap (label toXml), made) :=
      if_neg (Bool.eq_false_iff.mp h)
    rw [ancestry, List.filterMap_cons, hfirst, forest]
    rw [List.filterMap_cons] at hbelow
    cases hlabel : label toXml (.object name type children) with
    | some made =>
      rw [hlabel] at hbelow
      dsimp only [Option.map_some]
      rw [Element.lineageEach, Element.lineage, Element.lineageEach, List.append_nil,
        List.map_cons, ← hbelow]
      rfl
    | none =>
      rw [hlabel] at hbelow
      exact hbelow

/-- The same for the children of an object, if they have elements. -/
theorem lineage_below (tops : List (Label T E)) (ancestors : List (Node T))
    (h : ancestors.any generatesXmlForChildren = false) (name : Option (List Char)) (type : T)
    (children : List (Node T)) :
    Element.lineageEach ((Node.object name type children :: ancestors).filterMap
      (label toXml) ++ tops)
        (if generatesXmlForChildren (.object name type children) then []
          else forestEach toXml generatesXmlForChildren children) =
      ((ancestryEach (.object name type children :: ancestors) children).filterMap
        (shownEntry toXml generatesXmlForChildren)).map (under tops) := by
  by_cases hgenerates : generatesXmlForChildren (.object name type children) = true
  · rw [if_pos hgenerates, shownEach_of_generates (by rw [List.any_cons, hgenerates, Bool.true_or])]
    rfl
  · rw [if_neg hgenerates]
    exact lineage_forestEach tops _ (by rw [List.any_cons, h, Bool.or_false,
      Bool.eq_false_iff.mpr hgenerates]) children

theorem lineage_forestEach (tops : List (Label T E)) (ancestors : List (Node T))
    (h : ancestors.any generatesXmlForChildren = false) : ∀ children : List (Node T),
    Element.lineageEach (ancestors.filterMap (label toXml) ++ tops)
        (forestEach toXml generatesXmlForChildren children) =
      ((ancestryEach ancestors children).filterMap (shownEntry toXml generatesXmlForChildren)).map
      (under tops)
  | [] => rfl
  | child :: rest => by
    rw [forestEach, Element.lineageEach_append, ancestryEach, List.filterMap_append,
      List.map_append,
      lineage_forest tops ancestors h child, lineage_forestEach tops ancestors h rest]

end

end XmlTree

/-- The elements of the tree are those of the objects that are to be shown, in their order and with
the elements of their ancestors around them, below a head if the object has no element, and there is
no tree if there are none. -/
theorem lineage_getXmlTree (toXml : Node T → Option E)
    (generatesXmlForChildren : Node T → Bool) (root : E) (node : Node T) :
    (getXmlTree toXml generatesXmlForChildren root node).map (Element.lineage []) =
      if (shown toXml generatesXmlForChildren node).isEmpty then none
      else some ((head toXml root node).map (fun top ↦ ([], top)) ++
        (shown toXml generatesXmlForChildren node).map (under (head toXml root node))) := by
  have hforest : Element.lineageEach (head toXml root node)
      (forest toXml generatesXmlForChildren node) =
      (shown toXml generatesXmlForChildren node).map (under (head toXml root node)) :=
    lineage_forest (head toXml root node) [] rfl node
  rw [head] at hforest ⊢
  cases hlabel : label toXml node with
  | some made =>
    obtain ⟨element, helements, htree⟩ := getXmlTree_of_isSome generatesXmlForChildren root hlabel
    have hunder : ∀ list : List (List (Label T E) × Label T E), list.map (under []) = list := by
      intro list
      rw [List.map_congr_left fun entry _ ↦ congrArg (·, entry.2) (List.append_nil entry.1),
        List.map_id']
    rw [hlabel, helements, Option.isSome_some, if_pos rfl, hunder, Element.lineageEach,
      Element.lineageEach, List.append_nil] at hforest
    rw [htree, Option.isSome_some, if_pos rfl, hunder, ← hforest, if_neg]
    · rfl
    · cases element with
      | element label appended => exact Bool.false_ne_true
  | none =>
    rw [hlabel, Option.isSome_none, if_neg Bool.false_ne_true] at hforest
    rw [getXmlTree_of_none root hlabel, Option.isSome_none, if_neg Bool.false_ne_true, ← hforest]
    have hempty : (shown toXml generatesXmlForChildren node).isEmpty =
        (Element.lineageEach [(none, root)]
            (forest toXml generatesXmlForChildren node)).isEmpty := by
      rw [hforest, List.isEmpty_map]
    rw [hempty]
    cases forest toXml generatesXmlForChildren node with
    | nil => rfl
    | cons first rest =>
      cases first with
      | element made appended => rfl

end Userland.Install.DataObject
