import Mathlib.Data.List.Basic

/-!
# The digest of a DTD

The children that a DTD lists for each element, and the search in them
(`SchemaData.findElementInfo`): before which elements a child goes, and whether several of it are
allowed.

Scope: the table is given; reading it from the text of a DTD is outside.
-/

set_option autoImplicit false
set_option relaxedAutoImplicit false

namespace Userland.Install.Mim

inductive MimError
  | mimInvalidError (message : String)
  | typeError

/-- A tag as lxml gives it: a `str` where it is plain ASCII, and `unicode` otherwise, which equals
no `str`. -/
inductive Tag
  | str (name : String)
  | unicode (name : String)
deriving DecidableEq

/-- The quantifiers `*`, `+`, `?` and `1`. -/
inductive Quantity
  | star
  | plus
  | opt
  | one
deriving DecidableEq

/-- `qty in "*+"`. -/
def Quantity.isMultiple : Quantity → Bool
  | star | plus => true
  | opt | one => false

/-- The types of lists. The fourth type, `T_ELEM`, is that of `DDObj.elt`. -/
inductive ListType
  | head
  | seq
  | or
deriving DecidableEq

inductive DDObj
  | elt (name : String) (qty : Quantity)
  | list (type : ListType) (items : List DDObj) (qty : Quantity)

/-! ### Lists are compared by their items -/

mutual

/-- `==` of two items: they are lists, so neither the types nor the quantities count. -/
def DDObj.eqItems : DDObj → DDObj → Bool
  | .elt name _, .elt other _ => name == other
  | .list _ items _, .list _ others _ => eqLists items others
  | _, _ => false

def eqLists : List DDObj → List DDObj → Bool
  | [], [] => true
  | item :: items, other :: others => item.eqItems other && eqLists items others
  | _, _ => false

end

/-! ### The search -/

inductive Mode
  | searching
  | retrieving
  | unwinding
deriving DecidableEq

structure SearchState where
  mode : Mode
  retList : List String
  multsAllowed : Bool
  firstListGatheredFrom : Option (List DDObj)
  treatAs01Qty : Option (List DDObj)

namespace SearchState

def init : SearchState := ⟨.searching, [], false, none, none⟩

/-- `pt_list == search_state.first_list_gathered_from`. -/
def gatheredFrom (state : SearchState) (ptList : List DDObj) : Bool :=
  state.firstListGatheredFrom.any (eqLists ptList)

/-- The state after an item of the list where the search began to gather: at the end of an
alternative, and after an item of a sequence that cannot be absent, all is gathered. -/
def afterItem (state : SearchState) (type : ListType) (ptList : List DDObj) (qty : Quantity)
    (isLast : Bool) :
    Option SearchState :=
  if state.gatheredFrom ptList ∧ (type = .seq ∧ qty ≠ .opt ∨ type = .or ∧ isLast = true) then
    some { state with mode := .unwinding }
  else none

end SearchState

mutual

/-- `_search_element_info(pt_list, find_this, search_state)` for an item that is a list. -/
def DDObj.search (findThis : String) : DDObj → SearchState → SearchState
  | .elt _ _, state => state
  | .list type items qty, state => searchItems findThis type qty items items state

/-- The loop of `_search_element_info` over the items that are left of `ptList`. -/
def searchItems (findThis : String) (type : ListType) (qty : Quantity) (ptList : List DDObj) :
    List DDObj → SearchState → SearchState
  | [], state => state
  | .elt name itemQty :: rest, state =>
    match state.mode with
    | .searching =>
      if findThis = name then
        let found := { state with
          mode := .retrieving, multsAllowed :=
            itemQty.isMultiple || (type == .or && qty.isMultiple) }
        if type = .or then found else searchItems findThis type qty ptList rest found
      else searchItems findThis type qty ptList rest state
    | .retrieving =>
      if state.firstListGatheredFrom.isNone ∧ type = .or then state
      else
        let gathered := { state with
          firstListGatheredFrom := some (state.firstListGatheredFrom.getD ptList)
          retList := state.retList ++ [name]
          treatAs01Qty := if itemQty = .opt ∧ type = .or then some ptList else state.treatAs01Qty }
        match gathered.afterItem type ptList itemQty rest.isEmpty with
        | some unwinding => unwinding
        | none => searchItems findThis type qty ptList rest gathered
    | .unwinding => state
  | .list itemType items itemQty :: rest, state =>
    match state.mode with
    | .searching =>
      searchItems findThis type qty ptList rest
        ((DDObj.list itemType items itemQty).search findThis state)
    | .retrieving =>
      if state.firstListGatheredFrom.isNone ∧ type = .or then state
      else
        let gathered := (DDObj.list itemType items itemQty).search findThis
          { state with firstListGatheredFrom := some (state.firstListGatheredFrom.getD ptList) }
        if itemQty = .opt ∨ gathered.treatAs01Qty.any (eqLists items) then
          searchItems findThis type qty ptList rest
            { gathered with treatAs01Qty := none, mode := .retrieving }
        else
          match gathered.afterItem type ptList itemQty rest.isEmpty with
          | some unwinding => unwinding
          | none => searchItems findThis type qty ptList rest gathered
    | .unwinding => state

end

/-- The table of a `SchemaData` object: the list of children of each element that the DTD declares.
-/
structure SchemaData where
  table : List (String × List DDObj)

namespace SchemaData

/-- `find_element_info(parent_arg, element_arg)`: the elements that may follow the child, and
whether several of it are allowed. There is no list where the element is not a child of the parent.
Of a parent that is not in the table the source answers `None` to the second question, which its
callers take for `False`. -/
def findElementInfo (schema : SchemaData) (parent : Tag) (element : String) :
    Option (List String) × Bool :=
  match parent with
  | .unicode _ => (none, false)
  | .str name =>
    match schema.table.lookup name with
    | none => (none, false)
    | some childList =>
      let state := searchItems element .head .one childList childList .init
      if state.mode = .searching then (none, false) else (some state.retList, state.multsAllowed)

end SchemaData

/-! ### What the search finds -/

mutual

/-- The names of the elements in an item, from the left to the right. -/
def DDObj.names : DDObj → List String
  | .elt name _ => [name]
  | .list _ items _ => namesOf items

def namesOf : List DDObj → List String
  | [] => []
  | item :: rest => item.names ++ namesOf rest

end

/-- The names behind the first occurrence of a name. -/
def behind (findThis : String) (names : List String) :
    List String := names.drop (names.idxOf findThis + 1)

section Search

variable {findThis : String} {names more : List String} {before middle after : SearchState}

theorem behind_of_notMem (h : findThis ∉ names) : behind findThis names = [] :=
  List.drop_eq_nil_of_le (by rw [List.idxOf_of_notMem h]; exact Nat.le_succ _)

theorem behind_append_of_notMem (h : findThis ∉ names) :
    behind findThis (names ++ more) = behind findThis more := by
  rw [behind, List.idxOf_append_of_notMem h, Nat.add_assoc, List.drop_length_add_append, behind]

theorem behind_append_of_mem (h : findThis ∈ names) :
    behind findThis (names ++ more) = behind findThis names ++ more := by
  rw [behind, List.idxOf_append_of_mem h,
    List.drop_append_of_le_length (List.idxOf_lt_length_of_mem h), behind]

/-- A part of the search: it goes on searching exactly if it comes to no element of the name, and
what it gathers stands, in this order, behind the first such element. -/
structure Searched (findThis : String) (names : List String) (before after : SearchState) :
    Prop where
  searching_iff : after.mode = .searching ↔ before.mode = .searching ∧ findThis ∉ names
  gathered : ∃ list, after.retList = before.retList ++ list ∧
    list.Sublist (if before.mode = .searching then behind findThis names else names)

namespace Searched

/-- Outside of searching, nothing need be gathered. -/
theorem idle (h : before.mode ≠ .searching) : Searched findThis names before before :=
  ⟨iff_of_false h fun hsearching ↦ h hsearching.1, [], (List.append_nil _).symm, List.nil_sublist _⟩

theorem missed (hmode : before.mode = .searching) (h : findThis ∉ names) :
    Searched findThis names before before :=
  ⟨iff_of_true hmode ⟨hmode, h⟩, [], (List.append_nil _).symm, List.nil_sublist _⟩

theorem found {multsAllowed : Bool} : Searched findThis [findThis] before
    { before with mode := .retrieving, multsAllowed := multsAllowed } :=
  ⟨iff_of_false nofun fun hnot ↦ hnot.2 (List.mem_singleton_self _), [], (List.append_nil _).symm,
    List.nil_sublist _⟩

theorem gather {name : String} (hbefore : before.mode ≠ .searching)
    (hafter : after.mode ≠ .searching)
    (hlist : after.retList = before.retList ++ [name]) : Searched findThis [name] before after :=
  ⟨iff_of_false hafter fun hsearching ↦ hbefore hsearching.1, [name], hlist, by rw [if_neg hbefore]⟩

/-- What comes after the search counts by its list only. -/
theorem congr (h : Searched findThis names before middle) (hmiddle : middle.mode ≠ .searching)
    (hafter : after.mode ≠ .searching) (hlist : after.retList = middle.retList) :
    Searched findThis names before after :=
  ⟨iff_of_false hafter fun hsearching ↦ hmiddle (h.searching_iff.mpr hsearching),
    hlist ▸ h.gathered⟩

theorem append (h : Searched findThis names before middle)
    (hmore : Searched findThis more middle after) :
    Searched findThis (names ++ more) before after := by
  refine ⟨by rw [hmore.searching_iff, h.searching_iff, List.mem_append, not_or, and_assoc], ?_⟩
  obtain ⟨list, hlist, hsub⟩ := h.gathered
  obtain ⟨rest, hrest, hrestSub⟩ := hmore.gathered
  refine ⟨list ++ rest, by rw [hrest, hlist, List.append_assoc], ?_⟩
  by_cases hbefore : before.mode = .searching
  · rw [if_pos hbefore] at hsub ⊢
    by_cases hmem : findThis ∈ names
    · rw [if_neg fun hsearching ↦ (h.searching_iff.mp hsearching).2 hmem] at hrestSub
      rw [behind_append_of_mem hmem]
      exact hsub.append hrestSub
    · rw [if_pos (h.searching_iff.mpr ⟨hbefore, hmem⟩)] at hrestSub
      rw [behind_of_notMem hmem] at hsub
      rw [behind_append_of_notMem hmem, List.sublist_nil.mp hsub]
      exact hrestSub
  · rw [if_neg hbefore] at hsub ⊢
    rw [if_neg fun hsearching ↦ hbefore (h.searching_iff.mp hsearching).1] at hrestSub
    exact hsub.append hrestSub

end Searched

/-- Either the gathering ends with an item, or it goes on behind it. -/
theorem searched_afterItem {gathered result : SearchState} {type : ListType} {ptList : List DDObj}
    {qty : Quantity}
    {isLast : Bool} (h : Searched findThis names before gathered)
    (hmode : gathered.mode ≠ .searching)
    (hrest : Searched findThis more gathered result) : Searched findThis (names ++ more) before
      (match gathered.afterItem type ptList qty isLast with
        | some unwinding => unwinding
        | none => result) := by
  rw [SearchState.afterItem]
  split_ifs
  · have hend : ({ gathered with mode := .unwinding } : SearchState).mode ≠ .searching := nofun
    exact (h.congr hmode hend rfl).append (.idle hend)
  · exact h.append hrest

/-- By induction on the items and those of the lists among them. -/
theorem searched_searchItems (type : ListType) (qty : Quantity) (ptList : List DDObj) :
    ∀ (items : List DDObj) (state : SearchState),
      Searched findThis (namesOf items) state (searchItems findThis type qty ptList items state)
  | [], state => by
    rw [searchItems, namesOf]
    by_cases hmode : state.mode = .searching
    · exact .missed hmode List.not_mem_nil
    · exact .idle hmode
  | .elt name itemQty :: rest, ⟨mode, retList, multsAllowed, firstList, treatAs01Qty⟩ => by
    have hrest := searched_searchItems type qty ptList rest
    rw [namesOf, DDObj.names]
    cases mode with
    | searching =>
      simp only [searchItems]
      split_ifs with hname hor
      · subst hname
        exact .append .found (.idle nofun)
      · subst hname
        exact .append .found (hrest _)
      · exact (Searched.missed rfl fun hmem ↦ hname (List.mem_singleton.mp hmem)).append (hrest _)
    | retrieving =>
      simp only [searchItems]
      split_ifs
      · exact .idle nofun
      all_goals exact searched_afterItem (.gather nofun nofun rfl) nofun (hrest _)
    | unwinding =>
      simp only [searchItems]
      exact .idle nofun
  | .list itemType items itemQty :: rest,
      ⟨mode, retList, multsAllowed, firstList, treatAs01Qty⟩ => by
    have hrest := searched_searchItems type qty ptList rest
    have hitem := searched_searchItems itemType itemQty items items
    rw [namesOf, DDObj.names]
    cases mode with
    | searching =>
      simp only [searchItems, DDObj.search]
      exact (hitem _).append (hrest _)
    | retrieving =>
      rw [searchItems]
      have hlist := hitem ⟨.retrieving, retList, multsAllowed, some (firstList.getD ptList),
        treatAs01Qty⟩
      extract_lets gathered
      dsimp only
      have hgathered : Searched findThis (namesOf items)
          ⟨.retrieving, retList, multsAllowed, firstList, treatAs01Qty⟩ gathered :=
        ⟨hlist.searching_iff, hlist.gathered⟩
      have hmode := hgathered.searching_iff.not.mpr fun hsearching ↦ nomatch hsearching.1
      split_ifs
      · exact .idle nofun
      · refine .append (hgathered.congr hmode ?_ ?_) (hrest _)
        · nofun
        · rfl
      · exact searched_afterItem hgathered hmode (hrest _)
    | unwinding =>
      simp only [searchItems]
      exact .idle nofun

end Search

namespace SchemaData

/-- An element is found exactly if it stands in the list of children of the parent, in whatever list
of it, and the elements that may follow it stand behind it there, in the order they are returned. -/
theorem findElementInfo_spec (schema : SchemaData) (parent element : String) :
    ((schema.findElementInfo (.str parent) element).1 = none ↔
      element ∉ namesOf ((schema.table.lookup parent).getD [])) ∧
    ∀ list, (schema.findElementInfo (.str parent) element).1 = some list →
      list.Sublist (behind element (namesOf ((schema.table.lookup parent).getD []))) := by
  rw [findElementInfo]
  cases schema.table.lookup parent with
  | none => exact ⟨iff_of_true rfl List.not_mem_nil, nofun⟩
  | some childList =>
    have hsearched : Searched element _ _ _ :=
      searched_searchItems .head .one childList childList .init
    obtain ⟨list, hlist, hsub⟩ := hsearched.gathered
    change list.Sublist (behind element (namesOf childList)) at hsub
    have hiff := hsearched.searching_iff.trans (and_iff_right rfl)
    dsimp only [Option.getD_some]
    split_ifs with hmode
    · exact ⟨iff_of_true rfl (hiff.mp hmode), nofun⟩
    · refine ⟨iff_of_false nofun fun hnot ↦ hmode (hiff.mpr hnot), fun list' hlist' ↦ ?_⟩
      obtain rfl := Option.some.inj hlist'
      rwa [hlist]

end SchemaData

end Userland.Install.Mim
