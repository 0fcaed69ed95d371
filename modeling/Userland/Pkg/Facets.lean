import Mathlib.Data.List.Sort
import Userland.Library.Dict
import Userland.Library.Glob
import Userland.Library.Program
import Userland.Pkg.Text

/-!
# Facets

`Facets` of `pkg/facet.py` is a dictionary that keeps its keys in a list sorted by length, and a
lookup of a name that is no key takes the first key of the list that matches it. The list and the
dictionary are in step after every row of operations (`inStep_build`), but keys of one length stand
in the order in which they were set.

The answer for a name depends on the mapping alone exactly if the longest keys that apply to it
agree (`lookup_documented_iff`). `pop` of a key that is absent fails whatever its default is.

Scope. Names are texts, and a value that equals `True` or `False` is that boolean. `popitem` takes
the entry at an arbitrary position, and `copy` goes through the keys in an arbitrary order.
-/

set_option autoImplicit false
set_option relaxedAutoImplicit false

namespace Userland.Pkg.Facet

open Library Library.Program Library.Glob

/-- The exceptions of the operations. -/
inductive Error
  | keyError
  | valueError
  | reError
deriving DecidableEq

/-- A value that is offered; `boolean` are the values that equal `True` or `False`. -/
inductive Value
  | boolean (b : Bool)
  | other (text : List Char)
deriving DecidableEq

/-- The dictionary, and the keys sorted by length. -/
structure Facets where
  entries : List (List Char × Bool)
  keylist : List (List Char)
deriving DecidableEq

/-- The name starts with `facet.`. -/
def isFacet (item : List Char) : Bool :=
  "facet.".toList.isPrefixOf item

/-- A name that can be looked up. -/
abbrev FacetName := { name : List Char // isFacet name = true }

/-- `keylist.sort(cmp=lambda x, y: len(y) - len(x))`. -/
def byLength (keys : List (List Char)) : List (List Char) :=
  keys.insertionSort fun x y ↦ y.length ≤ x.length

namespace Facets

def empty : Facets := ⟨[], []⟩

/-- The value of a key. -/
def find? (facets : Facets) (item : List Char) : Option Bool :=
  facets.entries.lookup item

/-- The object with a value for a key. -/
def put (facets : Facets) (item : List Char) (b : Bool) : Facets :=
  ⟨Dict.set facets.entries item b,
    if facets.find? item = none then byLength (facets.keylist ++ [item]) else facets.keylist⟩

/-- The object without a key. -/
def drop (facets : Facets) (item : List Char) : Facets :=
  ⟨Dict.erase facets.entries item, facets.keylist.erase item⟩

/-- The value of the first key that matches the name. -/
def search (facets : Facets) (name : List Char) : List (List Char) → Except Error Bool
  | [] => .ok true
  | k :: rest =>
    match fnmatch name k with
    | none => .error .reError
    | some true => (facets.find? k).elim (.error .keyError) .ok
    | some false => facets.search name rest

/-- `__getitem__`. -/
def getitem (facets : Facets) (item : List Char) : Except Error Bool :=
  if isFacet item then (facets.find? item).elim (facets.search item facets.keylist) .ok
  else .error .keyError

end Facets

/-! ### The operations -/

/-- `__setitem__`. -/
def setitem (item : List Char) (value : Value) : Program Facets Error Unit :=
  if isFacet item then
    match value with
    | .other _ => throw .valueError
    | .boolean b => modify fun facets ↦ facets.put item b
  else throw .keyError

/-- `__keylist.remove(item)`. -/
def removeKey (item : List Char) : Program Facets Error Unit := do
  let facets ← get
  if item ∈ facets.keylist then modify fun facets ↦ ⟨facets.entries, facets.keylist.erase item⟩
  else throw .valueError

/-- `dict.__delitem__(self, item)`. -/
def removeEntry (item : List Char) : Program Facets Error Unit :=
  modify fun facets ↦ ⟨Dict.erase facets.entries item, facets.keylist⟩

/-- `__delitem__`. -/
def delitem (item : List Char) : Program Facets Error Unit := do
  let facets ← get
  if facets.find? item = none then throw .keyError
  else
    removeEntry item
    removeKey item

/-- `pop`. -/
def pop (item : List Char) (default : Value) : Program Facets Error Value := do
  removeKey item
  let facets ← get
  match facets.find? item with
  | none => pure default
  | some b =>
    removeEntry item
    pure (.boolean b)

/-- `popitem`, which takes the entry at a position. -/
def popitem (position : ℕ) : Program Facets Error (List Char × Bool) := do
  let facets ← get
  match facets.entries[position % facets.entries.length]? with
  | none => throw .keyError
  | some popped =>
    removeEntry popped.1
    removeKey popped.1
    pure popped

/-- `setdefault`. -/
def setdefault (item : List Char) (default : Value) : Program Facets Error Bool := do
  let facets ← get
  if facets.find? item = none then setitem item default
  let facets ← get
  lift (facets.getitem item)

/-- `update`. -/
def update (d : List (List Char × Value)) : Program Facets Error Unit :=
  forEach (fun entry ↦ setitem entry.1 entry.2) d

/-- `clear`. -/
def clear : Program Facets Error Unit :=
  modify fun _ ↦ Facets.empty

/-- `__init__`, from an object whose keys come in an order. -/
def init (order : List (List Char)) (source : List Char → Except Error Bool) :
    Program Facets Error Unit :=
  forEach (fun item ↦ do
    let value ← lift (source item)
    setitem item (.boolean value)) order

/-- `copy`, where the dictionary goes through its keys in an order. -/
def copy (order : List (List Char)) (facets : Facets) : Except Error Facets :=
  let result := (init order facets.getitem).exec Facets.empty
  result.1.map fun _ ↦ result.2

inductive Operation
  | assign (item : List Char) (value : Value)
  | delete (item : List Char)
  | pop (item : List Char) (default : Value)
  | popitem (position : ℕ)
  | setdefault (item : List Char) (default : Value)
  | update (d : List (List Char × Value))
  | clear
deriving DecidableEq

/-- The state after an operation; one that fails keeps what it has done. -/
def perform (facets : Facets) : Operation → Facets
  | .assign item value => ((setitem item value).exec facets).2
  | .delete item => ((delitem item).exec facets).2
  | .pop item default => ((pop item default).exec facets).2
  | .popitem position => ((popitem position).exec facets).2
  | .setdefault item default => ((setdefault item default).exec facets).2
  | .update d => ((update d).exec facets).2
  | .clear => (clear.exec facets).2

/-- The object that a row of operations builds. -/
def build (operations : List Operation) : Facets :=
  operations.foldl perform Facets.empty

/-! ### The keys are in step with the dictionary -/

/-- The list holds the keys of the dictionary once each, the longest first. -/
structure Facets.InStep (facets : Facets) : Prop where
  mem_iff : ∀ key, key ∈ facets.keylist ↔ facets.find? key ≠ none
  nodup : facets.keylist.Nodup
  sorted : facets.keylist.Pairwise fun x y ↦ y.length ≤ x.length
  named : ∀ key ∈ facets.keylist, isFacet key = true

/-- A key that is added to a sorted list goes behind the keys that are not shorter. -/
theorem byLength_concat {keys : List (List Char)}
    (h : keys.Pairwise fun x y ↦ y.length ≤ x.length) (item : List Char) :
    byLength (keys ++ [item]) = keys.orderedInsert (fun x y ↦ y.length < x.length) item := by
  induction keys with
  | nil => rfl
  | cons key keys ih =>
    obtain ⟨hkey, hkeys⟩ := List.pairwise_cons.mp h
    have htail : (keys ++ [item]).insertionSort (fun x y ↦ y.length ≤ x.length) = _ := ih hkeys
    rw [byLength, List.cons_append, List.insertionSort_cons, htail, List.orderedInsert_cons]
    split_ifs with hlt
    · cases keys with
      | nil => exact List.orderedInsert_of_not_le _ _ (Nat.not_le.mpr hlt)
      | cons other keys =>
        have hother : other.length ≤ key.length := hkey other List.mem_cons_self
        have hfirst : (other :: keys).orderedInsert (fun x y ↦ y.length < x.length) item =
            item :: other :: keys :=
          List.orderedInsert_cons_of_le _ keys (Nat.lt_of_le_of_lt hother hlt)
        rw [hfirst, List.orderedInsert_cons, if_neg (Nat.not_le.mpr hlt), List.orderedInsert_cons,
          if_pos hother]
    · cases hinsert : keys.orderedInsert (fun x y ↦ y.length < x.length) item with
      | nil => rfl
      | cons other rest =>
        refine List.orderedInsert_cons_of_le _ _ ?_
        have hmem : other ∈ keys.orderedInsert (fun x y ↦ y.length < x.length) item :=
          hinsert ▸ List.mem_cons_self
        rcases List.mem_orderedInsert _ |>.mp hmem with rfl | hmem
        · exact Nat.not_lt.mp hlt
        · exact hkey other hmem

namespace Facets

variable {facets : Facets} {item : List Char}

theorem find?_put_self (facets : Facets) (item : List Char) (b : Bool) :
    (facets.put item b).find? item = some b :=
  Dict.lookup_set_self _ _ _

theorem find?_put_of_ne (facets : Facets) {item other : List Char} (h : other ≠ item) (b : Bool) :
    (facets.put item b).find? other = facets.find? other :=
  Dict.lookup_set_of_ne _ h _

theorem find?_drop_self (facets : Facets) (item : List Char) :
    (facets.drop item).find? item = none :=
  Dict.lookup_erase_self _ _

theorem find?_drop_of_ne (facets : Facets) {item other : List Char} (h : other ≠ item) :
    (facets.drop item).find? other = facets.find? other :=
  Dict.lookup_erase_of_ne _ h

theorem mem_byLength {keys : List (List Char)} {key : List Char} :
    key ∈ byLength keys ↔ key ∈ keys :=
  List.mem_insertionSort _

theorem inStep_empty : empty.InStep :=
  ⟨fun _ ↦ iff_of_false List.not_mem_nil (fun h ↦ h rfl), List.nodup_nil, List.Pairwise.nil,
    fun _ h ↦ (nomatch h)⟩

theorem InStep.put (h : facets.InStep) (hitem : isFacet item = true) (b : Bool) :
    (facets.put item b).InStep := by
  have hfind : ∀ key, (facets.put item b).find? key ≠ none ↔
      key = item ∨ facets.find? key ≠ none := by
    intro key
    by_cases hkey : key = item
    · rw [hkey, find?_put_self]
      exact iff_of_true (Option.some_ne_none b) (Or.inl rfl)
    · rw [find?_put_of_ne facets hkey, or_iff_right hkey]
  by_cases hnew : facets.find? item = none
  · have hkeys : (facets.put item b).keylist = byLength (facets.keylist ++ [item]) := if_pos hnew
    have hperm : (byLength (facets.keylist ++ [item])).Perm (facets.keylist ++ [item]) :=
      List.perm_insertionSort _ _
    refine ⟨fun key ↦ ?_, ?_, ?_, fun key hkey ↦ ?_⟩
    · rw [hfind, hkeys, mem_byLength, List.mem_append, List.mem_singleton, h.mem_iff, or_comm]
    · rw [hkeys, hperm.nodup_iff, List.nodup_append_comm]
      exact List.nodup_cons.mpr ⟨fun hmem ↦ (h.mem_iff item).mp hmem hnew, h.nodup⟩
    · rw [hkeys]
      have : Std.Total fun x y : List Char ↦ y.length ≤ x.length := ⟨fun x y ↦ Nat.le_total _ _⟩
      have : IsTrans (List Char) fun x y ↦ y.length ≤ x.length :=
        ⟨fun x y z hxy hyz ↦ Nat.le_trans hyz hxy⟩
      exact List.pairwise_insertionSort _ _
    · rw [hkeys, mem_byLength, List.mem_append, List.mem_singleton] at hkey
      rcases hkey with hkey | rfl
      · exact h.named key hkey
      · exact hitem
  · have hkeys : (facets.put item b).keylist = facets.keylist := if_neg hnew
    refine ⟨fun key ↦ ?_, hkeys ▸ h.nodup, hkeys ▸ h.sorted, hkeys ▸ h.named⟩
    rw [hfind, hkeys, h.mem_iff]
    exact ⟨Or.inr, fun hor ↦ hor.elim (fun heq ↦ heq ▸ hnew) id⟩

theorem InStep.drop (h : facets.InStep) (item : List Char) : (facets.drop item).InStep := by
  refine ⟨fun key ↦ ?_, h.nodup.erase item, h.sorted.sublist List.erase_sublist,
    fun key hkey ↦ h.named key (List.mem_of_mem_erase hkey)⟩
  rw [Facets.drop, h.nodup.mem_erase_iff, h.mem_iff, ← Facets.drop]
  by_cases hkey : key = item
  · rw [hkey, find?_drop_self]
    exact iff_of_false (fun hand ↦ hand.1 rfl) (fun hne ↦ hne rfl)
  · rw [find?_drop_of_ne facets hkey]
    exact and_iff_right hkey

/-! ### What the operations do to a state in step -/

section Operations

variable {facets : Facets} {item : List Char}

theorem exec_setitem (hitem : isFacet item = true) (facets : Facets) (b : Bool) :
    (setitem item (.boolean b)).exec facets = (.ok (), facets.put item b) := by
  rw [setitem, if_pos hitem]
  rfl

theorem inStep_setitem (h : facets.InStep) (item : List Char) (value : Value) :
    ((setitem item value).exec facets).2.InStep := by
  by_cases hitem : isFacet item = true
  · cases value with
    | boolean b =>
      rw [exec_setitem hitem]
      exact h.put hitem b
    | other text =>
      rw [setitem, if_pos hitem]
      exact h
  · unfold setitem
    rw [if_neg hitem]
    exact h

/-- Removing a key from both the dictionary and the list. -/
theorem exec_removeBoth (h : facets.InStep) (hitem : facets.find? item ≠ none) :
    (removeKey item).exec ⟨Dict.erase facets.entries item, facets.keylist⟩ =
      (.ok (), facets.drop item) := by
  rw [removeKey, exec_bind, exec_get]
  dsimp only
  rw [if_pos ((h.mem_iff item).mpr hitem)]
  rfl

theorem exec_delitem (h : facets.InStep) (item : List Char) :
    (delitem item).exec facets =
      if facets.find? item = none then (.error .keyError, facets)
      else (.ok (), facets.drop item) := by
  rw [delitem, exec_bind, exec_get]
  dsimp only
  split_ifs with hitem
  · rfl
  · rw [exec_bind, removeEntry, exec_modify]
    exact exec_removeBoth h hitem

theorem exec_pop (h : facets.InStep) (item : List Char) (default : Value) :
    (pop item default).exec facets =
      (facets.find? item).elim (.error .valueError, facets)
        fun b ↦ (.ok (.boolean b), facets.drop item) := by
  rw [pop, exec_bind, removeKey, exec_bind, exec_get]
  dsimp only
  cases hfind : facets.find? item with
  | none =>
    rw [if_neg fun hmem ↦ (h.mem_iff item).mp hmem hfind]
    rfl
  | some b =>
    have hmem : item ∈ facets.keylist := (h.mem_iff item).mpr (hfind ▸ Option.some_ne_none b)
    rw [if_pos hmem, exec_modify]
    dsimp only
    rw [exec_bind, exec_get]
    have hsame : find? ⟨facets.entries, facets.keylist.erase item⟩ item = some b := hfind
    dsimp only
    rw [hsame]
    rfl

theorem inStep_popitem (h : facets.InStep) (position : ℕ) :
    ((popitem position).exec facets).2.InStep := by
  rw [popitem, exec_bind, exec_get]
  dsimp only
  cases hpopped : facets.entries[position % facets.entries.length]? with
  | none => exact h
  | some popped =>
    have hfind : facets.find? popped.1 ≠ none := by
      intro hnone
      have hne := List.lookup_eq_none_iff.mp hnone popped (List.mem_of_getElem? hpopped)
      exact bne_iff_ne.mp hne rfl
    dsimp only
    rw [exec_bind, removeEntry, exec_modify]
    dsimp only
    rw [exec_bind, exec_removeBoth h hfind]
    exact h.drop popped.1

theorem inStep_update (h : facets.InStep) (d : List (List Char × Value)) :
    ((update d).exec facets).2.InStep := by
  induction d generalizing facets with
  | nil => exact h
  | cons entry d ih =>
    have hfirst := inStep_setitem h entry.1 entry.2
    rw [update, forEach, exec_bind]
    rcases hrun : (setitem entry.1 entry.2).exec facets with ⟨result, next⟩
    rw [hrun] at hfirst
    cases result with
    | ok => exact ih hfirst
    | error => exact hfirst

theorem inStep_perform (h : facets.InStep) (operation : Operation) :
    (perform facets operation).InStep := by
  cases operation with
  | assign item value => exact inStep_setitem h item value
  | delete item =>
    rw [perform, exec_delitem h]
    split_ifs
    · exact h
    · exact h.drop item
  | pop item default =>
    rw [perform, exec_pop h]
    cases facets.find? item with
    | none => exact h
    | some b => exact h.drop item
  | popitem position => exact inStep_popitem h position
  | setdefault item default =>
    rw [perform, setdefault, exec_bind, exec_get]
    dsimp only
    split_ifs with hnew
    · have hset := inStep_setitem h item default
      rw [exec_bind]
      rcases hrun : (setitem item default).exec facets with ⟨result, next⟩
      rw [hrun] at hset
      cases result with
      | ok =>
        dsimp only
        rw [exec_bind, exec_get]
        dsimp only
        rw [exec_lift]
        exact hset
      | error => exact hset
    · rw [exec_bind, exec_get]
      dsimp only
      rw [exec_lift]
      exact h
  | update d => exact inStep_update h d
  | clear => exact inStep_empty

/-- After every row of operations the keys are in step with the dictionary. -/
theorem inStep_build (operations : List Operation) : (build operations).InStep :=
  List.foldlRecOn operations perform inStep_empty fun _ h operation _ ↦ inStep_perform h operation

end Operations

/-! ### The key that answers -/

/-- The key is not ruled out: it matches the name, or it is no regular expression. -/
def applies (name key : List Char) : Bool :=
  fnmatch name key != some false

/-- What the lookup gives when it comes to a key that applies. -/
def decided (facets : Facets) (name key : List Char) : Except Error Bool :=
  (fnmatch name key).elim (.error .reError) fun _ ↦ (facets.find? key).elim (.error .keyError) .ok

/-- A longest key that applies to the name. -/
structure Longest (facets : Facets) (name key : List Char) : Prop where
  mem : facets.find? key ≠ none
  applies : fnmatch name key ≠ some false
  longest : ∀ other, facets.find? other ≠ none → fnmatch name other ≠ some false →
    other.length ≤ key.length

/-- The longest keys that apply to a name match it and have one value, unless the name is a key. -/
def Settled (facets : Facets) (name : List Char) : Prop :=
  facets.find? name ≠ none ∨ ∀ key, facets.Longest name key →
    fnmatch name key = some true ∧ ∀ other, facets.Longest name other →
      facets.find? other = facets.find? key

/-- The key matches the name. -/
def Matching (facets : Facets) (name key : List Char) : Prop :=
  facets.find? key ≠ none ∧ fnmatch name key = some true

/-- The value is that of the key, else that of a longest key that matches the name, else `True`. -/
def Answers (facets : Facets) (name : List Char) (value : Bool) : Prop :=
  (facets.find? name).elim
    ((∃ key, facets.Matching name key ∧ (∀ other, facets.Matching name other →
        other.length ≤ key.length) ∧
        facets.find? key = some value) ∨ (∀ key, ¬ facets.Matching name key) ∧ value = true)
    (value = ·)

def SameMapping (facets others : Facets) : Prop :=
  ∀ key, others.find? key = facets.find? key

section Lookup

variable {facets others : Facets} {name key : List Char}

theorem applies_iff : applies name key = true ↔ fnmatch name key ≠ some false := bne_iff_ne

theorem search_cons (facets : Facets) (name key : List Char) (keys : List (List Char)) :
    facets.search name (key :: keys) =
      if applies name key then facets.decided name key else facets.search name keys := by
  rw [search]
  unfold applies decided
  rcases fnmatch name key with _ | _ | _ <;> rfl

theorem search_eq (facets : Facets) (name : List Char) (keys : List (List Char)) :
    facets.search name keys = (keys.find? (applies name)).elim (.ok true)
    (facets.decided name) := by
  induction keys with
  | nil => rfl
  | cons key keys ih =>
    rw [search_cons, List.find?_cons, ih]
    cases applies name key <;> rfl

/-- The first key of the list that applies is a longest one. -/
theorem InStep.search (h : facets.InStep) (name : List Char) :
    (∃ key, facets.Longest name key ∧ facets.search name facets.keylist = facets.decided name key) ∨
      (∀ key, facets.find? key ≠ none → fnmatch name key = some false) ∧
        facets.search name facets.keylist = .ok true := by
  rw [search_eq]
  cases hfirst : facets.keylist.find? (applies name) with
  | none =>
    refine Or.inr ⟨fun key hkey ↦ ?_, rfl⟩
    have hnot := List.find?_eq_none.mp hfirst key ((h.mem_iff key).mpr hkey)
    exact not_not.mp fun hne ↦ hnot (applies_iff.mpr hne)
  | some key =>
    refine Or.inl ⟨key, ?_, rfl⟩
    obtain ⟨happlies, before, after, hkeys, hbefore⟩ := List.find?_eq_some_iff_append.mp hfirst
    refine ⟨(h.mem_iff key).mp (hkeys ▸ by simp), applies_iff.mp happlies,
      fun other hother hmatch ↦ ?_⟩
    have hmem : other ∈ before ++ key :: after := hkeys ▸ (h.mem_iff other).mpr hother
    rcases List.mem_append.mp hmem with hmem | hmem
    · have hnot := hbefore other hmem
      rw [applies_iff.mpr hmatch] at hnot
      cases hnot
    · have hsorted := h.sorted
      rw [hkeys, List.pairwise_append, List.pairwise_cons] at hsorted
      rcases List.mem_cons.mp hmem with rfl | hmem
      · exact Nat.le_refl _
      · exact hsorted.2.1.1 other hmem

theorem SameMapping.longest (h : facets.SameMapping others) (hlongest : others.Longest name key) :
    facets.Longest name key :=
  ⟨h key ▸ hlongest.mem, hlongest.applies, fun other hother ↦
    hlongest.longest other (h other ▸ hother)⟩

theorem getitem_of_find? {value : Bool} (hname : isFacet name = true)
    (h : facets.find? name = some value) :
    facets.getitem name = .ok value := by
  rw [getitem, if_pos hname, h]
  rfl

theorem getitem_of_none (hname : isFacet name = true) (h : facets.find? name = none) :
    facets.getitem name = facets.search name facets.keylist := by
  rw [getitem, if_pos hname, h]
  rfl

theorem Longest.decided (h : facets.Longest name key) (hmatch : fnmatch name key = some true) :
    ∃ value, facets.find? key = some value ∧ facets.decided name key = .ok value := by
  obtain ⟨value, hvalue⟩ := Option.ne_none_iff_exists'.mp h.mem
  refine ⟨value, hvalue, ?_⟩
  rw [Facets.decided, hmatch, hvalue]
  rfl

theorem answers_of_find? {value : Bool} (h : facets.find? name = some value) :
    facets.Answers name value := by
  unfold Answers
  rw [h]
  rfl

theorem answers_iff_of_none {value : Bool} (h : facets.find? name = none) :
    facets.Answers name value ↔
      (∃ key, facets.Matching name key ∧ (∀ other, facets.Matching name other →
        other.length ≤ key.length) ∧
        facets.find? key = some value) ∨ (∀ key, ¬ facets.Matching name key) ∧ value = true := by
  unfold Answers
  rw [h]
  rfl

/-- A settled name is answered. -/
theorem answers_of_settled (h : facets.InStep) (hname : isFacet name = true)
    (hsettled : facets.Settled name) :
    ∃ value, facets.getitem name = .ok value ∧ facets.Answers name value := by
  cases hfind : facets.find? name with
  | some value =>
    exact ⟨value, getitem_of_find? hname hfind, answers_of_find? hfind⟩
  | none =>
    have hlongest := hsettled.resolve_left (not_not.mpr hfind)
    rw [getitem_of_none hname hfind]
    simp only [answers_iff_of_none hfind]
    rcases h.search name with ⟨key, hkey, hsearch⟩ | ⟨hnone, hsearch⟩
    · obtain ⟨value, hvalue, hdecided⟩ := hkey.decided (hlongest key hkey).1
      refine ⟨value, hsearch.trans hdecided,
        Or.inl ⟨key, ⟨hkey.mem, (hlongest key hkey).1⟩, ?_, hvalue⟩⟩
      intro other hother
      exact hkey.longest other hother.1 (hother.2 ▸ by decide)
    · refine ⟨true, hsearch, Or.inr ⟨fun key hkey ↦ ?_, rfl⟩⟩
      rw [Matching, hnone key hkey.1] at hkey
      cases hkey.2

/-- A settled name is answered alike by all objects with the mapping. -/
theorem getitem_eq_of_settled (h : facets.InStep) (hothers : others.InStep)
    (hsame : facets.SameMapping others) (hname : isFacet name = true)
    (hsettled : facets.Settled name) :
    others.getitem name = facets.getitem name := by
  cases hfind : facets.find? name with
  | some value => rw [getitem_of_find? hname hfind,
    getitem_of_find? hname ((hsame name).trans hfind)]
  | none =>
    have hlongest := hsettled.resolve_left (not_not.mpr hfind)
    rw [getitem_of_none hname hfind, getitem_of_none hname ((hsame name).trans hfind)]
    rcases h.search name with ⟨key, hkey, hsearch⟩ | ⟨hnone, hsearch⟩
    · rcases hothers.search name with ⟨other, hother, hsearch'⟩ | ⟨hnone, -⟩
      · have hother' := hsame.longest hother
        have hvalue := (hlongest key hkey).2 other hother'
        rw [hsearch, hsearch', decided, decided, (hlongest key hkey).1, (hlongest other hother').1,
          hsame other, hvalue]
      · exact absurd (hnone key (hsame key ▸ hkey.mem)) hkey.applies
    · rcases hothers.search name with ⟨other, hother, -⟩ | ⟨-, hsearch'⟩
      · exact absurd (hnone other (hsame.longest hother).mem) hother.applies
      · rw [hsearch, hsearch']

end Lookup

/-! ### Objects with the same mapping -/

/-- The values of some keys, set one after the other. -/
def putAll (facets : Facets) (keys : List (List Char)) (others : Facets) : Facets :=
  keys.foldl (fun others key ↦ others.put key ((facets.find? key).getD true)) others

section Copies

variable {facets others : Facets} {name key : List Char} {keys : List (List Char)}

theorem putAll_cons (facets : Facets) (key : List Char) (keys : List (List Char))
    (others : Facets) :
    facets.putAll (key :: keys) others =
      facets.putAll keys (others.put key ((facets.find? key).getD true)) := rfl

theorem find?_putAll (facets : Facets) (keys : List (List Char)) (others : Facets)
    (key : List Char) :
    (facets.putAll keys others).find? key =
      if key ∈ keys then some ((facets.find? key).getD true) else others.find? key := by
  induction keys generalizing others with
  | nil => rfl
  | cons first keys ih =>
    rw [putAll_cons, ih]
    by_cases hfirst : key = first
    · rw [if_pos (List.mem_cons.mpr (Or.inl hfirst)), hfirst, find?_put_self, ite_self]
    · rw [find?_put_of_ne _ hfirst]
      exact if_congr (by rw [List.mem_cons, or_iff_right hfirst]) rfl rfl

/-- An object with the values of all keys has the same mapping. -/
theorem InStep.sameMapping_putAll (h : facets.InStep)
    (hkeys : ∀ key, key ∈ keys ↔ key ∈ facets.keylist) :
    facets.SameMapping (facets.putAll keys empty) := by
  intro key
  rw [find?_putAll]
  simp only [hkeys, h.mem_iff]
  cases hfind : facets.find? key with
  | none => exact if_neg (not_not.mpr rfl)
  | some value => exact if_pos (Option.some_ne_none value)

theorem build_assignments (facets : Facets) (hkeys : ∀ key ∈ keys, isFacet key = true) :
    build (keys.map fun key ↦ .assign key (.boolean ((facets.find? key).getD true))) =
      facets.putAll keys empty := by
  rw [build, List.foldl_map, putAll]
  refine List.foldl_ext _ _ _ fun others key hkey ↦ ?_
  rw [perform, exec_setitem (hkeys key hkey)]

theorem exec_init (hname : ∀ key ∈ keys, isFacet key = true)
    (hkeys : ∀ key ∈ keys, facets.find? key ≠ none) (others : Facets) :
    (init keys facets.getitem).exec others = (.ok (), facets.putAll keys others) := by
  induction keys generalizing others with
  | nil => rfl
  | cons key keys ih =>
    rw [List.forall_mem_cons] at hname hkeys
    obtain ⟨value, hvalue⟩ := Option.ne_none_iff_exists'.mp hkeys.1
    have hfirst : (do
        let value ← lift (facets.getitem key)
        setitem key (.boolean value) : Program Facets Error Unit).exec others =
          (.ok (), others.put key ((facets.find? key).getD true)) := by
      rw [getitem_of_find? hname.1 hvalue, exec_bind, exec_lift]
      dsimp only
      rw [exec_setitem hname.1, hvalue]
      rfl
    rw [init, forEach, exec_bind, hfirst]
    exact ih hname.2 hkeys.2 _

/-- A key stays before all keys that are not longer. -/
theorem find?_orderedInsert (h : keys.find? (fun other ↦ other.length ≤ key.length) = some key)
    (item : List Char) :
    (keys.orderedInsert (fun x y ↦ y.length < x.length) item).find?
      (fun other ↦ other.length ≤ key.length) = some key := by
  induction keys with
  | nil => cases h
  | cons first keys ih =>
    rw [List.orderedInsert_cons]
    by_cases hfirst : first.length ≤ key.length
    · have heq : first = key := by simpa [List.find?_cons, hfirst] using h
      subst heq
      split_ifs with hlt
      · simp [Nat.not_le.mpr hlt]
      · simp
    · have hrest : keys.find? (fun other ↦ other.length ≤ key.length) = some key := by
        simpa [List.find?_cons, hfirst] using h
      split_ifs with hlt
      · have hitem : ¬ item.length ≤ key.length :=
          Nat.not_le.mpr (Nat.lt_trans (Nat.not_le.mp hfirst) hlt)
        simp [hitem, hfirst, hrest]
      · simp only [List.find?_cons, hfirst, decide_false]
        exact ih hrest

theorem find?_putAll_keylist (hothers : others.InStep) (hnamed : ∀ key ∈ keys, isFacet key = true)
    (h : others.keylist.find? (fun other ↦ other.length ≤ key.length) = some key) :
    (facets.putAll keys others).keylist.find? (fun other ↦ other.length ≤ key.length) =
    some key := by
  induction keys generalizing others with
  | nil => exact h
  | cons first keys ih =>
    rw [List.forall_mem_cons] at hnamed
    refine ih (hothers.put hnamed.1 _) hnamed.2 ?_
    dsimp only [put]
    split_ifs
    · rw [byLength_concat hothers.sorted]
      exact find?_orderedInsert h first
    · exact h

/-- A longest key that applies decides the lookup of the object in which it was set first. -/
theorem exists_decided (h : facets.InStep) (hname : isFacet name = true)
    (hnone : facets.find? name = none) (hlongest : facets.Longest name key) :
    ∃ operations, facets.SameMapping (build operations) ∧
      (build operations).getitem name = facets.decided name key := by
  have hmem : key ∈ facets.keylist := (h.mem_iff key).mpr hlongest.mem
  have hnamed : ∀ other ∈ key :: facets.keylist, isFacet other = true :=
    List.forall_mem_cons.mpr ⟨h.named key hmem, h.named⟩
  have hsame : facets.SameMapping (facets.putAll (key :: facets.keylist) empty) :=
    h.sameMapping_putAll fun other ↦ by
      rw [List.mem_cons]
      exact ⟨fun hor ↦ hor.elim (fun heq ↦ heq ▸ hmem) id, Or.inr⟩
  refine ⟨_, (build_assignments facets hnamed).symm ▸ hsame, ?_⟩
  rw [build_assignments facets hnamed, getitem_of_none hname ((hsame name).trans hnone), search_eq]
  have hsingle : (empty.put key ((facets.find? key).getD true)).keylist.find?
      (fun other ↦ other.length ≤ key.length) = some key := by
    simp [put, find?, empty, byLength]
  have hfirst :
      (facets.putAll facets.keylist (empty.put key ((facets.find? key).getD true))).keylist.find?
      (fun other ↦ other.length ≤ key.length) = some key :=
    find?_putAll_keylist (inStep_empty.put (h.named key hmem) _) h.named hsingle
  rw [← putAll_cons] at hfirst
  obtain ⟨-, before, after, hkeys, hbefore⟩ := List.find?_eq_some_iff_append.mp hfirst
  have happlies : (facets.putAll (key :: facets.keylist) empty).keylist.find? (applies name) =
      some key := by
    refine List.find?_eq_some_iff_append.mpr
      ⟨applies_iff.mpr hlongest.applies, before, after, hkeys, fun other hother ↦ ?_⟩
    rw [Bool.not_eq_true', Bool.eq_false_iff]
    intro hother'
    have hlonger := hbefore other hother
    have hfound : facets.find? other ≠ none := by
      rw [← hsame other, ← InStep.mem_iff (build_assignments facets hnamed ▸ inStep_build _), hkeys]
      exact List.mem_append_left _ hother
    have hle := hlongest.longest other hfound (applies_iff.mp hother')
    simp [hle] at hlonger
  rw [happlies, Option.elim_some, decided, decided, hsame key]

end Copies

/-! ### The documented lookup -/

end Facets

open Facets

/-- The lookup of a name depends on the mapping alone, and a pop of an absent key gives its default.
-/
structure Documented (operations : List Operation) (name : FacetName) (item : List Char)
    (default : Value) : Prop where
  answers : ∃ value, (build operations).getitem name = .ok value ∧
    (build operations).Answers name value
  determined : ∀ others, (build operations).SameMapping (build others) →
    (build others).getitem name = (build operations).getitem name
  copies : ∀ order : List (List Char), order.Perm (build operations).keylist →
    ∃ made, copy order (build operations) = .ok made ∧ (build operations).SameMapping made ∧
      made.getitem name = (build operations).getitem name
  pops : (build operations).find? item = none →
    (pop item default).exec (build operations) = (.ok default, build operations)

section Documented

variable {operations : List Operation} {name : FacetName} {item : List Char} {default : Value}

/-- A copy is an object that assignments build. -/
theorem exists_copy {facets : Facets} (h : facets.InStep) {order : List (List Char)}
    (horder : order.Perm facets.keylist) :
    ∃ made, copy order facets = .ok made ∧ facets.SameMapping made ∧
      ∃ others, made = build others := by
  have hnamed : ∀ key ∈ order, isFacet key = true := fun key hkey ↦
    h.named key (horder.mem_iff.mp hkey)
  have hfound : ∀ key ∈ order, facets.find? key ≠ none := fun key hkey ↦
    (h.mem_iff key).mp (horder.mem_iff.mp hkey)
  refine ⟨facets.putAll order empty, ?_, h.sameMapping_putAll fun _ ↦ horder.mem_iff,
    _, (build_assignments facets hnamed).symm⟩
  rw [copy, exec_init hnamed hfound]
  rfl

/-- The pop of an absent key fails. -/
theorem pops_iff :
    ((build operations).find? item = none →
      (pop item default).exec (build operations) = (.ok default, build operations)) ↔
    (build operations).find? item ≠ none := by
  refine ⟨fun h hnone ↦ ?_, fun h hnone ↦ absurd hnone h⟩
  have hrun := h hnone
  rw [exec_pop (inStep_build operations), hnone] at hrun
  cases congrArg Prod.fst hrun

/-- If all objects with the mapping answer alike, the longest keys that apply agree. -/
theorem Documented.settled (h : Documented operations name item default) :
    (build operations).Settled name := by
  by_cases hname : (build operations).find? name ≠ none
  · exact Or.inl hname
  · have hdecided : ∀ key, (build operations).Longest name key →
        (build operations).getitem name = (build operations).decided name key := by
      intro key hkey
      obtain ⟨others, hsame, hothers⟩ :=
        exists_decided (inStep_build operations) name.2 (not_not.mp hname) hkey
      rw [← hothers, h.determined others hsame]
    obtain ⟨value, hvalue, -⟩ := h.answers
    have hmatch : ∀ key, (build operations).Longest name key →
        fnmatch name key = some true ∧ (build operations).find? key = some value := by
      intro key hkey
      have hdec := (hdecided key hkey).symm.trans hvalue
      obtain ⟨found, hfound⟩ := Option.ne_none_iff_exists'.mp hkey.mem
      unfold decided at hdec
      rcases hrun : fnmatch name key with _ | _ | _
      · rw [hrun] at hdec
        cases hdec
      · exact absurd hrun hkey.applies
      · rw [hrun, hfound] at hdec
        cases hdec
        exact ⟨rfl, hfound⟩
    refine Or.inr fun key hkey ↦ ⟨(hmatch key hkey).1, fun other hother ↦ ?_⟩
    rw [(hmatch other hother).2, (hmatch key hkey).2]

/-- The lookup is as documented exactly if the longest keys that apply to a name that is no key
match it and agree, and the pop is of a key. -/
theorem lookup_documented_iff (operations : List Operation) (name : FacetName) (item : List Char)
    (default : Value) :
    Documented operations name item default ↔
      (build operations).Settled name ∧ (build operations).find? item ≠ none := by
  refine ⟨fun h ↦ ⟨h.settled, pops_iff.mp h.pops⟩, fun ⟨hsettled, hitem⟩ ↦ ?_⟩
  have hstep := inStep_build operations
  refine ⟨answers_of_settled hstep name.2 hsettled, fun others hsame ↦ ?_, fun order horder ↦ ?_,
    pops_iff.mpr hitem⟩
  · exact getitem_eq_of_settled hstep (inStep_build others) hsame name.2 hsettled
  · obtain ⟨made, hcopy, hsame, others, rfl⟩ := exists_copy hstep horder
    exact ⟨_, hcopy, hsame, getitem_eq_of_settled hstep (inStep_build others) hsame name.2 hsettled⟩

/-- Two patterns of one length, of which the one that was set first answers. -/
theorem not_documented_ties :
    ¬ Documented [.assign "facet.a*".toList (.boolean true),
      .assign "facet.*b".toList (.boolean false)]
        ⟨"facet.ab".toList, rfl⟩ "facet.a*".toList (.boolean true) ∧
      ¬ Documented [] ⟨"facet.ab".toList, rfl⟩ "facet.ab".toList (.boolean true) := by
  refine ⟨fun h ↦ ?_, fun h ↦ ?_⟩
  · have hsame : SameMapping
        (build [.assign "facet.a*".toList (.boolean true),
          .assign "facet.*b".toList (.boolean false)])
        (build [.assign "facet.*b".toList (.boolean false),
            .assign "facet.a*".toList (.boolean true)]) :=
      fun key ↦ Dict.lookup_perm (by decide) (List.Perm.swap _ _ []) key
    exact absurd (h.determined _ hsame) (by decide)
  · exact absurd (h.pops rfl) (by decide)

end Documented

end Userland.Pkg.Facet
