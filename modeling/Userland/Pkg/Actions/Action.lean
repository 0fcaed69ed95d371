import Mathlib.Data.List.Sort
import Userland.Library.Dict
import Userland.Library.QuotedFields

/-!
# Actions and their text

`Action` of `pkg/actions/generic.py`: a type name, an optional hash and named attributes, each with
one value or a list of values. `str` prints the name, the hash and a field `key=value` for each
value, in the order of the keys. A value with a blank or a quote in it stands in quotes; if both
kinds of quote occur in it, the double quotes are escaped, but backslashes are not.

The text is nevertheless unambiguous: of two actions of one type and hash that print the same text,
each attribute has the same list of values (`values_eq_of_str_eq`).

Scope. Values that are sets, the data of an action and the order of actions are not modelled here.
-/

set_option autoImplicit false
set_option relaxedAutoImplicit false

namespace Userland.Pkg.Actions

open Library.QuotedFields

/-- The value of an attribute. -/
inductive AttrValue
  | str (value : List Char)
  | list (values : List (List Char))
deriving DecidableEq

/-- The values of an attribute as a list. -/
def AttrValue.toList : AttrValue → List (List Char)
  | .str value => [value]
  | .list values => values

/-- `Action`: the name of its type, its hash and its attributes. -/
structure Action where
  name : List Char
  hash : Option (List Char)
  attrs : List (List Char × AttrValue)
  nodup : (attrs.map Prod.fst).Nodup
deriving DecidableEq

def singleQuote : Char := Char.ofNat 39

def doubleQuote : Char := Char.ofNat 34

def backslash : Char := Char.ofNat 92

/-- `s.replace`, which puts a backslash in front of every double quote. -/
def escapeQuotes (s : List Char) : List Char :=
  guardWith backslash doubleQuote s

/-- `q` of `Action.__str__`. -/
def q (s : List Char) : List Char :=
  if ' ' ∈ s ∨ singleQuote ∈ s ∨ doubleQuote ∈ s ∨ s = [] then
    if doubleQuote ∉ s then doubleQuote :: s ++ [doubleQuote]
    else if singleQuote ∉ s then singleQuote :: s ++ [singleQuote]
    else doubleQuote :: escapeQuotes s ++ [doubleQuote]
  else s

namespace Action

/-- `self.attrs.get(key)`. -/
def get (action : Action) (key : List Char) : Option AttrValue :=
  action.attrs.lookup key

/-- The values of an attribute as a list, if the action has the attribute. -/
def values (action : Action) (key : List Char) : Option (List (List Char)) :=
  (action.get key).map AttrValue.toList

/-- The attributes in the order of their keys. -/
def sortedAttrs (action : Action) : List (List Char × AttrValue) :=
  action.attrs.insertionSort Library.Dict.KeyLE

/-- `str(action)`. -/
def str (action : Action) : List Char :=
  action.name ++
    (match action.hash with | some hash => ' ' :: hash | none => []) ++
    action.sortedAttrs.flatMap fun attr ↦
      match attr.2 with
      | .list values =>
        ' ' :: [' '].intercalate (values.map fun lmt ↦ attr.1 ++ '=' :: q lmt)
      | .str value => ' ' :: attr.1 ++ '=' :: q value

end Action

/-! ### The text as a row of fields -/

/-- The marks of the text of an action. -/
def marks : Marks Char where
  blank := ' '
  equals := '='
  single := singleQuote
  double := doubleQuote
  escape := backslash
  distinct := by decide

/-- How a value is quoted. -/
def bodyOf (s : List Char) : Body Char :=
  if ' ' ∈ s ∨ singleQuote ∈ s ∨ doubleQuote ∈ s ∨ s = [] then
    if doubleQuote ∉ s then .double s
    else if singleQuote ∉ s then .single s
    else .double (escapeQuotes s)
  else .bare s

theorem text_bodyOf (s : List Char) : (bodyOf s).text marks = q s := by
  unfold bodyOf q
  split_ifs <;> rfl

/-- The four ways a value is printed. -/
theorem bodyOf_cases (s : List Char) :
    (bodyOf s = .bare s ∧ s ≠ [] ∧ ' ' ∉ s ∧ singleQuote ∉ s ∧ doubleQuote ∉ s) ∨
      (bodyOf s = .double s ∧ doubleQuote ∉ s) ∨ (bodyOf s = .single s ∧ singleQuote ∉ s) ∨
      (bodyOf s = .double (escapeQuotes s) ∧ doubleQuote ∈ s) := by
  unfold bodyOf
  by_cases hquoted : ' ' ∈ s ∨ singleQuote ∈ s ∨ doubleQuote ∈ s ∨ s = []
  · rw [if_pos hquoted]
    by_cases hdouble : doubleQuote ∉ s
    · exact Or.inr (Or.inl ⟨if_pos hdouble, hdouble⟩)
    · rw [if_neg hdouble]
      by_cases hsingle : singleQuote ∉ s
      · exact Or.inr (Or.inr (Or.inl ⟨if_pos hsingle, hsingle⟩))
      · exact Or.inr (Or.inr (Or.inr ⟨if_neg hsingle, not_not.mp hdouble⟩))
  · rw [if_neg hquoted]
    simp only [not_or] at hquoted
    exact Or.inl ⟨rfl, hquoted.2.2.2, hquoted.1, hquoted.2.1, hquoted.2.2.1⟩

theorem wellFormed_bodyOf (s : List Char) : (bodyOf s).WellFormed marks := by
  rcases bodyOf_cases s with ⟨h, hbare⟩ | ⟨h, hdouble⟩ | ⟨h, hsingle⟩ | ⟨h, -⟩ <;> rw [h]
  · exact hbare
  · exact guarded_of_notMem hdouble
  · exact hsingle
  · exact guarded_guardWith (by decide) s

theorem bodyOf_injective : Function.Injective bodyOf := by
  have hescaped : ∀ {s t : List Char}, doubleQuote ∉ s → doubleQuote ∈ t →
      Body.double s ≠ Body.double (escapeQuotes t) := by
    intro s t hs ht heq
    cases heq
    exact hs (quote_mem_guardWith ht)
  intro s t heq
  rcases bodyOf_cases s with ⟨h, -⟩ | ⟨h, hs⟩ | ⟨h, -⟩ | ⟨h, hs⟩ <;>
    rcases bodyOf_cases t with ⟨h', -⟩ | ⟨h', ht⟩ | ⟨h', -⟩ | ⟨h', ht⟩ <;> rw [h, h'] at heq
  case inr.inl.inr.inr.inr => exact absurd heq (hescaped hs ht)
  case inr.inr.inr.inr.inl => exact absurd heq.symm (hescaped ht hs)
  case inr.inr.inr.inr.inr.inr =>
    exact guardWith_injective (by decide) (Body.double.inj heq)
  all_goals cases heq
  all_goals rfl

/-- The fields of an action: one for each value of an attribute. -/
def Action.items (action : Action) : List (List Char × List Char) :=
  action.sortedAttrs.flatMap fun attr ↦ attr.2.toList.map fun value ↦ (attr.1, value)

/-- No list of values is empty, and no key holds a quote or an equals sign. -/
structure Action.Printable (action : Action) : Prop where
  nonempty : ∀ attr ∈ action.attrs, attr.2 ≠ .list []
  quotes : ∀ attr ∈ action.attrs, singleQuote ∉ attr.1 ∧ doubleQuote ∉ attr.1
  equals : ∀ attr ∈ action.attrs, '=' ∉ attr.1

theorem intercalate_blank {texts : List (List Char)} (h : texts ≠ []) :
    ' ' :: [' '].intercalate texts = texts.flatMap fun text ↦ ' ' :: text := by
  induction texts with
  | nil => exact absurd rfl h
  | cons text rest ih =>
    cases rest with
    | nil => simp
    | cons other rest =>
      rw [List.intercalate_cons_of_ne_nil (by simp), List.flatMap_cons, ← ih (by simp)]
      simp

namespace Action

theorem perm_sortedAttrs (action : Action) : action.sortedAttrs.Perm action.attrs :=
  List.perm_insertionSort _ _

/-- The text of an action, as a row of fields behind its name and hash. -/
theorem str_eq_render (action : Action) (h : action.Printable) :
    action.str = action.name ++ (match action.hash with | some hash => ' ' :: hash | none => []) ++
      render marks (action.items.map fun item ↦ (item.1, bodyOf item.2)) := by
  unfold str items render
  congr 1
  rw [List.flatMap_map, List.flatMap_assoc]
  simp only [text_bodyOf]
  refine List.flatMap_congr fun attr hattr ↦ ?_
  have hnonempty := h.nonempty attr ((perm_sortedAttrs action).mem_iff.mp hattr)
  obtain ⟨key, value | values⟩ := attr
  · simp [AttrValue.toList, marks]
  · have hvalues : values ≠ [] := fun hnil ↦ hnonempty (congrArg AttrValue.list hnil)
    dsimp only
    rw [intercalate_blank (by simpa using hvalues)]
    simp [AttrValue.toList, marks, List.flatMap_map]

theorem wellFormed_items {action : Action} (h : action.Printable) :
    WellFormed marks (action.items.map fun item ↦ (item.1, bodyOf item.2)) := by
  intro field hfield
  obtain ⟨item, hitem, rfl⟩ := List.mem_map.mp hfield
  obtain ⟨attr, hattr, hvalue⟩ := List.mem_flatMap.mp hitem
  obtain ⟨value, -, rfl⟩ := List.mem_map.mp hvalue
  have hmem := (perm_sortedAttrs action).mem_iff.mp hattr
  exact ⟨⟨h.equals attr hmem, (h.quotes attr hmem).1, (h.quotes attr hmem).2⟩,
    wellFormed_bodyOf value⟩

/-- The values of a key among the fields of a row of attributes with distinct keys. -/
theorem values_of_items {attrs : List (List Char × AttrValue)} (h : (attrs.map Prod.fst).Nodup)
    (key : List Char) :
    ((attrs.flatMap fun attr ↦ attr.2.toList.map fun value ↦ (attr.1, value)).filter
      fun item ↦ item.1 = key).map Prod.snd =
      ((attrs.lookup key).map AttrValue.toList).getD [] := by
  induction attrs with
  | nil => rfl
  | cons attr rest ih =>
    rw [List.map_cons, List.nodup_cons] at h
    rw [List.flatMap_cons, List.filter_append, List.map_append, ih h.2, List.lookup_cons]
    by_cases hkey : attr.1 = key
    · have hrest : rest.lookup key = none := by
        rw [List.lookup_eq_none_iff]
        intro other hother
        refine bne_iff_ne.mpr fun heq ↦ h.1 ?_
        rw [hkey, heq]
        exact List.mem_map_of_mem hother
      rw [hkey, hrest, beq_self_eq_true, List.filter_map, List.map_map]
      simp [Function.comp_def]
    · rw [List.filter_map, List.map_map, beq_eq_false_iff_ne.mpr (Ne.symm hkey)]
      simp [Function.comp_def, hkey]

theorem values_eq_of_items_eq {action other : Action} (h : action.Printable) (h' : other.Printable)
    (hitems : action.items = other.items) (key : List Char) :
    action.values key = other.values key := by
  have hvalues : ∀ {action : Action}, action.Printable →
      (action.items.filter fun item ↦ item.1 = key).map Prod.snd = (action.values key).getD [] ∧
        action.values key ≠ some [] := by
    intro action h
    have hnodup : (action.sortedAttrs.map Prod.fst).Nodup :=
      ((perm_sortedAttrs action).map Prod.fst).nodup_iff.mpr action.nodup
    constructor
    · rw [values, get, ← Library.Dict.lookup_perm hnodup (perm_sortedAttrs action)]
      exact values_of_items hnodup key
    · intro hnil
      obtain ⟨value, hvalue, hlist⟩ := Option.map_eq_some_iff.mp hnil
      refine h.nonempty _ (Library.Dict.mem_of_lookup hvalue) ?_
      cases value with
      | str value => cases hlist
      | list values => exact congrArg AttrValue.list hlist
  obtain ⟨hfirst, hne⟩ := hvalues h
  obtain ⟨hsecond, hne'⟩ := hvalues h'
  rw [hitems, hsecond] at hfirst
  cases hvalue : action.values key with
  | none =>
    cases hother : other.values key with
    | none => rfl
    | some values =>
      rw [hvalue, hother] at hfirst
      exact absurd (hother.trans (congrArg some hfirst)) hne'
  | some values =>
    cases hother : other.values key with
    | none =>
      rw [hvalue, hother] at hfirst
      exact absurd (hvalue.trans (congrArg some hfirst.symm)) hne
    | some others =>
      rw [hvalue, hother] at hfirst
      exact congrArg some hfirst.symm

/-- Two actions of one type and hash that print the same text have the same attributes, each with
the same list of values. -/
theorem values_eq_of_str_eq (action other : Action) (h : action.Printable) (h' : other.Printable)
    (hname : action.name = other.name) (hhash : action.hash = other.hash)
    (hstr : action.str = other.str) (key : List Char) : action.values key = other.values key := by
  rw [str_eq_render action h, str_eq_render other h', hname, hhash] at hstr
  have hfields := render_injective (wellFormed_items h) (wellFormed_items h')
    (List.append_cancel_left hstr)
  refine values_eq_of_items_eq h h' ?_ key
  refine List.map_injective_iff.mpr ?_ hfields
  intro first second heq
  exact Prod.ext (congrArg Prod.fst heq :) (bodyOf_injective (congrArg Prod.snd heq :))

end Action

/-- A directory with one value of an attribute, stored as a list or by itself. -/
def directoryWith (value : AttrValue) : Action :=
  ⟨"dir".toList, none, [("path".toList, .str "usr/my bin".toList), ("tag".toList, value)],
    show ["path".toList, "tag".toList].Nodup by decide⟩

theorem Action.printable_directoryWith {value : AttrValue} (h : value ≠ .list []) :
    (directoryWith value).Printable := by
  constructor
  · intro attr hattr
    rcases List.mem_pair.mp hattr with rfl | rfl
    · simp
    · exact h
  · intro attr hattr
    rcases List.mem_pair.mp hattr with rfl | rfl
    · exact ⟨by decide, by decide⟩
    · exact ⟨show singleQuote ∉ "tag".toList by decide, show doubleQuote ∉ "tag".toList by decide⟩
  · intro attr hattr
    rcases List.mem_pair.mp hattr with rfl | rfl
    · decide
    · exact show '=' ∉ "tag".toList by decide

theorem Action.values_eq_of_str_eq_directoryWith :
    (directoryWith (.list ["a".toList])).values "tag".toList =
      (directoryWith (.str "a".toList)).values "tag".toList :=
  values_eq_of_str_eq _ _ (printable_directoryWith (by decide))
    (printable_directoryWith (by decide))
    rfl rfl (by decide +kernel) _

example : Action.str ⟨"file".toList, some "hash".toList,
    [("path".toList, .str "a b".toList), ("alias".toList, .list ["x".toList, [doubleQuote]])],
    by decide⟩ =
    "file hash alias=x alias='\x22' path=\x22a b\x22".toList := by
  decide +kernel

end Userland.Pkg.Actions
