import Mathlib.Data.Char
import Mathlib.Data.List.Lex
import Mathlib.Data.Prod.Lex
import Mathlib.Data.Sum.Order
import Userland.Library.Grouping
import Userland.Pkg.Manifest.Transition

/-!
# Duplicates in a manifest

`Manifest.duplicates` groups the selected actions by their keys and reports those that are different
from the one before or behind them in their group. Being not different is an equivalence among the
actions with one key (`different_trans`), so that an action that differs from another one of its
group is reported exactly where all differ from a neighbour (`duplicates_complete_iff`).

Scope. Numbers precede lists and lists precede texts, as Python orders values of different types.
-/

set_option autoImplicit false
set_option relaxedAutoImplicit false

namespace Userland.Pkg.Difference

open Actions
open Library.Grouping

/-- A key as Python orders it in a sort. -/
abbrev SortKey := List Char ×ₗ (ℕ ⊕ₗ (List (List Char) ⊕ₗ List Char))

def ActionKey.sortKey : ActionKey → SortKey
  | (name, .identity address) => toLex (name, toLex (Sum.inl address))
  | (name, .value (.list values)) => toLex (name, toLex (Sum.inr (toLex (Sum.inl values))))
  | (name, .value (.str value)) => toLex (name, toLex (Sum.inr (toLex (Sum.inr value))))

section

variable (objects : Objects)

/-- The comparisons of the neighbours in a group, of which the first and the second differ or not.
-/
def groupDups : List ℕ → Except DifferenceError (List ℕ)
  | first :: second :: rest => do
    let different ← checkedDifferent (objects.action first) (objects.action second)
    let dups ← groupDups (second :: rest)
    return if different then first :: second :: dups else dups
  | _ => .ok []

/-- The reports of the groups, of which those without duplicates are left out. -/
def reports : List (List ℕ) → Except DifferenceError (List (ActionKey × List ℕ))
  | [] => .ok []
  | group :: groups => do
    let dups ← groupDups objects group
    let alldups ← reports groups
    return match dups with
      | [] => alldups
      | first :: _ => (actionKey objects first, dups) :: alldups

/-- `fun(a)` of `duplicates`. -/
def duplicatesKey (a : ℕ) : SortKey :=
  (actionKey objects a).sortKey

/-- `Manifest.duplicates(excludes)` -/
def duplicates (self : Manifest) (excludes : List (Action → Bool)) :
    Except DifferenceError (List (ActionKey × List ℕ)) :=
  reports objects (groupby (duplicatesKey objects)
    ((genActions objects self excludes).insertionSort fun first second ↦
      duplicatesKey objects first ≤ duplicatesKey objects second))

end

/-! ### Being not different is an equivalence -/

theorem sameAttrs_iff {same : AttrValue → AttrValue → Bool} {self other : Action} :
    self.sameAttrs same other = true ↔ ∀ name, (self.get name = none ∧ other.get name = none) ∨
      ∃ value value', self.get name = some value ∧ other.get name = some value' ∧
      same value value' = true := by
  refine ⟨get_of_sameAttrs, fun h ↦ Bool.and_eq_true_iff.mpr ⟨?_, ?_⟩⟩
  · refine List.all_eq_true.mpr fun name hname ↦ List.contains_iff_mem.mpr ?_
    obtain ⟨attr, hattr, rfl⟩ := List.mem_map.mp hname
    have hget : self.get attr.1 = some attr.2 :=
      (Library.Dict.lookup_eq_some_iff_mem self.nodup).mpr hattr
    rcases h attr.1 with ⟨hnone, -⟩ | ⟨value, value', -, hother, -⟩
    · rw [hget] at hnone
      cases hnone
    · exact List.mem_map.mpr ⟨(attr.1, value'), Library.Dict.mem_of_lookup hother, rfl⟩
  · refine List.all_eq_true.mpr fun attr hattr ↦ ?_
    have hget : other.get attr.1 = some attr.2 :=
      (Library.Dict.lookup_eq_some_iff_mem other.nodup).mpr hattr
    rcases h attr.1 with ⟨-, hnone⟩ | ⟨value, value', hself, hother, hsame⟩
    · rw [hget] at hnone
      cases hnone
    · rw [hself]
      rw [hget, Option.some_inj] at hother
      rw [hother]
      exact hsame

/-- The values of two attributes count as the same in a way that is symmetric and transitive. -/
structure Equates (same : AttrValue → AttrValue → Bool) : Prop where
  symm : ∀ value value', same value value' = true → same value' value = true
  trans : ∀ value value' value'', same value value' = true → same value' value'' = true →
    same value value'' = true

theorem equates_eq : Equates (· == ·) where
  symm _ _ h := by
    rw [beq_iff_eq] at h ⊢
    exact h.symm
  trans _ _ _ h h' := by
    rw [beq_iff_eq] at h h' ⊢
    exact h.trans h'

theorem sameValue_iff {value value' : AttrValue} : Action.sameValue value value' = true ↔
    value = value' ∨ ∃ values values', value = .list values ∧ value' = .list values' ∧
    values.Perm values' := by
  cases value with
  | str text =>
    rw [Action.sameValue, beq_iff_eq]
    · exact ⟨Or.inl, fun h ↦ h.resolve_right fun ⟨_, _, hvalue, _⟩ ↦ nomatch hvalue⟩
    · exact fun _ _ hvalue _ ↦ nomatch hvalue
  | list values =>
    cases value' with
    | str text =>
      rw [Action.sameValue, beq_iff_eq]
      · exact ⟨Or.inl, fun h ↦ h.resolve_right fun ⟨_, _, _, hvalue, _⟩ ↦ nomatch hvalue⟩
      · exact fun _ _ _ hvalue ↦ nomatch hvalue
    | list values' =>
      rw [Action.sameValue, List.isPerm_iff]
      constructor
      · exact fun h ↦ Or.inr ⟨values, values', rfl, rfl, h⟩
      · rintro (heq | ⟨_, _, hvalue, hvalue', h⟩)
        · rw [AttrValue.list.inj heq]
        · rw [AttrValue.list.inj hvalue, AttrValue.list.inj hvalue']
          exact h

theorem equates_sameValue : Equates Action.sameValue where
  symm value value' h := by
    rw [sameValue_iff] at h ⊢
    rcases h with rfl | ⟨values, values', rfl, rfl, h⟩
    · exact Or.inl rfl
    · exact Or.inr ⟨values', values, rfl, rfl, h.symm⟩
  trans value value' value'' h h' := by
    rw [sameValue_iff] at h h' ⊢
    rcases h with rfl | ⟨values, values', rfl, rfl, h⟩
    · exact h'
    · rcases h' with rfl | ⟨_, values'', hvalue, rfl, h'⟩
      · exact Or.inr ⟨values, values', rfl, rfl, h⟩
      · rw [← AttrValue.list.inj hvalue] at h'
        exact Or.inr ⟨values, values'', rfl, rfl, h.trans h'⟩

section

variable {same : AttrValue → AttrValue → Bool} (hsame : Equates same) {first second third : Action}
include hsame

theorem sameAttrs_symm (h : first.sameAttrs same second = true) :
    second.sameAttrs same first = true := by
  rw [sameAttrs_iff] at h ⊢
  intro name
  rcases h name with ⟨hfirst, hsecond⟩ | ⟨value, value', hfirst, hsecond, hvalue⟩
  · exact Or.inl ⟨hsecond, hfirst⟩
  · exact Or.inr ⟨value', value, hsecond, hfirst, hsame.symm value value' hvalue⟩

theorem sameAttrs_trans (h : first.sameAttrs same second = true)
    (h' : second.sameAttrs same third = true) :
    first.sameAttrs same third = true := by
  rw [sameAttrs_iff] at h h' ⊢
  intro name
  rcases h name with ⟨hfirst, hsecond⟩ | ⟨value, value', hfirst, hsecond, hvalue⟩
  · rcases h' name with ⟨-, hthird⟩ | ⟨value'', _, hsecond', -, -⟩
    · exact Or.inl ⟨hfirst, hthird⟩
    · rw [hsecond] at hsecond'
      cases hsecond'
  · rcases h' name with ⟨hsecond', -⟩ | ⟨_, value'', hsecond', hthird, hvalue'⟩
    · rw [hsecond] at hsecond'
      cases hsecond'
    · rw [hsecond, Option.some_inj] at hsecond'
      rw [← hsecond'] at hvalue'
      exact Or.inr ⟨value, value'', hfirst, hthird, hsame.trans value value' value'' hvalue hvalue'⟩

omit hsame in
theorem isSome_get_of_sameAttrs (h : first.sameAttrs same second = true) (name : List Char) :
    (first.get name).isSome = (second.get name).isSome := by
  rcases sameAttrs_iff.mp h name with ⟨hfirst, hsecond⟩ | ⟨value, value', hfirst, hsecond, -⟩
  · rw [hfirst, hsecond]
  · rw [hfirst, hsecond]
    rfl

end

/-- Whether an action is a file with a hash of its ELF contents. -/
def IsElf (action : Action) : Prop :=
  action.name = "file".toList ∧ (action.get "elfhash".toList).isSome = true

/-- Two actions of one type are not different if they have the same attributes, in the way that
files with a hash of their ELF contents are compared, or in the general way with the same hash. -/
theorem different_eq_false_iff {self other : Action} (hname : self.name = other.name) :
    self.different other = false ↔
      (IsElf self ∧ IsElf other ∧ self.sameAttrs (· == ·) other = true) ∨
        ¬IsElf self ∧ ¬IsElf other ∧ self.sameAttrs Action.sameValue other = true ∧
          (self.hash = none ∨ self.hash = other.hash) := by
  unfold Action.different IsElf
  by_cases helf : self.name = "file".toList ∧ (self.get "elfhash".toList).isSome = true ∧
      (other.get "elfhash".toList).isSome = true
  · rw [if_pos helf, Bool.not_eq_false']
    have hother : other.name = "file".toList := hname ▸ helf.1
    constructor
    · exact fun h ↦ Or.inl ⟨⟨helf.1, helf.2.1⟩, ⟨hother, helf.2.2⟩, h⟩
    · rintro (⟨-, -, h⟩ | ⟨hno, -⟩)
      · exact h
      · exact absurd ⟨helf.1, helf.2.1⟩ hno
  · rw [if_neg helf, Bool.not_eq_false', Bool.and_eq_true, Bool.or_eq_true, decide_eq_true_iff,
      decide_eq_true_iff]
    constructor
    · rintro ⟨hattrs, hhash⟩
      have hsome := isSome_get_of_sameAttrs hattrs "elfhash".toList
      refine Or.inr ⟨fun hself ↦ helf ⟨hself.1, hself.2, hsome ▸ hself.2⟩,
        fun hother ↦ helf ⟨hname.trans hother.1, hsome.trans hother.2, hother.2⟩, hattrs, hhash⟩
    · rintro (⟨hself, hother, -⟩ | ⟨-, -, hattrs, hhash⟩)
      · exact absurd ⟨hself.1, hself.2, hother.2⟩ helf
      · exact ⟨hattrs, hhash⟩

section

variable {objects : Objects} {first second third : ℕ}

/-- Of two actions with one key, both have a hash or none has. -/
theorem hash_eq_none_of_actionKey_eq (h : actionKey objects first = actionKey objects second)
    (hhash : (objects.action first).hash = none) : (objects.action second).hash = none := by
  by_contra hsome
  have hchecked := checkedDifferent_of_actionKey_eq objects h.symm
  have hslot := objects.slots second (Option.isSome_iff_ne_none.mpr hsome)
  have hname := name_eq_of_actionKey_eq objects h
  rw [List.mem_cons, List.mem_cons, List.mem_singleton] at hslot
  rcases hslot with hfile | hlicense | hsignature
  · have hfilled := objects.filled first (by rw [hname, hfile]; exact List.mem_cons_self)
    rw [hhash] at hfilled
    cases hfilled
  · have hfilled := objects.filled first
      (by rw [hname, hlicense]; exact List.mem_cons_of_mem _ List.mem_cons_self)
    rw [hhash] at hfilled
    cases hfilled
  · have hnone : (objects.action second).key = none := by
      rw [Action.key, hsignature]
      rfl
    rw [eq_of_identity objects hnone h.symm, hhash] at hsome
    exact hsome rfl

theorem different_symm (h : actionKey objects first = actionKey objects second) :
    (objects.action first).different (objects.action second) =
      (objects.action second).different (objects.action first) := by
  have himp : ∀ {a b : ℕ}, actionKey objects a = actionKey objects b →
      (objects.action a).different (objects.action b) = false →
      (objects.action b).different (objects.action a) = false := by
    intro a b hkey hab
    have hname := name_eq_of_actionKey_eq objects hkey
    rw [different_eq_false_iff hname] at hab
    rw [different_eq_false_iff hname.symm]
    rcases hab with ⟨ha, hb, hattrs⟩ | ⟨ha, hb, hattrs, hhash⟩
    · exact Or.inl ⟨hb, ha, sameAttrs_symm equates_eq hattrs⟩
    · refine Or.inr ⟨hb, ha, sameAttrs_symm equates_sameValue hattrs, ?_⟩
      exact hhash.imp (hash_eq_none_of_actionKey_eq hkey) Eq.symm
  cases hfirst : (objects.action first).different (objects.action second) with
  | false => exact (himp h hfirst).symm
  | true =>
    cases hsecond : (objects.action second).different (objects.action first) with
    | false => rw [himp h.symm hsecond] at hfirst; cases hfirst
    | true => rfl

theorem different_trans (h : actionKey objects first = actionKey objects second)
    (h' : actionKey objects second = actionKey objects third)
    (hfirst : (objects.action first).different (objects.action second) = false)
    (hthird : (objects.action second).different (objects.action third) = false) :
    (objects.action first).different (objects.action third) = false := by
  have hname := name_eq_of_actionKey_eq objects h
  have hname' := name_eq_of_actionKey_eq objects h'
  rw [different_eq_false_iff hname] at hfirst
  rw [different_eq_false_iff hname'] at hthird
  rw [different_eq_false_iff (hname.trans hname')]
  rcases hfirst with ⟨ha, hb, hattrs⟩ | ⟨ha, hb, hattrs, hhash⟩
  · rcases hthird with ⟨-, hc, hattrs'⟩ | ⟨hno, -⟩
    · exact Or.inl ⟨ha, hc, sameAttrs_trans equates_eq hattrs hattrs'⟩
    · exact absurd hb hno
  · rcases hthird with ⟨hno, -⟩ | ⟨-, hc, hattrs', hhash'⟩
    · exact absurd hno hb
    · refine Or.inr ⟨ha, hc, sameAttrs_trans equates_sameValue hattrs hattrs', ?_⟩
      rcases hhash with hnone | heq
      · exact Or.inl hnone
      · exact hhash'.imp heq.trans heq.trans

end

/-! ### What is reported -/

section

variable {objects : Objects}

theorem sortKey_injective : Function.Injective ActionKey.sortKey := by
  rintro ⟨name, value⟩ ⟨name', value'⟩ h
  have hname : name = name' := by
    have hfst := congrArg (fun k ↦ (ofLex k).1) h
    rcases value with (_ | _) | _ <;> rcases value' with (_ | _) | _ <;> exact hfst
  have hsnd := congrArg (fun k ↦ (ofLex k).2) h
  rw [hname]
  rcases value with (value | values) | address <;>
    rcases value' with (value' | values') | address' <;>
    simp [ActionKey.sortKey] at hsnd <;> rw [hsnd]

theorem duplicatesKey_eq_iff {first second : ℕ} :
    duplicatesKey objects first = duplicatesKey objects second ↔
    actionKey objects first = actionKey objects second :=
  sortKey_injective.eq_iff

/-- Whether two actions are different. -/
def differs (objects : Objects) (first second : ℕ) : Bool :=
  (objects.action first).different (objects.action second)

/-- The comparisons in a group of actions with one key do not fail. -/
theorem groupDups_eq {group : List ℕ}
    (h : ∀ first ∈ group, ∀ second ∈ group, actionKey objects first = actionKey objects second) :
    groupDups objects group = .ok (marked (differs objects) group) := by
  induction group with
  | nil => rfl
  | cons first group ih =>
    cases group with
    | nil => rfl
    | cons second rest =>
      have hkey := h first List.mem_cons_self second (List.mem_cons_of_mem _ List.mem_cons_self)
      have hrest := ih fun a ha b hb ↦ h a (List.mem_cons_of_mem _ ha) b (List.mem_cons_of_mem _ hb)
      rw [groupDups, checkedDifferent_of_actionKey_eq objects hkey, hrest, marked]
      rfl

theorem mem_marked_subset {group : List ℕ} {a : ℕ} (h : a ∈ marked (differs objects) group) :
    a ∈ group := by
  induction group with
  | nil => cases h
  | cons first group ih =>
    cases group with
    | nil => cases h
    | cons second rest =>
      rw [marked] at h
      split_ifs at h
      · rcases List.mem_cons.mp h with rfl | h
        · exact List.mem_cons_self
        · rcases List.mem_cons.mp h with rfl | h
          · exact List.mem_cons_of_mem _ List.mem_cons_self
          · exact List.mem_cons_of_mem _ (ih h)
      · exact List.mem_cons_of_mem _ (ih h)

theorem reports_ok {groups : List (List ℕ)}
    (h : ∀ group ∈ groups, ∀ first ∈ group, ∀ second ∈ group,
      actionKey objects first = actionKey objects second) :
    ∃ alldups, reports objects groups = .ok alldups ∧ ∀ a,
      (∃ dups, (actionKey objects a, dups) ∈ alldups ∧ a ∈ dups) ↔
        ∃ group ∈ groups, a ∈ marked (differs objects) group := by
  induction groups with
  | nil => exact ⟨[], rfl, fun a ↦ iff_of_false (fun ⟨_, h, _⟩ ↦ nomatch h) fun ⟨_, h, _⟩ ↦
    nomatch h⟩
  | cons group groups ih =>
    obtain ⟨alldups, hreports, hmem⟩ := ih fun other hother ↦
      h other (List.mem_cons_of_mem group hother)
    have hkeys := h group List.mem_cons_self
    rw [reports, groupDups_eq hkeys, hreports]
    cases hdups : marked (differs objects) group with
    | nil =>
      refine ⟨alldups, rfl, fun a ↦ ?_⟩
      rw [hmem, List.exists_mem_cons_iff, hdups, or_iff_right List.not_mem_nil]
    | cons first dups =>
      refine ⟨(actionKey objects first, first :: dups) :: alldups, rfl, fun a ↦ ?_⟩
      have hfirst : first ∈ group := mem_marked_subset (hdups ▸ List.mem_cons_self)
      rw [List.exists_mem_cons_iff, hdups, ← hmem]
      constructor
      · rintro ⟨found, hfound, ha⟩
        rcases List.mem_cons.mp hfound with heq | hfound
        · rw [(Prod.mk.inj heq).2] at ha
          exact Or.inl ha
        · exact Or.inr ⟨found, hfound, ha⟩
      · rintro (ha | ⟨found, hfound, ha⟩)
        · have hgroup : a ∈ group := mem_marked_subset (hdups ▸ ha)
          rw [hkeys a hgroup first hfirst]
          exact ⟨_, List.mem_cons_self, ha⟩
        · exact ⟨found, List.mem_cons_of_mem _ hfound, ha⟩

/-- The selected actions with the key of an action, in the order of the manifest. -/
def sameKey (objects : Objects) (self : Manifest) (excludes : List (Action → Bool)) (a : ℕ) :
    List ℕ :=
  (genActions objects self excludes).filter fun other ↦
    actionKey objects other = actionKey objects a

theorem mem_sameKey {self : Manifest} {excludes : List (Action → Bool)} {a other : ℕ} :
    other ∈ sameKey objects self excludes a ↔
      other ∈ genActions objects self excludes ∧ actionKey objects other = actionKey objects a := by
  rw [sameKey, List.mem_filter, decide_eq_true_iff]

theorem sameKey_congr {self : Manifest} {excludes : List (Action → Bool)} {a other : ℕ}
    (h : actionKey objects other = actionKey objects a) :
    sameKey objects self excludes other = sameKey objects self excludes a := by
  rw [sameKey, sameKey, h]

theorem actionKey_eq_of_mem {self : Manifest} {excludes : List (Action → Bool)} {a first second : ℕ}
    (hfirst : first ∈ sameKey objects self excludes a)
    (hsecond : second ∈ sameKey objects self excludes a) :
    actionKey objects first = actionKey objects second :=
  (mem_sameKey.mp hfirst).2.trans (mem_sameKey.mp hsecond).2.symm

theorem duplicates_ok (objects : Objects) (self : Manifest) (excludes : List (Action → Bool)) :
    ∃ alldups, duplicates objects self excludes = .ok alldups ∧
    ∀ a ∈ genActions objects self excludes,
      (∃ dups, (actionKey objects a, dups) ∈ alldups ∧ a ∈ dups) ↔
        a ∈ marked (differs objects) (sameKey objects self excludes a) := by
  have hkeys : ∀ group ∈ groupby (duplicatesKey objects)
      ((genActions objects self excludes).insertionSort
      fun first second ↦ duplicatesKey objects first ≤ duplicatesKey objects second),
        ∀ first ∈ group,
      ∀ second ∈ group, actionKey objects first = actionKey objects second :=
    fun group hgroup first hfirst second hsecond ↦
      duplicatesKey_eq_iff.mp (key_eq_of_mem_groupby (duplicatesKey objects) hgroup hfirst hsecond)
  obtain ⟨alldups, hreports, hmem⟩ := reports_ok hkeys
  refine ⟨alldups, hreports, fun a ha ↦ ?_⟩
  have hgroups : ∀ element, (genActions objects self excludes).filter
      (fun other ↦ duplicatesKey objects other = duplicatesKey objects element) =
        sameKey objects self excludes element :=
    fun element ↦ List.filter_congr fun other _ ↦ by rw [decide_eq_decide, duplicatesKey_eq_iff]
  rw [hmem]
  constructor
  · rintro ⟨group, hgroup, hmarked⟩
    obtain ⟨element, helement, rfl⟩ := (mem_groupby_insertionSort (duplicatesKey objects)).mp hgroup
    have hkey := (List.mem_filter.mp (mem_marked_subset hmarked)).2
    rw [decide_eq_true_iff] at hkey
    rw [← hgroups, hkey]
    exact hmarked
  · intro hmarked
    rw [← hgroups] at hmarked
    exact ⟨_, (mem_groupby_insertionSort (duplicatesKey objects)).mpr ⟨a, ha, rfl⟩, hmarked⟩

/-- Every action that differs from another selected one with its key is reported, and no other,
exactly where among the actions with each key either none differ or each differs from the one before
it or behind it. -/
theorem duplicates_complete_iff (objects : Objects) (self : Manifest)
    (excludes : List (Action → Bool)) :
    (∃ alldups, duplicates objects self excludes = .ok alldups ∧
      ∀ a ∈ genActions objects self excludes,
      (∃ dups, (actionKey objects a, dups) ∈ alldups ∧ a ∈ dups) ↔
        ∃ other ∈ genActions objects self excludes, actionKey objects other = actionKey objects a ∧
          (objects.action a).different (objects.action other) = true) ↔
      ∀ a ∈ genActions objects self excludes,
        (∀ first ∈ sameKey objects self excludes a, ∀ second ∈ sameKey objects self excludes a,
          (objects.action first).different (objects.action second) = false) ∨
        ∀ first ∈ sameKey objects self excludes a, ∃ second,
          Adjacent (sameKey objects self excludes a) first second ∧
            (objects.action first).different (objects.action second) = true := by
  obtain ⟨alldups, hok, hmem⟩ := duplicates_ok objects self excludes
  have hothers : ∀ a, (∃ other ∈ genActions objects self excludes,
      actionKey objects other = actionKey objects a ∧
      (objects.action a).different (objects.action other) = true) ↔
        ∃ other ∈ sameKey objects self excludes a, differs objects a other = true := by
    intro a
    simp only [mem_sameKey, and_assoc]
    rfl
  have hcomplete : (∃ alldups, duplicates objects self excludes = .ok alldups ∧
      ∀ a ∈ genActions objects self excludes,
        (∃ dups, (actionKey objects a, dups) ∈ alldups ∧ a ∈ dups) ↔
        ∃ other ∈ genActions objects self excludes, actionKey objects other = actionKey objects a ∧
          (objects.action a).different (objects.action other) = true) ↔
      ∀ a ∈ genActions objects self excludes,
        a ∈ marked (differs objects) (sameKey objects self excludes a) ↔
        ∃ other ∈ sameKey objects self excludes a, differs objects a other = true := by
    constructor
    · rintro ⟨found, hfound, hreported⟩ a ha
      rw [hok, Except.ok.injEq] at hfound
      rw [← hmem a ha, ← hothers, hfound]
      exact hreported a ha
    · intro hreported
      refine ⟨alldups, hok, fun a ha ↦ ?_⟩
      rw [hmem a ha, hothers]
      exact hreported a ha
  rw [hcomplete]
  have hgroups : ∀ a, ((∀ element ∈ sameKey objects self excludes a,
      element ∈ marked (differs objects) (sameKey objects self excludes a) ↔
        ∃ other ∈ sameKey objects self excludes a, differs objects element other = true) ↔
            _) := fun a ↦
    marked_complete_iff (fun first hfirst second hsecond ↦
      different_symm (actionKey_eq_of_mem hfirst hsecond))
      fun first hfirst second hsecond third hthird hab hbc ↦
        different_trans (actionKey_eq_of_mem hfirst hsecond)
          (actionKey_eq_of_mem hsecond hthird) hab hbc
  constructor
  · intro hreported a ha
    refine (hgroups a).mp fun element helement ↦ ?_
    obtain ⟨hselected, hkey⟩ := mem_sameKey.mp helement
    rw [← sameKey_congr hkey]
    exact hreported element hselected
  · intro hcondition a ha
    exact (hgroups a).mpr (hcondition a ha) a (mem_sameKey.mpr ⟨ha, rfl⟩)

/-! ### Three directories -/

theorem nodup_path_mode : ["path".toList, "mode".toList].Nodup := by decide

/-- A directory with a mode. -/
def directoryOf (mode : String) : Action where
  name := "dir".toList
  hash := none
  attrs := [("path".toList, .str "a".toList), ("mode".toList, .str mode.toList)]
  nodup := nodup_path_mode

/-- Two directories of mode 0755, at the addresses 0 and 1, and one of mode 0700. -/
def directories : Objects where
  action address := if address ≤ 1 then directoryOf "0755" else directoryOf "0700"
  slots address h := by
    split_ifs at h <;> cases h
  filled address h := by
    split_ifs at h <;> exact absurd h (by decide)

/-- The first directory differs from the last one, but stands next to one with which it agrees. -/
theorem duplicates_not_complete :
    ¬∃ alldups, duplicates directories (.manifest [0, 1, 2]) [] = .ok alldups ∧
      ∀ a ∈ genActions directories (.manifest [0, 1, 2]) [],
        (∃ dups, (actionKey directories a, dups) ∈ alldups ∧ a ∈ dups) ↔
          ∃ other ∈ genActions directories (.manifest [0, 1, 2]) [],
            actionKey directories other = actionKey directories a ∧
              (directories.action a).different (directories.action other) = true := by
  rintro ⟨alldups, hok, hreported⟩
  obtain ⟨found, hfound, hmem⟩ := duplicates_ok directories (.manifest [0, 1, 2]) []
  rw [hok, Except.ok.injEq] at hfound
  have hselected : 0 ∈ genActions directories (.manifest [0, 1, 2]) [] := by decide
  have hdiffers : (directories.action 0).different (directories.action 2) = true := by decide
  have hmarked :=
    (hmem 0 hselected).mp (hfound ▸ (hreported 0 hselected).mpr ⟨2, by decide, by decide, hdiffers⟩)
  exact absurd hmarked (by decide)

end

end Userland.Pkg.Difference
