import Userland.Pkg.Manifest.Difference

/-!
# The transition between two manifests

The lists of `Manifest.difference` turn the selected actions of the origin into those of the
destination (`Transition`), if every key attribute has one value, and if an action without a key
attribute that was not changed is one object in both manifests (`difference_transition_iff`). An
action that was read a second time from the text of a manifest is another object, so that an
unchanged action without a key attribute is both removed and added.

The shortcuts for an `EmptyCachedManifest` list the same actions as the dictionaries exactly if no
two selected actions of the other manifest share a key and every key attribute has one value
(`shortcuts_agree_iff`).
-/

set_option autoImplicit false
set_option relaxedAutoImplicit false

namespace Userland.Pkg.Difference

open Actions
open Library Library.Keyed

variable (objects : Objects)

/-! ### What a difference should do -/

/-- The actions of the origin after the changes. -/
def ManifestDifference.apply (difference : ManifestDifference) (origin : List ℕ) : List ℕ :=
  ((origin.filter fun a ↦ !difference.removed.contains a).map fun a ↦
    (difference.changed.lookup a).getD a) ++ difference.added

/-- Actions of one type that are not `different`. -/
def Same (first second : ℕ) : Prop :=
  (objects.action first).name = (objects.action second).name ∧
    (objects.action first).different (objects.action second) = false

/-- The lists of a difference turn the actions of an origin into those of a destination. -/
structure Transition (origin dest : List ℕ) (difference : ManifestDifference) : Prop where
  nodup : difference.added.Nodup ∧ difference.changed.Nodup ∧ difference.removed.Nodup
  disjoint : difference.removed.Disjoint difference.added
  apart : ∀ pair ∈ difference.changed, (pair.1 ∉ difference.added ∧ pair.1 ∉ difference.removed) ∧
    pair.2 ∉ difference.added ∧ pair.2 ∉ difference.removed
  sources : difference.removed ⊆ origin ∧ ∀ pair ∈ difference.changed, pair.1 ∈ origin
  reached : ∃ target, target.Perm dest ∧ (difference.apply origin).Forall₂ (Same objects) target
  keys : ∀ pair ∈ difference.changed, actionKey objects pair.1 = actionKey objects pair.2
  unchanged : ∀ a ∈ origin, ∀ b ∈ dest, Same objects a b →
    (objects.action a).name ≠ "license".toList →
      (a ∉ difference.removed ∧ ∀ pair ∈ difference.changed, pair.1 ≠ a) ∧
        b ∉ difference.added ∧ ∀ pair ∈ difference.changed, pair.2 ≠ b

/-- An action without a key attribute that was not changed is in both manifests. -/
def Recognized (origin dest : List ℕ) : Prop :=
  ∀ a ∈ origin, ∀ b ∈ dest, Same objects a b → (objects.action a).name ≠ "license".toList →
    (objects.action a).key = none → a ∈ dest ∧ b ∈ origin

/-! ### Keys -/

variable {first second : ℕ}

theorem name_eq_of_actionKey_eq (h : actionKey objects first = actionKey objects second) :
    (objects.action first).name = (objects.action second).name :=
  congrArg Prod.fst h

theorem actionKey_of_key_eq_none {a : ℕ} (h : (objects.action a).key = none) :
    actionKey objects a = ((objects.action a).name, .identity a) := by
  rw [actionKey, h]

/-- An identity is the key of one action only. -/
theorem eq_of_identity (h : (objects.action first).key = none)
    (heq : actionKey objects first = actionKey objects second) : first = second := by
  rw [actionKey_of_key_eq_none objects h, actionKey] at heq
  have hvalue := congrArg Prod.snd heq
  cases hkey : (objects.action second).key with
  | none =>
    rw [hkey] at hvalue
    exact KeyValue.identity.inj hvalue
  | some value =>
    rw [hkey] at hvalue
    cases hvalue

theorem sameAttrs_of_different_eq_false {self other : Action} (h : self.different other = false) :
    ∃ same : AttrValue → AttrValue → Bool, self.sameAttrs same other = true ∧
      ∀ value text, same value (.str text) = true ↔ value = .str text := by
  unfold Action.different at h
  split_ifs at h
  · refine ⟨(· == ·), (Bool.not_eq_false' _).mp h, fun value text ↦ beq_iff_eq⟩
  · refine ⟨Action.sameValue, (Bool.and_eq_true_iff.mp ((Bool.not_eq_false' _).mp h)).1,
      fun value text ↦ ?_⟩
    cases value <;> exact beq_iff_eq

theorem get_of_sameAttrs {self other : Action} {same : AttrValue → AttrValue → Bool}
    (h : self.sameAttrs same other = true) (name : List Char) :
    (self.get name = none ∧ other.get name = none) ∨
      ∃ value value', self.get name = some value ∧ other.get name = some value' ∧
        same value value' = true := by
  obtain ⟨hkeys, hvalues⟩ := Bool.and_eq_true_iff.mp h
  cases hother : other.get name with
  | none =>
    refine Or.inl ⟨?_, rfl⟩
    cases hself : self.get name with
    | none => rfl
    | some value =>
      have hmem := List.all_eq_true.mp hkeys name (List.mem_map_of_mem (Dict.mem_of_lookup hself))
      obtain ⟨attr, hattr, rfl⟩ := List.mem_map.mp (List.contains_iff_mem.mp hmem)
      exact absurd rfl (List.lookup_eq_none_iff.mp hother attr hattr |> bne_iff_ne.mp)
  | some value' =>
    have hvalue := List.all_eq_true.mp hvalues _ (Dict.mem_of_lookup hother)
    cases hself : self.get name with
    | none => simp only [hself, Bool.false_eq_true] at hvalue
    | some value =>
      simp only [hself] at hvalue
      exact Or.inr ⟨value, value', rfl, rfl, hvalue⟩

/-- Actions of one type that are not different have the same key attribute, if it has one value. -/
theorem actionKey_eq_of_same (h : Same objects first second)
    (hhash : (actionKey objects second).hashable = true)
    (hkey : (objects.action first).key ≠ none) :
    actionKey objects first = actionKey objects second := by
  obtain ⟨hname, hsame⟩ := h
  obtain ⟨same, hattrs, hstr⟩ := sameAttrs_of_different_eq_false hsame
  unfold Action.key at hkey
  cases hattr : keyAttr (objects.action first).name with
  | none => simp [hattr] at hkey
  | some attr =>
    have hvalue : (objects.action first).get attr ≠ none := by simpa [hattr] using hkey
    rcases get_of_sameAttrs hattrs attr with ⟨hnone, -⟩ | ⟨value, value', hfirst, hsecond, heq⟩
    · exact absurd hnone hvalue
    · have hkey' : (objects.action second).key = some value' := by
        rw [Action.key, ← hname, hattr, Option.bind_some, hsecond]
      rw [actionKey, hkey'] at hhash
      cases value' with
      | list values => cases hhash
      | str text =>
        obtain rfl := (hstr value text).mp heq
        rw [actionKey, actionKey, hkey', hname, Action.key, ← hname, hattr,
          Option.bind_some, hfirst]

theorem key_eq_none_of_same (h : Same objects first second)
    (hkey : (objects.action first).key = none) : (objects.action second).key = none := by
  obtain ⟨hname, hsame⟩ := h
  obtain ⟨same, hattrs, -⟩ := sameAttrs_of_different_eq_false hsame
  unfold Action.key at hkey ⊢
  rw [← hname]
  cases hattr : keyAttr (objects.action first).name with
  | none => rfl
  | some attr =>
    rw [hattr, Option.bind_some] at hkey
    rcases get_of_sameAttrs hattrs attr with ⟨-, hnone⟩ | ⟨value, value', hfirst, -⟩
    · exact hnone
    · rw [hkey] at hfirst
      cases hfirst

theorem sameAttrs_self {same : AttrValue → AttrValue → Bool}
    (hsame : ∀ value, same value value = true)
    (self : Action) : self.sameAttrs same self = true := by
  refine Bool.and_eq_true_iff.mpr ⟨?_, List.all_eq_true.mpr fun attr hattr ↦ ?_⟩
  · exact List.all_eq_true.mpr fun key hkey ↦ List.contains_iff_mem.mpr hkey
  · have hget : self.get attr.1 = some attr.2 := (Dict.lookup_eq_some_iff_mem self.nodup).mpr hattr
    rw [hget]
    exact hsame attr.2

theorem different_self (self : Action) : self.different self = false := by
  have hvalue : ∀ value, Action.sameValue value value = true := by
    intro value
    cases value with
    | str text => exact beq_self_eq_true _
    | list values => exact List.isPerm_iff.mpr (List.Perm.refl values)
  unfold Action.different
  split_ifs
  · exact (Bool.not_eq_false' _).mpr (sameAttrs_self beq_self_eq_true self)
  · rw [sameAttrs_self hvalue self]
    simp

theorem Same.refl (a : ℕ) : Same objects a a :=
  ⟨rfl, different_self _⟩

/-! ### Pairs that are compared -/

/-- The assertion about hashes never fails for two actions with one key. -/
theorem checkedDifferent_of_actionKey_eq (h : actionKey objects first = actionKey objects second) :
    checkedDifferent (objects.action first) (objects.action second) =
      .ok ((objects.action first).different (objects.action second)) := by
  refine if_neg fun hfails ↦ ?_
  obtain ⟨-, -, hself, hother⟩ := hfails
  have hname := name_eq_of_actionKey_eq objects h
  have hslot := objects.slots first hself
  by_cases hsignature : (objects.action first).name = "signature".toList
  · have hnone : (objects.action first).key = none := by
      rw [Action.key, hsignature]
      rfl
    obtain rfl := eq_of_identity objects hnone h
    rw [hother] at hself
    cases hself
  · rw [hname, List.mem_cons, List.mem_cons, List.mem_singleton] at hslot
    have hfilled := objects.filled second (by
      rw [List.mem_cons, List.mem_singleton]
      exact hslot.imp_right fun h ↦ h.resolve_right (hname ▸ hsignature))
    rw [hother] at hfilled
    cases hfilled

/-- The pairs that are listed as changed. -/
def isChanged (pair : ℕ × ℕ) : Bool :=
  (objects.action pair.1).different (objects.action pair.2) ||
    (objects.action pair.1).name = "license".toList

theorem changedPairs_eq {pairs : List (ℕ × ℕ)}
    (h : ∀ pair ∈ pairs, actionKey objects pair.1 = actionKey objects pair.2) :
    changedPairs objects pairs = .ok (pairs.filter (isChanged objects)) := by
  induction pairs with
  | nil => rfl
  | cons pair pairs ih =>
    rw [List.forall_mem_cons] at h
    rw [changedPairs, checkedDifferent_of_actionKey_eq objects h.1, ih h.2, List.filter_cons]
    rfl

/-! ### The dictionaries -/

/-- The pairs of actions with a common key. -/
def matched (origin dest : List ℕ) : List (ℕ × ℕ) :=
  origin.filterMap fun a ↦ ((index (actionKey objects) dest).lookup (actionKey objects a)).map
    fun b ↦ (a, b)

/-- Every key of some actions has a hash. -/
def Hashable (actions : List ℕ) : Prop :=
  ∀ a ∈ actions, (actionKey objects a).hashable = true

theorem actionDict_ok_iff {actions : List ℕ} {dict : List (ActionKey × ℕ)} :
    actionDict objects actions = .ok dict ↔
      Hashable objects actions ∧ dict = index (actionKey objects) actions := by
  unfold actionDict Hashable
  split_ifs with hhash
  · exact ⟨fun h ↦ ⟨List.all_eq_true.mp hhash, (Except.ok.inj h).symm⟩, fun h ↦ by rw [h.2]⟩
  · exact ⟨fun h ↦ (nomatch h), fun h ↦ absurd (List.all_eq_true.mpr h.1) hhash⟩

variable {origin dest : List ℕ}

theorem mem_matched (h : (dest.map (actionKey objects)).Nodup) {pair : ℕ × ℕ} :
    pair ∈ matched objects origin dest ↔ pair.1 ∈ origin ∧ pair.2 ∈ dest ∧
      actionKey objects pair.1 = actionKey objects pair.2 := by
  rw [matched, List.mem_filterMap]
  constructor
  · rintro ⟨a, ha, heq⟩
    obtain ⟨b, hlookup, rfl⟩ := Option.map_eq_some_iff.mp heq
    obtain ⟨hb, hkey⟩ := (lookup_index_eq_some_iff _ h).mp hlookup
    exact ⟨ha, hb, hkey.symm⟩
  · rintro ⟨ha, hb, hkey⟩
    exact ⟨pair.1, ha, Option.map_eq_some_iff.mpr
      ⟨pair.2, (lookup_index_eq_some_iff _ h).mpr ⟨hb, hkey.symm⟩, rfl⟩⟩

/-- The difference by the dictionaries of the actions of two manifests. -/
def keyedDifference (origin dest : List ℕ) : ManifestDifference :=
  ⟨(fresh (actionKey objects) origin dest).insertionSort (Precedes objects),
    ((matched objects origin dest).filter (isChanged objects)).insertionSort
      fun first second ↦ Precedes objects first.2 second.2,
    (fresh (actionKey objects) dest origin).insertionSort fun first second ↦
      Precedes objects second first⟩

theorem map_snd_filter_index (horigin : (origin.map (actionKey objects)).Nodup)
    (hdest : (dest.map (actionKey objects)).Nodup) :
    ((index (actionKey objects) dest).filter fun entry ↦
      !((index (actionKey objects) origin).map Prod.fst).contains entry.1).map Prod.snd =
      fresh (actionKey objects) origin dest := by
  rw [index_of_nodup _ horigin, index_of_nodup _ hdest, List.filter_map, List.map_map, List.map_map]
  exact List.map_id _

/-- The general path of `Manifest.difference`. -/
theorem difference_manifest_iff (originExclude selfExclude : List (Action → Bool))
    {selected selected' : List ℕ}
    (hselected : genActions objects (.manifest origin) originExclude = selected)
    (hselected' : genActions objects (.manifest dest) selfExclude = selected')
    (horigin : (selected.map (actionKey objects)).Nodup)
    (hdest : (selected'.map (actionKey objects)).Nodup) {found : ManifestDifference} :
    difference objects (.manifest dest) (.manifest origin) originExclude selfExclude = .ok found ↔
      (Hashable objects selected ∧ Hashable objects selected') ∧
        found = keyedDifference objects selected selected' := by
  have hpairs : ∀ pair ∈ matched objects selected selected',
      actionKey objects pair.1 = actionKey objects pair.2 := fun pair hpair ↦
    ((mem_matched objects hdest).mp hpair).2.2
  have hmatched : ((index (actionKey objects) selected).filterMap fun entry ↦
      ((index (actionKey objects) selected').lookup entry.1).map fun dest ↦ (entry.2, dest)) =
      matched objects selected selected' := by
    rw [index_of_nodup _ horigin, List.filterMap_map]
    rfl
  have hrun : Hashable objects selected → Hashable objects selected' →
      difference objects (.manifest dest) (.manifest origin) originExclude selfExclude =
        .ok (keyedDifference objects selected selected') := by
    intro hhash hhash'
    rw [difference, hselected, hselected', (actionDict_ok_iff objects).mpr ⟨hhash', rfl⟩,
      (actionDict_ok_iff objects).mpr ⟨hhash, rfl⟩]
    simp only [bind, Except.bind, pure, Except.pure, map_snd_filter_index objects horigin hdest,
      map_snd_filter_index objects hdest horigin, hmatched, changedPairs_eq objects hpairs]
    rfl
  constructor
  · intro h
    have hhash : Hashable objects selected ∧ Hashable objects selected' := by
      rw [difference, hselected, hselected'] at h
      cases hsdict : actionDict objects selected' with
      | error error => rw [hsdict] at h; cases h
      | ok sdict =>
        cases hodict : actionDict objects selected with
        | error error => rw [hsdict, hodict] at h; cases h
        | ok odict =>
          exact ⟨((actionDict_ok_iff objects).mp hodict).1,
            ((actionDict_ok_iff objects).mp hsdict).1⟩
    rw [hrun hhash.1 hhash.2] at h
    exact ⟨hhash, (Except.ok.inj h).symm⟩
  · rintro ⟨⟨hhash, hhash'⟩, rfl⟩
    exact hrun hhash hhash'

/-! ### The changes lead to the destination -/

theorem nodup_matched (horigin : (origin.map (actionKey objects)).Nodup) :
    ((matched objects origin dest).map Prod.fst).Nodup := by
  have hsub : ((matched objects origin dest).map Prod.fst).Sublist (origin.map id) := by
    rw [matched, List.map_filterMap]
    refine sublist_filterMap_of_eq fun a _ found hfound ↦ ?_
    obtain ⟨pair, hpair, rfl⟩ := Option.map_eq_some_iff.mp hfound
    obtain ⟨b, -, rfl⟩ := Option.map_eq_some_iff.mp hpair
    rfl
  rw [List.map_id] at hsub
  exact (List.Nodup.of_map _ horigin).sublist hsub

variable {origin dest : List ℕ}

/-- Where the pairs with a common key lead. -/
theorem same_lookup_changed (horigin : (origin.map (actionKey objects)).Nodup)
    (hdest : (dest.map (actionKey objects)).Nodup) {a b : ℕ} (ha : a ∈ origin) (hb : b ∈ dest)
    (hkey : actionKey objects a = actionKey objects b) :
    Same objects (((keyedDifference objects origin dest).changed.lookup a).getD a) b := by
  have hnodup : ((keyedDifference objects origin dest).changed.map Prod.fst).Nodup :=
    ((List.perm_insertionSort _ _).map Prod.fst).nodup_iff.mpr
      ((nodup_matched objects horigin).sublist (List.filter_sublist.map _))
  have hmem : (a, b) ∈ (keyedDifference objects origin dest).changed ↔
      isChanged objects (a, b) = true := by
    rw [keyedDifference, List.mem_insertionSort, List.mem_filter, mem_matched objects hdest]
    exact and_iff_right ⟨ha, hb, hkey⟩
  by_cases hchanged : isChanged objects (a, b) = true
  · rw [(Dict.lookup_eq_some_iff_mem hnodup).mpr (hmem.mpr hchanged)]
    exact Same.refl objects b
  · have hnone : (keyedDifference objects origin dest).changed.lookup a = none := by
      refine Option.eq_none_iff_forall_ne_some.mpr fun c hc ↦ ?_
      have hpair := (Dict.lookup_eq_some_iff_mem hnodup).mp hc
      rw [keyedDifference, List.mem_insertionSort, List.mem_filter,
        mem_matched objects hdest] at hpair
      obtain rfl := List.inj_on_of_nodup_map hdest hb hpair.1.2.1 (hkey.symm.trans hpair.1.2.2)
      exact hchanged hpair.2
    rw [hnone]
    refine ⟨name_eq_of_actionKey_eq objects hkey, ?_⟩
    exact (Bool.or_eq_false_iff.mp (Bool.eq_false_of_not_eq_true hchanged)).1

theorem reached_keyedDifference (horigin : (origin.map (actionKey objects)).Nodup)
    (hdest : (dest.map (actionKey objects)).Nodup) :
    ∃ target, target.Perm dest ∧
      ((keyedDifference objects origin dest).apply origin).Forall₂ (Same objects) target := by
  refine ⟨partners (actionKey objects) origin dest ++ (keyedDifference objects origin dest).added,
    ?_, ?_⟩
  · exact ((List.perm_insertionSort _ _).append_left _).trans
      (perm_partners_append_fresh _ horigin hdest)
  · refine List.rel_append (forall₂_map_filter_filterMap fun a ha ↦ ?_)
      (List.forall₂_same.mpr fun a _ ↦ Same.refl objects a)
    have hremoved : a ∈ (keyedDifference objects origin dest).removed ↔
        actionKey objects a ∉ dest.map (actionKey objects) := by
      rw [keyedDifference, List.mem_insertionSort, mem_fresh]
      exact and_iff_right ha
    cases hlookup : (index (actionKey objects) dest).lookup (actionKey objects a) with
    | none =>
      refine Or.inl ⟨?_, rfl⟩
      have hmem : a ∈ (keyedDifference objects origin dest).removed := by
        rw [hremoved, ← mem_keys_index]
        intro hmem
        obtain ⟨entry, hentry, heq⟩ := List.mem_map.mp hmem
        exact absurd heq.symm (bne_iff_ne.mp (List.lookup_eq_none_iff.mp hlookup entry hentry))
      simpa using hmem
    | some b =>
      obtain ⟨hb, hkey⟩ := (lookup_index_eq_some_iff _ hdest).mp hlookup
      refine Or.inr ⟨?_, b, rfl, same_lookup_changed objects horigin hdest ha hb hkey.symm⟩
      have hmem : a ∉ (keyedDifference objects origin dest).removed := by
        rw [hremoved, not_not, ← hkey]
        exact List.mem_map_of_mem hb
      simpa using hmem

/-! ### Transitions -/

theorem mem_added {a : ℕ} : a ∈ (keyedDifference objects origin dest).added ↔
    a ∈ dest ∧ actionKey objects a ∉ origin.map (actionKey objects) := by
  rw [keyedDifference, List.mem_insertionSort, mem_fresh]

theorem mem_removed {a : ℕ} : a ∈ (keyedDifference objects origin dest).removed ↔
    a ∈ origin ∧ actionKey objects a ∉ dest.map (actionKey objects) := by
  rw [keyedDifference, List.mem_insertionSort, mem_fresh]

theorem mem_changed (hdest : (dest.map (actionKey objects)).Nodup) {pair : ℕ × ℕ} :
    pair ∈ (keyedDifference objects origin dest).changed ↔
      (pair.1 ∈ origin ∧ pair.2 ∈ dest ∧ actionKey objects pair.1 = actionKey objects pair.2) ∧
        isChanged objects pair = true := by
  rw [keyedDifference, List.mem_insertionSort, List.mem_filter, mem_matched objects hdest]

/-- An unchanged action is in no list if it has the key of its partner. -/
theorem notMem_of_same (horigin : (origin.map (actionKey objects)).Nodup)
    (hdest : (dest.map (actionKey objects)).Nodup) {a b : ℕ} (ha : a ∈ origin) (hb : b ∈ dest)
    (hkey : actionKey objects a = actionKey objects b) (hsame : Same objects a b)
    (hlicense : (objects.action a).name ≠ "license".toList) :
    (a ∉ (keyedDifference objects origin dest).removed ∧
        ∀ pair ∈ (keyedDifference objects origin dest).changed, pair.1 ≠ a) ∧
      b ∉ (keyedDifference objects origin dest).added ∧
        ∀ pair ∈ (keyedDifference objects origin dest).changed, pair.2 ≠ b := by
  have hunchanged : isChanged objects (a, b) = false :=
    Bool.or_eq_false_iff.mpr ⟨hsame.2, decide_eq_false hlicense⟩
  refine ⟨⟨fun hmem ↦ ?_, ?_⟩, fun hmem ↦ ?_, ?_⟩
  · exact ((mem_removed objects).mp hmem).2 (hkey ▸ List.mem_map_of_mem hb)
  · rintro ⟨first, second⟩ hpair rfl
    obtain ⟨⟨-, hsecond, heq⟩, hchanged⟩ := (mem_changed objects hdest).mp hpair
    obtain rfl := List.inj_on_of_nodup_map hdest hsecond hb (heq.symm.trans hkey)
    rw [hunchanged] at hchanged
    cases hchanged
  · exact ((mem_added objects).mp hmem).2 (hkey ▸ List.mem_map_of_mem ha)
  · rintro ⟨first, second⟩ hpair rfl
    obtain ⟨⟨hfirst, -, heq⟩, hchanged⟩ := (mem_changed objects hdest).mp hpair
    obtain rfl := List.inj_on_of_nodup_map horigin hfirst ha (heq.trans hkey.symm)
    rw [hunchanged] at hchanged
    cases hchanged

/-- The difference by the dictionaries is a transition exactly if unchanged actions are recognized.
-/
theorem transition_keyedDifference_iff (horigin : (origin.map (actionKey objects)).Nodup)
    (hdest : (dest.map (actionKey objects)).Nodup) (hhash : Hashable objects dest) :
    Transition objects origin dest (keyedDifference objects origin dest) ↔
      Recognized objects origin dest := by
  constructor
  · intro h a ha b hb hsame hlicense hnone
    obtain ⟨⟨hremoved, -⟩, hadded, -⟩ := h.unchanged a ha b hb hsame hlicense
    have hb' := key_eq_none_of_same objects hsame hnone
    constructor
    · have hmem : actionKey objects a ∈ dest.map (actionKey objects) := by
        by_contra hmem
        exact hremoved ((mem_removed objects).mpr ⟨ha, hmem⟩)
      obtain ⟨other, hother, heq⟩ := List.mem_map.mp hmem
      rwa [eq_of_identity objects hnone heq.symm]
    · have hmem : actionKey objects b ∈ origin.map (actionKey objects) := by
        by_contra hmem
        exact hadded ((mem_added objects).mpr ⟨hb, hmem⟩)
      obtain ⟨other, hother, heq⟩ := List.mem_map.mp hmem
      rwa [eq_of_identity objects hb' heq.symm]
  · intro h
    have hnodup := List.Nodup.of_map _ horigin
    have hnodup' := List.Nodup.of_map _ hdest
    refine ⟨⟨?_, ?_, ?_⟩, ?_, ?_, ⟨?_, ?_⟩, reached_keyedDifference objects horigin hdest, ?_, ?_⟩
    · exact (List.perm_insertionSort _ _).nodup_iff.mpr (hnodup'.filter _)
    · exact (List.perm_insertionSort _ _).nodup_iff.mpr
        ((List.Nodup.of_map _ (nodup_matched objects horigin)).filter _)
    · exact (List.perm_insertionSort _ _).nodup_iff.mpr (hnodup.filter _)
    · intro a hremoved hadded
      exact ((mem_removed objects).mp hremoved).2
        (List.mem_map_of_mem ((mem_added objects).mp hadded).1)
    · intro pair hpair
      obtain ⟨⟨hfirst, hsecond, heq⟩, -⟩ := (mem_changed objects hdest).mp hpair
      have horiginKey := List.mem_map_of_mem (f := actionKey objects) hfirst
      have hdestKey := List.mem_map_of_mem (f := actionKey objects) hsecond
      refine ⟨⟨fun hmem ↦ ?_, fun hmem ↦ ?_⟩, fun hmem ↦ ?_, fun hmem ↦ ?_⟩
      · exact ((mem_added objects).mp hmem).2 horiginKey
      · exact ((mem_removed objects).mp hmem).2 (heq ▸ hdestKey)
      · exact ((mem_added objects).mp hmem).2 (heq ▸ horiginKey)
      · exact ((mem_removed objects).mp hmem).2 hdestKey
    · exact fun a ha ↦ ((mem_removed objects).mp ha).1
    · exact fun pair hpair ↦ ((mem_changed objects hdest).mp hpair).1.1
    · exact fun pair hpair ↦ ((mem_changed objects hdest).mp hpair).1.2.2
    · intro a ha b hb hsame hlicense
      by_cases hnone : (objects.action a).key = none
      · -- both are found under their own identities
        obtain ⟨ha', hb'⟩ := h a ha b hb hsame hlicense hnone
        have hlicense' : (objects.action b).name ≠ "license".toList := hsame.1 ▸ hlicense
        exact ⟨(notMem_of_same objects horigin hdest ha ha' rfl (Same.refl objects a) hlicense).1,
          (notMem_of_same objects horigin hdest hb' hb rfl (Same.refl objects b) hlicense').2⟩
      · exact notMem_of_same objects horigin hdest ha hb
          (actionKey_eq_of_same objects hsame (hhash b hb) hnone) hsame hlicense

theorem transition_remove_all (h : origin.Nodup) :
    Transition objects origin [] ⟨[], [], origin⟩ where
  nodup := ⟨List.nodup_nil, List.nodup_nil, h⟩
  disjoint := List.disjoint_nil_right origin
  apart := fun _ hpair ↦ absurd hpair List.not_mem_nil
  sources := ⟨List.Subset.refl origin, fun _ hpair ↦ absurd hpair List.not_mem_nil⟩
  reached := by
    refine ⟨[], List.Perm.refl [], ?_⟩
    have hnone : (origin.filter fun a ↦ !origin.contains a) = [] := by
      refine List.filter_eq_nil_iff.mpr fun a ha ↦ ?_
      simpa using ha
    rw [ManifestDifference.apply, hnone]
    exact List.Forall₂.nil
  keys := fun _ hpair ↦ absurd hpair List.not_mem_nil
  unchanged := fun _ _ _ hb ↦ absurd hb List.not_mem_nil

theorem transition_add_all (h : dest.Nodup) : Transition objects [] dest ⟨dest, [], []⟩ where
  nodup := ⟨h, List.nodup_nil, List.nodup_nil⟩
  disjoint := List.disjoint_nil_left dest
  apart := fun _ hpair ↦ absurd hpair List.not_mem_nil
  sources := ⟨List.Subset.refl [], fun _ hpair ↦ absurd hpair List.not_mem_nil⟩
  reached := ⟨dest, List.Perm.refl dest, List.forall₂_same.mpr fun a _ ↦ Same.refl objects a⟩
  keys := fun _ hpair ↦ absurd hpair List.not_mem_nil
  unchanged := fun _ ha ↦ absurd ha List.not_mem_nil

/-- One of the manifests is an `EmptyCachedManifest`. -/
def Shortcut (self origin : Manifest) : Prop :=
  self = .emptyCachedManifest ∨ origin = .emptyCachedManifest

/-- A difference is a transition between the selected actions exactly if the keys have hashes, where
there is no shortcut, and if unchanged actions without a key attribute are recognized.

Assumes: no two selected actions of a manifest share the type and the key. -/
theorem difference_transition_iff (self origin : Manifest)
    (originExclude selfExclude : List (Action → Bool))
    (horigin : ((genActions objects origin originExclude).map (actionKey objects)).Nodup)
    (hself : ((genActions objects self selfExclude).map (actionKey objects)).Nodup) :
    (∃ found, difference objects self origin originExclude selfExclude = .ok found ∧
        Transition objects (genActions objects origin originExclude)
        (genActions objects self selfExclude)
          found) ↔
      (Shortcut self origin ∨ Hashable objects (genActions objects origin originExclude) ∧
        Hashable objects (genActions objects self selfExclude)) ∧
        Recognized objects (genActions objects origin originExclude)
          (genActions objects self selfExclude) := by
  match self, origin with
  | .emptyCachedManifest, origin =>
    refine iff_of_true ⟨_, rfl, transition_remove_all objects (List.Nodup.of_map _ horigin)⟩
      ⟨Or.inl (Or.inl rfl), fun _ _ _ hb ↦ absurd hb List.not_mem_nil⟩
  | .manifest actions, .emptyCachedManifest =>
    refine iff_of_true ⟨_, rfl, transition_add_all objects (List.Nodup.of_map _ hself)⟩
      ⟨Or.inl (Or.inr rfl), fun _ ha ↦ absurd ha List.not_mem_nil⟩
  | .manifest actions, .manifest actions' =>
    have hshortcut : ¬ Shortcut (.manifest actions) (.manifest actions') := by
      rintro (h | h) <;> cases h
    rw [or_iff_right hshortcut]
    constructor
    · rintro ⟨found, hfound, htransition⟩
      obtain ⟨hhash, rfl⟩ := (difference_manifest_iff objects _ _ rfl rfl horigin hself).mp hfound
      exact ⟨hhash, (transition_keyedDifference_iff objects horigin hself hhash.2).mp htransition⟩
    · rintro ⟨hhash, hrecognized⟩
      exact ⟨_, (difference_manifest_iff objects _ _ rfl rfl horigin hself).mpr ⟨hhash, rfl⟩,
        (transition_keyedDifference_iff objects horigin hself hhash.2).mpr hrecognized⟩

/-! ### Actions without a key attribute, and with two values of it -/

/-- A signature. -/
def signature : Action where
  name := "signature".toList
  hash := none
  attrs := [("algorithm".toList, .str "sha256".toList)]
  nodup := by decide

/-- A driver with two names. -/
def aliasedDriver : Action where
  name := "driver".toList
  hash := none
  attrs := [("name".toList, .list ["bge".toList, "bnx".toList])]
  nodup := by decide

/-- Two copies of the signature and of the driver. -/
def copies : Objects where
  action address := if address < 2 then signature else aliasedDriver
  slots address h := by
    split_ifs at h <;> cases h
  filled address h := by
    split_ifs at h
    · exact absurd h (by decide)
    · exact absurd h (by decide)

/-- A directory. -/
def directory (path mode : String) : Action where
  name := "dir".toList
  hash := none
  attrs := [("path".toList, .str path.toList), ("mode".toList, .str mode.toList)]
  nodup := by
    show ["path".toList, "mode".toList].Nodup
    decide

/-- The signature, a directory with two modes, one that goes and one that comes. -/
def upgrade : Objects where
  action
    | 0 => signature
    | 1 => directory "usr" "0755"
    | 2 => directory "usr" "0700"
    | 3 => directory "old" "0755"
    | _ => directory "new" "0755"
  slots address h := by
    split at h <;> cases h
  filled address h := by
    split at h <;> exact absurd h (by decide)

theorem difference_transition_upgrade :
    Transition upgrade [0, 1, 3] [0, 2, 4] ⟨[4], [(1, 2)], [3]⟩ := by
  have hfound : difference upgrade (.manifest [0, 2, 4]) (.manifest [0, 1, 3]) [] [] =
      .ok ⟨[4], [(1, 2)], [3]⟩ := by
    decide
  have hrecognized : Recognized upgrade [0, 1, 3] [0, 2, 4] := by
    intro a ha b hb hsame _ hnone
    simp only [List.mem_cons, List.not_mem_nil, or_false] at ha hb
    rcases ha with rfl | rfl | rfl
    · rcases hb with rfl | rfl | rfl
      · decide
      · exact absurd hsame.1 (by decide)
      · exact absurd hsame.1 (by decide)
    · cases hnone
    · cases hnone
  obtain ⟨found, hdifference, htransition⟩ :=
    (difference_transition_iff upgrade (.manifest [0, 2, 4])
    (.manifest [0, 1, 3]) [] [] (by decide) (by decide)).mpr
    ⟨Or.inr ⟨by unfold Hashable; decide, by unfold Hashable; decide⟩, hrecognized⟩
  obtain rfl := Except.ok.inj (hfound.symm.trans hdifference)
  exact htransition

/-- A signature that was read twice is removed and added, and a driver with two names has no
difference. -/
theorem difference_not_transition :
    (([0].map (actionKey copies)).Nodup ∧ ([1].map (actionKey copies)).Nodup ∧
      (copies.action 0) = copies.action 1 ∧
      difference copies (.manifest [1]) (.manifest [0]) [] [] = .ok ⟨[1], [], [0]⟩ ∧
      ¬ Transition copies [0] [1] ⟨[1], [], [0]⟩) ∧
      ([2].map (actionKey copies)).Nodup ∧
      difference copies (.manifest [2]) (.manifest []) [] [] = .error .typeError := by
  refine ⟨⟨by decide, by decide, rfl, by decide, fun h ↦ ?_⟩, by decide, by decide⟩
  exact (h.unchanged 0 (by decide) 1 (by decide) ⟨rfl, by decide⟩ (by decide)).1.1 (by decide)

/-! ### The shortcuts -/

/-- Two differences list the same actions. -/
def SameActions (first second : ManifestDifference) : Prop :=
  first.added.Perm second.added ∧ first.changed.Perm second.changed ∧
    first.removed.Perm second.removed

theorem perm_map_snd_index_iff {actions : List ℕ} :
    (actions.Perm ((index (actionKey objects) actions).map Prod.snd)) ↔
      (actions.map (actionKey objects)).Nodup := by
  constructor
  · intro h
    rw [← length_index_eq_iff, h.length_eq, List.length_map]
  · intro h
    rw [index_of_nodup _ h, List.map_map]
    exact (List.map_id actions).symm ▸ List.Perm.refl _

theorem difference_from_nothing (actions : List ℕ)
    (originExclude selfExclude : List (Action → Bool))
    {selected : List ℕ}
    (hselected : genActions objects (.manifest actions) selfExclude = selected) :
    difference objects (.manifest actions) (.manifest []) originExclude selfExclude =
      (actionDict objects selected).map fun dict ↦
        ⟨(dict.map Prod.snd).insertionSort (Precedes objects), [], []⟩ := by
  rw [difference, hselected]
  cases actionDict objects selected with
  | error error => rfl
  | ok dict =>
    simp [actionDict, genActions, Manifest.actions, index, bind, Except.bind, pure, Except.pure,
      Except.map, changedPairs, List.filter_true]

theorem difference_to_nothing (actions : List ℕ) (originExclude selfExclude : List (Action → Bool))
    {selected : List ℕ}
    (hselected : genActions objects (.manifest actions) originExclude = selected) :
    difference objects (.manifest []) (.manifest actions) originExclude selfExclude =
      (actionDict objects selected).map fun dict ↦
        ⟨[], [], (dict.map Prod.snd).insertionSort fun first second ↦
          Precedes objects second first⟩ := by
  rw [difference, hselected]
  cases actionDict objects selected with
  | error error => rfl
  | ok dict =>
    simp [actionDict, genActions, Manifest.actions, index, bind, Except.bind, pure, Except.pure,
      Except.map, changedPairs, List.filter_true]

/-- What a dictionary keeps of some actions is all of them. -/
theorem exists_actionDict_perm_iff {actions : List ℕ} :
    (∃ dict, actionDict objects actions = .ok dict ∧ actions.Perm (dict.map Prod.snd)) ↔
      Hashable objects actions ∧ (actions.map (actionKey objects)).Nodup := by
  constructor
  · rintro ⟨dict, hdict, hperm⟩
    obtain ⟨hhash, rfl⟩ := (actionDict_ok_iff objects).mp hdict
    exact ⟨hhash, (perm_map_snd_index_iff objects).mp hperm⟩
  · rintro ⟨hhash, hnodup⟩
    exact ⟨_, (actionDict_ok_iff objects).mpr ⟨hhash, rfl⟩,
      (perm_map_snd_index_iff objects).mpr hnodup⟩

/-- The differences from and to an `EmptyCachedManifest` list the same actions as those from and to
another manifest without actions. -/
def ShortcutsAgree (m : Manifest) (excludes others : List (Action → Bool)) : Prop :=
  (∃ quick general, difference objects m .emptyCachedManifest others excludes = .ok quick ∧
    difference objects m (.manifest []) others excludes = .ok general ∧ SameActions quick general) ∧
  ∃ quick general, difference objects .emptyCachedManifest m excludes others = .ok quick ∧
    difference objects (.manifest []) m excludes others = .ok general ∧ SameActions quick general

/-- The shortcuts for an `EmptyCachedManifest` list what the dictionaries list exactly if every key
has a hash and no two selected actions share one. -/
theorem shortcuts_agree_iff (m : Manifest) (excludes others : List (Action → Bool)) :
    ShortcutsAgree objects m excludes others ↔ Hashable objects (genActions objects m excludes) ∧
        ((genActions objects m excludes).map (actionKey objects)).Nodup := by
  unfold ShortcutsAgree
  match m with
  | .emptyCachedManifest =>
    refine iff_of_true ⟨⟨_, _, rfl, rfl, ?_⟩, _, _, rfl, rfl, ?_⟩ ⟨?_, List.nodup_nil⟩
    · exact ⟨List.Perm.refl _, List.Perm.refl _, List.Perm.refl _⟩
    · exact ⟨List.Perm.refl _, List.Perm.refl _, List.Perm.refl _⟩
    · exact fun _ ha ↦ absurd ha List.not_mem_nil
  | .manifest actions =>
    rw [difference_from_nothing objects actions others excludes rfl,
      difference_to_nothing objects actions excludes others rfl,
        ← exists_actionDict_perm_iff objects]
    constructor
    · rintro ⟨⟨quick, general, hquick, hgeneral, hadded, -, -⟩, -⟩
      obtain rfl := Except.ok.inj hquick
      cases hdict : actionDict objects (genActions objects (.manifest actions) excludes) with
      | error error => rw [hdict] at hgeneral; cases hgeneral
      | ok dict =>
        rw [hdict] at hgeneral
        obtain rfl := Except.ok.inj hgeneral
        exact ⟨dict, rfl, hadded.trans (List.perm_insertionSort _ _)⟩
    · rintro ⟨dict, hdict, hperm⟩
      rw [hdict]
      refine ⟨⟨_, _, rfl, rfl, ?_, List.Perm.refl _, List.Perm.refl _⟩, _, _, rfl, rfl,
        List.Perm.refl _, List.Perm.refl _, ?_⟩
      · exact hperm.trans (List.perm_insertionSort _ _).symm
      · exact hperm.trans (List.perm_insertionSort _ _).symm

/-- Of two files with one path the dictionary keeps the second. -/
def sharedPath : Objects where
  action address :=
    { name := "file".toList
      hash := some "NOHASH".toList
      attrs := [("path".toList, .str "etc/motd".toList),
        ("mode".toList, .str (if address = 0 then "0644".toList else "0444".toList))]
      nodup := (by decide : ["path".toList, "mode".toList].Nodup) }
  slots _ _ := List.mem_cons_self
  filled _ _ := rfl

/-- The shortcuts list both files, and the dictionaries one. -/
theorem shortcuts_disagree :
    difference sharedPath (.manifest [0, 1]) .emptyCachedManifest [] [] = .ok ⟨[0, 1], [], []⟩ ∧
      difference sharedPath (.manifest [0, 1]) (.manifest []) [] [] = .ok ⟨[1], [], []⟩ ∧
      difference sharedPath .emptyCachedManifest (.manifest [0, 1]) [] [] = .ok ⟨[], [], [0, 1]⟩ ∧
      difference sharedPath (.manifest []) (.manifest [0, 1]) [] [] = .ok ⟨[], [], [1]⟩ ∧
      ¬ ShortcutsAgree sharedPath (.manifest [0, 1]) [] [] := by
  have hgeneral : difference sharedPath (.manifest [0, 1]) (.manifest []) [] [] =
      .ok ⟨[1], [], []⟩ := by
    decide
  refine ⟨by decide, hgeneral, by decide, by decide, fun h ↦ ?_⟩
  obtain ⟨⟨quick, general, hquick, hgeneral', hadded, -⟩, -⟩ := h
  obtain rfl := Except.ok.inj hquick
  rw [hgeneral] at hgeneral'
  obtain rfl := Except.ok.inj hgeneral'
  exact absurd hadded.length_eq (by decide)

end Userland.Pkg.Difference
