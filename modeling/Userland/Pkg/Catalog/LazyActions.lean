import Userland.Library.Filters
import Userland.Pkg.Actions.FromStr
import Userland.Pkg.Catalog.EntryActions

/-!
# Stored and lazy actions

A package is added to one catalog with its manifest, and to another one without it, whose
`manifest_cb` returns the manifest. The actions that `get_entry_actions` yields are not always the
same (`agree_iff`). `__gen_actions` lets `set` actions of facets and variants pass that `excludes`
refuses, and `__gen_lazy_actions` drops them. And `group_actions` puts attributes without a locale
into the part of the locale C, while `__gen_lazy_actions` yields them for all locales.

Scope. A text of an action is read back as the action, as `actions.fromstr` promises.
-/

set_option autoImplicit false
set_option relaxedAutoImplicit false

namespace Userland.Pkg.Catalog

open Library Actions

variable {fromstr : List Char → Option Action} {infoNeeded : List Info}
  {excludes : List (Action → Bool)} {locales : List (List Char)}

/-! ### What the generators yield -/

/-- What `__gen_actions` yields of the actions it reads. -/
def keeps (excludes : List (Action → Bool)) (a : Action) : Bool :=
  a.name == "set".toList && named isVarcetName a || Manifest.includeThis excludes a

theorem genActions_eq {actions : List Action} (hread : ∀ a ∈ actions, fromstr a.str = some a)
    (hnamed : Named actions) :
    genActions fromstr excludes false (actions.map Action.str) =
      ⟨actions.filter (keeps excludes), none⟩ := by
  induction actions with
  | nil => rfl
  | cons a rest ih =>
    have hrest := ih (fun b hb ↦ hread b (List.mem_cons_of_mem a hb))
      fun b hb ↦ hnamed b (List.mem_cons_of_mem a hb)
    rw [List.map_cons, genActions, hread a List.mem_cons_self]
    dsimp only
    rw [hrest, List.filter_cons]
    by_cases hset : a.name = "set".toList
    · rw [if_pos hset]
      obtain hdepend | ⟨name, hname⟩ := hnamed a List.mem_cons_self
      · exact absurd (hset.symm.trans hdepend) (by decide)
      · have hkeeps : keeps excludes a =
            (isVarcetName name || Manifest.includeThis excludes a) := by
          rw [keeps, hset, beq_self_eq_true, Bool.true_and, named, hname]
        rw [hname, hkeeps]
        dsimp only
        split_ifs <;> rfl
    · have hkeeps : keeps excludes a = Manifest.includeThis excludes a := by
        rw [keeps, beq_eq_false_iff_ne.mpr hset, Bool.false_and, Bool.false_or]
      rw [if_neg hset, hkeeps]
      split_ifs <;> rfl

theorem yieldEach_eq {yields : Action → Except Error Bool} {test : Action → Bool}
    {actions : List Action} (h : ∀ a ∈ actions, yields a = .ok (test a)) :
    yieldEach yields actions = ⟨actions.filter test, none⟩ := by
  induction actions with
  | nil => rfl
  | cons a rest ih =>
    have hrest := ih fun b hb ↦ h b (List.mem_cons_of_mem a hb)
    rw [yieldEach, h a List.mem_cons_self, List.filter_cons]
    cases test a with
    | true =>
      dsimp only
      rw [hrest]
      rfl
    | false => exact hrest

/-- What `__gen_lazy_actions` yields of the actions that `excludes` lets pass. -/
def lazyTest (infoNeeded : List Info) (locales : List (List Char)) (a : Action) : Bool :=
  if a.name = "depend".toList then infoNeeded.contains .DEPENDENCY
  else named (fun name ↦
    if isDependencyName name then infoNeeded.contains .DEPENDENCY
    else infoNeeded.contains .SUMMARY && a.name == "set".toList && !isFmriName name &&
      match localeOf name with
      | some locale => locales.contains locale
      | none => true) a

variable {a : Action}

theorem lazilyYielded_eq (h : a.name = "depend".toList ∨ ∃ name, attrName a = .ok name) :
    lazilyYielded infoNeeded locales a = .ok (lazyTest infoNeeded locales a) := by
  unfold lazilyYielded lazyTest
  by_cases hdepend : a.name = "depend".toList
  · rw [if_pos hdepend, if_pos hdepend]
  · rw [if_neg hdepend, if_neg hdepend]
    obtain ⟨name, hname⟩ := h.resolve_left hdepend
    rw [named, hname]
    by_cases hdep : isDependencyName name = true
    · simp [hdep, bind, Except.bind, pure, Except.pure]
    · cases hsummary : infoNeeded.contains Info.SUMMARY && a.name == "set".toList <;>
        cases hfmri : isFmriName name <;> cases hlocale : localeOf name <;>
        simp only [hdep, hfmri, hlocale, bind, Except.bind, pure, Except.pure,
          Bool.false_eq_true, if_true, if_false, Bool.not_true, Bool.not_false, Bool.true_and,
          Bool.false_and, Bool.and_true, Bool.and_false]

variable {m : Manifest}

theorem genLazyActions_eq (h : Named (State.storedActions m)) :
    genLazyActions m infoNeeded locales excludes = ⟨(State.storedActions m).filter fun a ↦
      lazyTest infoNeeded locales a && Manifest.includeThis excludes a, none⟩ := by
  have hname : ∀ atype, ∀ a ∈ m.genActionsByType atype, a.name = atype :=
    fun atype a ha ↦ of_decide_eq_true (List.mem_filter.mp ha).2
  unfold genLazyActions genManifestActions
  dsimp only
  cases hdep : infoNeeded.contains Info.DEPENDENCY with
  | true =>
    have htypes : ["depend".toList, "set".toList].flatMap m.genActionsByType =
        State.storedActions m := by
      simp only [List.flatMap_cons, List.flatMap_nil, List.append_nil]
      rfl
    rw [if_pos rfl, htypes, yieldEach_eq fun a ha ↦
      lazilyYielded_eq (h a (List.mem_filter.mp ha).1), List.filter_filter]
  | false =>
    have htypes : ["set".toList].flatMap m.genActionsByType = m.genActionsByType "set".toList := by
      simp only [List.flatMap_cons, List.flatMap_nil, List.append_nil]
    have hnone : (m.genActionsByType "depend".toList).filter (fun a ↦
        lazyTest infoNeeded locales a && Manifest.includeThis excludes a) = [] := by
      rw [List.filter_eq_nil_iff]
      intro a ha
      rw [lazyTest, if_pos (hname _ a ha), hdep, Bool.false_and]
      exact Bool.false_ne_true
    rw [if_neg Bool.false_ne_true, htypes, State.storedActions, List.filter_append, hnone,
      List.nil_append, yieldEach_eq fun a ha ↦ lazilyYielded_eq
        (h a (List.mem_append_right _ (List.mem_filter.mp ha).1)), List.filter_filter]

/-! ### What the parts hold -/

/-- The names of the parts that are asked, apart from the base part. -/
def partNames (infoNeeded : List Info) (locales : List (List Char)) : List (List Char) :=
  (if infoNeeded.contains .DEPENDENCY then [depsPart] else []) ++
    if infoNeeded.contains .SUMMARY then (localesOf locales).map summPart else []

theorem partsAsked_eq (state : State) : state.partsAsked infoNeeded locales =
    (partNames infoNeeded locales).flatMap fun name ↦ (state.parts.lookup name).toList := by
  unfold State.partsAsked partNames
  rw [List.flatMap_append]
  congr 1 <;> split_ifs <;> simp [List.flatMap_map]

theorem basePart_notMem_partNames : basePart ∉ partNames infoNeeded locales := by
  unfold partNames
  intro hmem
  rcases List.mem_append.mp hmem with hmem | hmem
  · split_ifs at hmem
    · exact basePart_ne_depsPart (List.mem_singleton.mp hmem)
    · cases hmem
  · split_ifs at hmem
    · obtain ⟨locale, -, heq⟩ := List.mem_map.mp hmem
      exact basePart_ne_summPart locale heq.symm
    · cases hmem

/-- The actions of an entry after texts have been merged into it. -/
def joined (actions : Option (List (List Char))) (texts : List (List Char)) :
    Option (List (List Char)) :=
  if texts.isEmpty then actions else some (actions.getD [] ++ texts)

theorem joined_append (actions : Option (List (List Char))) (texts more : List (List Char)) :
    joined (joined actions texts) more = joined actions (texts ++ more) := by
  cases texts with
  | nil => rfl
  | cons text texts =>
    cases more with
    | nil => simp [joined]
    | cons other more => simp [joined]

/-- What a part with a group of texts makes of the merged entry. -/
def mergeTexts (pfmri : PkgFmri) (mdata : Metadata) (texts : List (List Char)) : Metadata :=
  match State.entryOf pfmri texts with
  | none => mdata
  | some entry => mergeEntry mdata entry

theorem actions_mergeTexts (pfmri : PkgFmri) (mdata : Metadata) (texts : List (List Char)) :
    (mergeTexts pfmri mdata texts).actions = joined mdata.actions texts := by
  unfold mergeTexts State.entryOf joined
  split_ifs <;> rfl

variable {pfmri : PkgFmri}

theorem mergePart_eq {part : CatalogPart} {texts : List (List Char)}
    (h : part.getEntry pfmri = .ok (State.entryOf pfmri texts)) (mdata : Metadata) :
    State.mergePart pfmri mdata part = .ok (mergeTexts pfmri mdata texts) := by
  rw [State.mergePart, h, mergeTexts]
  cases State.entryOf pfmri texts <;> rfl

variable {state : State}

/-- A part that has not been made stores nothing. -/
theorem texts_eq_nil {name : List Char} {texts : List (List Char)}
    (h : (state.getPart name).getEntry pfmri = .ok (State.entryOf pfmri texts))
    (hnone : state.parts.lookup name = none) : texts = [] := by
  obtain ⟨pub, hpub⟩ := CatalogPart.exists_publisherOf h
  have hempty : (state.getPart name).getEntry pfmri = .ok none := by
    rw [CatalogPart.getEntry_eq_none_iff hpub, State.getPart, hnone]
    rintro ⟨entry, hentry, -⟩
    cases hentry
  have hentry := Except.ok.inj (h.symm.trans hempty)
  unfold State.entryOf at hentry
  split_ifs at hentry with htexts
  exact List.isEmpty_iff.mp htexts

variable {groups : Groups}

/-- Asking parts one after the other joins their texts. -/
theorem foldlM_mergePart {names : List (List Char)} (hnames : ∀ name ∈ names,
      (state.getPart name).getEntry pfmri = .ok (State.entryOf pfmri (groups.textsOf name)))
    (mdata : Metadata) :
    ∃ merged, (names.flatMap fun name ↦ (state.parts.lookup name).toList).foldlM
      (State.mergePart pfmri) mdata = .ok merged ∧
        merged.actions = joined mdata.actions (names.flatMap groups.textsOf) := by
  induction names generalizing mdata with
  | nil => exact ⟨mdata, rfl, rfl⟩
  | cons name rest ih =>
    have hname := hnames name List.mem_cons_self
    have hrest := ih fun other hother ↦ hnames other (List.mem_cons_of_mem name hother)
    rw [List.flatMap_cons, List.flatMap_cons, List.foldlM_append, ← joined_append]
    cases hlookup : state.parts.lookup name with
    | none =>
      rw [texts_eq_nil hname hlookup]
      exact hrest mdata
    | some part =>
      rw [State.getPart, hlookup, Option.getD_some] at hname
      obtain ⟨merged, hmerged, hactions⟩ := hrest (mergeTexts pfmri mdata (groups.textsOf name))
      refine ⟨merged, ?_, by rw [hactions, actions_mergeTexts]⟩
      rw [Option.toList_some, List.foldlM_cons, mergePart_eq hname]
      exact hmerged

/-- The texts of the parts that are asked. -/
def askedTexts (groups : Groups) (infoNeeded : List Info) (locales : List (List Char)) :
    List (List Char) :=
  (if infoNeeded.contains .DEPENDENCY then groups.dependency else []) ++
    if infoNeeded.contains .SUMMARY then (localesOf locales).flatMap groups.summaryOf else []

theorem flatMap_textsOf (groups : Groups) :
    (partNames infoNeeded locales).flatMap groups.textsOf =
    askedTexts groups infoNeeded locales := by
  unfold partNames askedTexts
  rw [List.flatMap_append]
  congr 1 <;> split_ifs <;>
    simp [List.flatMap_map, Groups.textsOf_depsPart, Groups.textsOf_summPart]

theorem getEntry_stored {manifest : Option Manifest} {metadata : Option (List (String × String))}
    (h : Stored pfmri manifest metadata groups state) :
    ∃ merged, state.getEntry pfmri infoNeeded locales = .ok (some merged) ∧
      merged.actions = joined none (askedTexts groups infoNeeded locales) := by
  have hnames : ∀ name ∈ partNames infoNeeded locales,
      (state.getPart name).getEntry pfmri = .ok (State.entryOf pfmri (groups.textsOf name)) :=
    fun name hname ↦ h.others name fun heq ↦ basePart_notMem_partNames (heq ▸ hname)
  obtain ⟨merged, hmerged, hactions⟩ := foldlM_mergePart hnames
    (mergeEntry ⟨none, [],
      none⟩ { State.baseEntry manifest metadata with version := versionText pfmri })
  refine ⟨merged, ?_, by rw [hactions, flatMap_textsOf]; rfl⟩
  unfold State.getEntry
  cases hlookup : state.parts.lookup basePart with
  | none =>
    have hbase := h.base
    rw [State.getPart, hlookup, Option.getD_none] at hbase
    obtain ⟨pub, hpub⟩ := CatalogPart.exists_publisherOf hbase
    obtain ⟨entry, hentry, -⟩ :=
      CatalogPart.has_of_getEntry hbase (CatalogPart.publisher_of_publisherOf hpub)
    cases hentry
  | some base =>
    have hbase := h.base
    rw [State.getPart, hlookup, Option.getD_some] at hbase
    dsimp only
    rw [hbase, partsAsked_eq]
    show (do
      let mdata ← ((partNames infoNeeded locales).flatMap fun name ↦
        (state.parts.lookup name).toList).foldlM (State.mergePart pfmri) _
      return some mdata) = _
    rw [hmerged]
    rfl

/-! ### The stored actions -/

/-- The actions whose texts are asked, part by part. -/
def askedActions (actions : List Action) (infoNeeded : List Info) (locales : List (List Char)) :
    List Action :=
  (if infoNeeded.contains .DEPENDENCY then actions.filter inDependency else []) ++
    if infoNeeded.contains .SUMMARY then
      (localesOf locales).flatMap fun locale ↦ actions.filter (inSummary locale)
    else []

/-- Whether a part that is asked stores an action. -/
def requested (infoNeeded : List Info) (locales : List (List Char)) (a : Action) : Bool :=
  infoNeeded.contains .DEPENDENCY && inDependency a ||
    infoNeeded.contains .SUMMARY && (localesOf locales).any fun locale ↦ inSummary locale a

theorem askedTexts_eq {actions : List Action}
    (h : groupActions actions = .ok groups) : askedTexts groups infoNeeded locales =
      (askedActions actions infoNeeded locales).map Action.str := by
  have hgrouped := grouped_groupActions h
  have hsummary : ∀ locale, groups.summaryOf locale =
      (actions.filter (inSummary locale)).map Action.str := by
    intro locale
    rw [hgrouped.summary, Groups.summaryOf, List.lookup_cons]
    split <;> rfl
  unfold askedTexts askedActions
  rw [List.map_append, hgrouped.dependency]
  congr 1 <;> split_ifs
  · rfl
  · rfl
  · rw [List.map_flatMap]
    exact List.flatMap_congr fun locale _ ↦ hsummary locale
  · rfl

theorem nodup_localesOf (locales : List (List Char)) : (localesOf locales).Nodup := by
  unfold localesOf
  split_ifs
  · exact List.nodup_singleton _
  · exact List.nodup_dedup _

theorem not_inDependency_of_inSummary {locale : List Char}
    (h : inSummary locale a = true) : inDependency a = false := by
  unfold inSummary at h
  obtain ⟨hdepend, hname⟩ := Bool.and_eq_true_iff.mp h
  rw [inDependency, beq_eq_false_iff_ne.mpr (bne_iff_ne.mp hdepend), Bool.false_or]
  unfold named at hname ⊢
  cases hattr : attrName a with
  | error error => rfl
  | ok name =>
    rw [hattr] at hname
    simp only [Bool.and_eq_true, Bool.not_eq_true'] at hname
    exact hname.1.1

theorem eq_of_inSummary {locale other : List Char} (h : inSummary locale a = true)
    (h' : inSummary other a = true) : locale = other := by
  unfold inSummary named at h h'
  cases hname : attrName a with
  | error error =>
    rw [hname] at h
    simp at h
  | ok name =>
    rw [hname] at h h'
    simp only [Bool.and_eq_true, beq_iff_eq] at h h'
    exact h.2.2.symm.trans h'.2.2

/-- The parts that are asked store the requested actions, each of them once. -/
theorem askedActions_perm (actions : List Action) :
    (askedActions actions infoNeeded locales).Perm
      (actions.filter (requested infoNeeded locales)) := by
  have hsummary : ((localesOf locales).flatMap fun locale ↦ actions.filter (inSummary locale)).Perm
      (actions.filter fun a ↦ (localesOf locales).any fun locale ↦ inSummary locale a) :=
    Filters.flatMap_filter_perm (nodup_localesOf locales) fun a _ _ _ ↦ eq_of_inSummary
  have hdep : (if infoNeeded.contains Info.DEPENDENCY then actions.filter inDependency else []) =
      actions.filter fun a ↦ infoNeeded.contains Info.DEPENDENCY && inDependency a := by
    cases infoNeeded.contains Info.DEPENDENCY <;> simp
  have hsum : (if infoNeeded.contains Info.SUMMARY then
      (localesOf locales).flatMap fun locale ↦ actions.filter (inSummary locale) else []).Perm
      (actions.filter fun a ↦ infoNeeded.contains Info.SUMMARY &&
        (localesOf locales).any fun locale ↦ inSummary locale a) := by
    cases infoNeeded.contains Info.SUMMARY with
    | true => simpa using hsummary
    | false => simp
  unfold askedActions
  rw [hdep]
  refine (hsum.append_left _).trans (Filters.filter_append_perm fun a _ h ↦ ?_)
  rw [Bool.and_eq_false_iff]
  refine Or.inr (List.any_eq_false.mpr fun locale _ hin ↦ ?_)
  rw [not_inDependency_of_inSummary hin, Bool.and_false] at h
  exact Bool.false_ne_true h

/-! ### Agreement -/

/-- Both catalogs yield the same actions, each as often, and raise nothing. -/
def Agree (fromstr : List Char → Option Action) (stored unstored : State) (pfmri : PkgFmri)
    (infoNeeded : List Info) (excludes : List (Action → Bool)) (locales : List (List Char)) :
    Prop :=
  ∃ first second : List Action,
    stored.getEntryActions fromstr pfmri infoNeeded excludes locales = .ok ⟨first, none⟩ ∧
    unstored.getEntryActions fromstr pfmri infoNeeded excludes locales = .ok ⟨second, none⟩ ∧
    first.Perm second

/-- No part that is asked stores an action of the manifest. -/
def Unstored (m : Manifest) (infoNeeded : List Info) (locales : List (List Char)) : Prop :=
  ∀ a ∈ m.actions, a.name = "depend".toList ∨ a.name = "set".toList →
    requested infoNeeded locales a = false

/-- The two generators are in sync: if the dependency part is asked, then `excludes` lets every
facet and variant pass, and if summary parts are asked, then that of the locale C is among them, or
`excludes` lets no other attribute without a locale pass. -/
structure Synced (m : Manifest) (infoNeeded : List Info) (excludes : List (Action → Bool))
    (locales : List (List Char)) : Prop where
  varcets : Info.DEPENDENCY ∈ infoNeeded → ∀ a ∈ m.actions, a.name = "set".toList →
    named isVarcetName a = true → Manifest.includeThis excludes a = true
  unlocalised : Info.SUMMARY ∈ infoNeeded → "C".toList ∈ localesOf locales ∨
    ∀ a ∈ m.actions, a.name = "set".toList →
      named (fun name ↦ !isDependencyName name && !isFmriName name && (localeOf name).isNone) a =
        true →
      Manifest.includeThis excludes a = false

theorem isDependencyName_of_isVarcetName {name : List Char} (h : isVarcetName name = true) :
    isDependencyName name = true := by
  unfold isVarcetName at h
  unfold isDependencyName
  rcases Bool.or_eq_true_iff.mp h with hfacet | hvariant
  · rw [hfacet]
    simp
  · rw [hvariant]
    simp

theorem requested_of_depend (h : a.name = "depend".toList) :
    requested infoNeeded locales a = infoNeeded.contains .DEPENDENCY := by
  have hsummary : ((localesOf locales).any fun locale ↦ inSummary locale a) = false :=
    List.any_eq_false.mpr fun locale _ hin ↦ by
      rw [inSummary, bne_eq_false_iff_eq.mpr h, Bool.false_and] at hin
      exact Bool.false_ne_true hin
  rw [requested, hsummary, Bool.and_false, Bool.or_false, inDependency, beq_iff_eq.mpr h,
    Bool.true_or, Bool.and_true]

theorem requested_of_set {name : List Char} (h : a.name = "set".toList)
    (hname : attrName a = .ok name) : requested infoNeeded locales a =
      (infoNeeded.contains .DEPENDENCY && isDependencyName name ||
        infoNeeded.contains .SUMMARY && (!isDependencyName name && !isFmriName name &&
          (localesOf locales).contains ((localeOf name).getD "C".toList))) := by
  have hne : a.name ≠ "depend".toList := fun heq ↦ absurd (h.symm.trans heq) (by decide)
  have hsummary : ((localesOf locales).any fun locale ↦ inSummary locale a) =
      (!isDependencyName name && !isFmriName name &&
        (localesOf locales).contains ((localeOf name).getD "C".toList)) := by
    induction localesOf locales with
    | nil => simp
    | cons locale rest ih =>
      rw [List.any_cons, ih, inSummary, bne_iff_ne.mpr hne, Bool.true_and, named, hname,
        List.contains_cons, Bool.and_or_distrib_left]
  rw [requested, hsummary, inDependency, beq_eq_false_iff_ne.mpr hne, Bool.false_or, named, hname]

/-- The two generators treat one action alike. -/
theorem keeps_eq_iff (h : a.name = "depend".toList ∨ a.name = "set".toList ∧ ∃ name,
      attrName a = .ok name) :
    (requested infoNeeded locales a && keeps excludes a) =
        (lazyTest infoNeeded (localesOf locales) a && Manifest.includeThis excludes a) ↔
      (a.name = "set".toList →
        (Info.DEPENDENCY ∈ infoNeeded → named isVarcetName a = true →
          Manifest.includeThis excludes a = true) ∧
        (Info.SUMMARY ∈ infoNeeded → "C".toList ∈ localesOf locales ∨
          (named (fun name ↦ !isDependencyName name && !isFmriName name &&
            (localeOf name).isNone) a = true →
            Manifest.includeThis excludes a = false))) := by
  rw [← List.contains_iff_mem, ← List.contains_iff_mem, ← List.contains_iff_mem]
  rcases h with hdepend | ⟨hset, name, hname⟩
  · have hne : a.name ≠ "set".toList := fun heq ↦ absurd (hdepend.symm.trans heq) (by decide)
    refine iff_of_true ?_ fun heq ↦ absurd heq hne
    rw [requested_of_depend hdepend, keeps, beq_eq_false_iff_ne.mpr hne, Bool.false_and,
      Bool.false_or, lazyTest, if_pos hdepend]
  · have hne : a.name ≠ "depend".toList := fun heq ↦ absurd (hset.symm.trans heq) (by decide)
    have hvarcet := @isDependencyName_of_isVarcetName name
    rw [requested_of_set hset hname, keeps, beq_iff_eq.mpr hset, Bool.true_and,
      lazyTest, if_neg hne, named, named, named, hname, imp_iff_right hset]
    dsimp only
    rw [beq_iff_eq.mpr hset, Bool.and_true]
    generalize infoNeeded.contains Info.DEPENDENCY = dependency
    generalize infoNeeded.contains Info.SUMMARY = summary
    generalize Manifest.includeThis excludes a = included
    cases hdep : isDependencyName name with
    | true =>
      cases dependency <;> cases isVarcetName name <;> cases included <;> simp
    | false =>
      have hnot : isVarcetName name = false := by
        by_contra hvar
        rw [hvarcet (Bool.not_eq_false _ ▸ hvar)] at hdep
        cases hdep
      rw [hnot]
      cases isFmriName name <;> cases localeOf name <;> cases summary <;> cases included <;> simp

/-- What the requested actions of a stored package come to, whatever its manifest. -/
theorem getEntryActions_stored {pfmri : PkgFmri} {manifest : Option Manifest}
    {metadata : Option (List (String × String))} {groups : Groups} {state : State}
    (h : Stored pfmri manifest metadata groups state) (hinfo : infoNeeded ≠ []) :
    ∃ merged : Metadata, merged.actions = joined none (askedTexts groups infoNeeded locales) ∧
      state.getEntryActions fromstr pfmri infoNeeded excludes locales =
        .ok (state.chooseGenerator fromstr pfmri infoNeeded excludes locales merged) := by
  obtain ⟨merged, hmerged, hactions⟩ := getEntry_stored h
  refine ⟨merged, hactions, ?_⟩
  rw [State.getEntryActions, if_neg (by simpa using hinfo), hmerged]
  rfl

theorem mem_storedActions : a ∈ State.storedActions m ↔
    a ∈ m.actions ∧ (a.name = "depend".toList ∨ a.name = "set".toList) := by
  simp only [State.storedActions, Manifest.genActionsByType, List.mem_append, List.mem_filter,
    decide_eq_true_eq, ← and_or_left]

theorem chooseGenerator_callback {entry : Metadata}
    {manifestCb : PkgFmri → Option Manifest} (hactions : entry.actions = none)
    (hcb : state.manifestCb = some manifestCb) (hm : manifestCb pfmri = some m) :
    state.chooseGenerator fromstr pfmri infoNeeded excludes locales entry =
      genLazyActions m infoNeeded (localesOf locales) excludes := by
  rw [State.chooseGenerator, hactions, hcb]
  dsimp only
  rw [hm]

theorem askedActions_eq_nil_iff :
    askedActions (State.storedActions m) infoNeeded locales = [] ↔
    Unstored m infoNeeded locales := by
  have hperm := @askedActions_perm infoNeeded locales (State.storedActions m)
  have hnil : askedActions (State.storedActions m) infoNeeded locales = [] ↔
      (State.storedActions m).filter (requested infoNeeded locales) = [] :=
    ⟨fun h ↦ List.nil_perm.mp (h ▸ hperm), fun h ↦ List.perm_nil.mp (h ▸ hperm)⟩
  rw [hnil, List.filter_eq_nil_iff]
  simp only [mem_storedActions, and_imp, Bool.not_eq_true]
  rfl

/-- The manifest is synced if the generators treat every stored action alike. -/
theorem synced_iff (hnamed : Named (State.storedActions m)) :
    (∀ a ∈ State.storedActions m, (requested infoNeeded locales a && keeps excludes a) =
      (lazyTest infoNeeded (localesOf locales) a && Manifest.includeThis excludes a)) ↔
      Synced m infoNeeded excludes locales := by
  have hcases : ∀ a ∈ State.storedActions m, a.name = "depend".toList ∨
      a.name = "set".toList ∧ ∃ name, attrName a = .ok name := by
    intro a ha
    rcases (mem_storedActions.mp ha).2 with hdepend | hset
    · exact Or.inl hdepend
    · exact (hnamed a ha).imp_right fun hname ↦ ⟨hset, hname⟩
  constructor
  · intro h
    have hset : ∀ a ∈ m.actions, a.name = "set".toList → _ := fun a ha hset ↦
      have hmem := mem_storedActions.mpr ⟨ha, Or.inr hset⟩
      (keeps_eq_iff (hcases a hmem)).mp (h a hmem) hset
    refine ⟨fun hinfo a ha hname ↦ (hset a ha hname).1 hinfo, fun hinfo ↦ ?_⟩
    by_cases hlocale : "C".toList ∈ localesOf locales
    · exact Or.inl hlocale
    · exact Or.inr fun a ha hname ↦ ((hset a ha hname).2 hinfo).resolve_left hlocale
  · intro h a ha
    refine (keeps_eq_iff (hcases a ha)).mpr fun hset ↦ ?_
    have hmem := (mem_storedActions.mp ha).1
    exact ⟨fun hinfo ↦ h.varcets hinfo a hmem hset,
      fun hinfo ↦ (h.unlocalised hinfo).imp_right fun hall ↦ hall a hmem hset⟩

/-- A catalog without the actions of a package yields those of the manifest of the callback. -/
theorem getEntryActions_lazy {metadata : Option (List (String × String))}
    {manifestCb : PkgFmri → Option Manifest}
    (h : Stored pfmri none metadata groups state) (hinfo : infoNeeded ≠ [])
    (hcb : state.manifestCb = some manifestCb) (hm : manifestCb pfmri = some m) :
    state.getEntryActions fromstr pfmri infoNeeded excludes locales =
      .ok (genLazyActions m infoNeeded (localesOf locales) excludes) := by
  obtain ⟨merged, hactions, heq⟩ := getEntryActions_stored h hinfo
  have htexts : askedTexts groups infoNeeded locales = [] := by
    rw [h.nothing rfl]
    unfold askedTexts
    split_ifs <;> simp [Groups.summaryOf]
  rw [heq, chooseGenerator_callback (by rw [hactions, htexts]; rfl) hcb hm]

/-- A catalog that stores the actions of a package yields those that are requested and kept, unless
there are none and it has a callback. -/
theorem getEntryActions_eager {pfmri : PkgFmri} {metadata : Option (List (String × String))}
    {groups : Groups} {state : State} {m : Manifest}
    (h : Stored pfmri (some m) metadata groups state)
    (hread : ∀ a ∈ State.storedActions m, fromstr a.str = some a) (hinfo : infoNeeded ≠ [])
    (hchosen : state.manifestCb = none ∨ ¬ Unstored m infoNeeded locales) :
    ∃ yielded, state.getEntryActions fromstr pfmri infoNeeded excludes locales =
        .ok ⟨yielded, none⟩ ∧
      yielded.Perm ((State.storedActions m).filter fun a ↦
        requested infoNeeded locales a && keeps excludes a) := by
  obtain ⟨merged, hactions, heq⟩ :=
    @getEntryActions_stored fromstr infoNeeded excludes locales _ _ _ _ _ h hinfo
  have hgroups := h.grouped m rfl
  have hperm := @askedActions_perm infoNeeded locales (State.storedActions m)
  have hmem : ∀ a ∈ askedActions (State.storedActions m) infoNeeded locales,
      a ∈ State.storedActions m := fun a ha ↦ (List.mem_filter.mp (hperm.mem_iff.mp ha)).1
  refine ⟨(askedActions (State.storedActions m) infoNeeded locales).filter (keeps excludes), ?_, ?_⟩
  · rw [askedTexts_eq hgroups] at hactions
    rw [heq]
    cases hasked : askedActions (State.storedActions m) infoNeeded locales with
    | nil =>
      have hcb := hchosen.resolve_right fun hnot ↦ hnot (askedActions_eq_nil_iff.mp hasked)
      rw [hasked] at hactions
      rw [State.chooseGenerator, hactions, hcb]
      rfl
    | cons a rest =>
      have hgen := @genActions_eq fromstr excludes _ (fun b hb ↦ hread b (hmem b hb))
        fun b hb ↦ (grouped_groupActions hgroups).named b (hmem b hb)
      rw [hasked] at hactions hgen
      rw [State.chooseGenerator, hactions]
      exact congrArg Except.ok hgen
  · have hkept := hperm.filter (keeps excludes)
    rw [List.filter_filter] at hkept
    exact hkept.trans (List.Perm.of_eq (List.filter_congr fun a _ ↦ Bool.and_comm _ _))

/-- Assumes: the texts of the stored actions are read back, the callbacks return the manifest, and
both additions return. The actions agree exactly if the catalog with the manifest stores none of the
requested ones and has a callback itself, or the two generators treat every action of the manifest
alike. -/
theorem agree_iff {stored unstored stored' unstored' : BasedCatalog} {pfmri : PkgFmri}
    {m : Manifest} {metadata metadata' : Option (List (String × String))}
    (hread : ∀ a ∈ State.storedActions m, fromstr a.str = some a)
    (hcallback : ∀ manifestCb ∈ stored.state.manifestCb, manifestCb pfmri = some m)
    (hlazy : ∃ manifestCb, unstored.state.manifestCb = some manifestCb ∧ manifestCb pfmri = some m)
    (hstored : stored.addPackage pfmri (some m) metadata = (.ok (), stored'))
    (hunstored : unstored.addPackage pfmri none metadata' = (.ok (), unstored'))
    (hinfo : infoNeeded ≠ []) :
    Agree fromstr stored'.state unstored'.state pfmri infoNeeded excludes locales ↔
      stored.state.manifestCb.isSome ∧ Unstored m infoNeeded locales ∨
        Synced m infoNeeded excludes locales := by
  obtain ⟨hcb, groups, hentry⟩ := addPackage_ok hstored
  obtain ⟨hcb', groups', hentry'⟩ := addPackage_ok hunstored
  obtain ⟨manifestCb, hsome, hm⟩ := hlazy
  have hnamed := (grouped_groupActions (hentry.grouped m rfl)).named
  have hsecond : unstored'.state.getEntryActions fromstr pfmri infoNeeded excludes locales =
      .ok (genLazyActions m infoNeeded (localesOf locales) excludes) :=
    getEntryActions_lazy hentry' hinfo (hcb'.trans hsome) hm
  rw [genLazyActions_eq hnamed] at hsecond
  by_cases hchosen : stored'.state.manifestCb = none ∨ ¬ Unstored m infoNeeded locales
  · have hleft : ¬ (stored.state.manifestCb.isSome ∧ Unstored m infoNeeded locales) := by
      rintro ⟨hisSome, hunstored⟩
      rcases hchosen with hnone | hnot
      · rw [← hcb, hnone] at hisSome
        cases hisSome
      · exact hnot hunstored
    obtain ⟨yielded, hfirst, hperm⟩ :=
      @getEntryActions_eager fromstr infoNeeded excludes locales _ _ _ _ _ hentry hread
        hinfo hchosen
    rw [or_iff_right hleft, ← synced_iff hnamed, ← Filters.perm_filter_iff]
    constructor
    · rintro ⟨first, second, hfirst', hsecond', hagree⟩
      obtain rfl := (Generated.mk.inj (Except.ok.inj (hfirst.symm.trans hfirst'))).1
      obtain rfl := (Generated.mk.inj (Except.ok.inj (hsecond.symm.trans hsecond'))).1
      exact hperm.symm.trans hagree
    · exact fun hagree ↦ ⟨_, _, hfirst, hsecond, hperm.trans hagree⟩
  · rw [not_or, not_not] at hchosen
    obtain ⟨own, hown⟩ := Option.ne_none_iff_exists'.mp hchosen.1
    refine iff_of_true ?_ (Or.inl ⟨by rw [← hcb, hown]; rfl, hchosen.2⟩)
    obtain ⟨merged, hactions, heq⟩ :=
      @getEntryActions_stored fromstr infoNeeded excludes locales _ _ _ _ _ hentry hinfo
    rw [askedTexts_eq (hentry.grouped m rfl), askedActions_eq_nil_iff.mpr hchosen.2] at hactions
    rw [chooseGenerator_callback hactions hown (hcallback own (by rw [← hcb, hown]; rfl)),
      genLazyActions_eq hnamed] at heq
    exact ⟨_, _, heq, hsecond, List.Perm.refl _⟩

/-! ### A summary in another locale -/

/-- A catalog without packages. -/
def emptyCatalog (manifestCb : Option (PkgFmri → Option Manifest)) : BasedCatalog where
  state := ⟨[], 0, 0, false, manifestCb⟩
  based := by
    rintro name pub stem version ⟨entry, hentry, -⟩
    cases hentry

/-- `set name=pkg.summary value=tools`. -/
def summaryAction : Action where
  name := "set".toList
  hash := none
  attrs := [("name".toList, .str "pkg.summary".toList), ("value".toList, .str "tools".toList)]
  nodup := by decide

def summaryManifest : Manifest := ⟨[summaryAction], []⟩

def summaryFmri : PkgFmri := .plain "openindiana" "tools" 1

/-- The catalog to which the package was added with its manifest. -/
def storedCatalog : BasedCatalog :=
  ((emptyCatalog none).addPackage summaryFmri (some summaryManifest) none).2

/-- The catalog to which the package was added without its manifest. -/
def unstoredCatalog : BasedCatalog :=
  ((emptyCatalog (some fun _ ↦ some summaryManifest)).addPackage summaryFmri none none).2

theorem agree_iff_summary :
    Agree scan storedCatalog.state unstoredCatalog.state summaryFmri [.SUMMARY] [] [] ↔
      (none : Option (PkgFmri → Option Manifest)).isSome ∧ Unstored summaryManifest [.SUMMARY] [] ∨
        Synced summaryManifest [.SUMMARY] [] [] := by
  have hread : ∀ a ∈ State.storedActions summaryManifest, scan a.str = some a := by
    have hstored : State.storedActions summaryManifest = [summaryAction] := rfl
    rw [hstored, List.forall_mem_singleton]
    decide +kernel
  have hstored : (emptyCatalog none).addPackage summaryFmri (some summaryManifest) none =
      (.ok (), storedCatalog) := rfl
  have hunstored : (emptyCatalog (some fun _ ↦ some summaryManifest)).addPackage
      summaryFmri none none =
      (.ok (), unstoredCatalog) := rfl
  exact agree_iff hread (fun manifestCb h ↦ by cases h) ⟨_, rfl, rfl⟩ hstored hunstored
    (List.cons_ne_nil _ _)

/-- Asked for another locale than C, the lazy catalog yields the summary and the other one does not.
-/
theorem not_agree_summary :
    ((emptyCatalog none).addPackage summaryFmri (some summaryManifest) none).1 = .ok () ∧
      ((emptyCatalog (some fun _ ↦ some summaryManifest)).addPackage summaryFmri none none).1 =
        .ok () ∧
      scan summaryAction.str = some summaryAction ∧
      ¬ Agree scan storedCatalog.state unstoredCatalog.state summaryFmri [.SUMMARY] []
        ["de".toList] := by
  refine ⟨rfl, rfl, by decide +kernel, ?_⟩
  rintro ⟨first, second, hfirst, hsecond, hperm⟩
  have hstored : storedCatalog.state.getEntryActions scan summaryFmri [.SUMMARY] [] ["de".toList] =
      .ok ⟨[], none⟩ := rfl
  have hlazy : unstoredCatalog.state.getEntryActions scan summaryFmri [.SUMMARY] [] ["de".toList] =
      .ok ⟨[summaryAction], none⟩ := rfl
  rw [hstored] at hfirst
  rw [hlazy] at hsecond
  rw [← (Generated.mk.inj (Except.ok.inj hfirst)).1, ← (Generated.mk.inj (Except.ok.inj hsecond)).1]
    at hperm
  exact List.cons_ne_nil _ _ (List.nil_perm.mp hperm)

end Userland.Pkg.Catalog
