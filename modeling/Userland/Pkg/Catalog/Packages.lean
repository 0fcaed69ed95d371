import Userland.Pkg.Actions.Action
import Userland.Pkg.Catalog.Part

/-!
# Adding packages to a catalog

`Catalog.add_package` of `pkg/catalog.py`. Every package gets an entry in the base part. If a
manifest is given, `group_actions` sorts the `depend` and `set` actions into the dependency part and
one summary part for each locale, and the parts whose group is not empty get an entry with the texts
of the group.

A `BasedCatalog` carries the fact that its other parts have no package that the base part lacks,
which `addPackage` keeps even when it raises. After an addition that returns, the entry of the
package in each part is known (`addPackage_ok`).

Scope. The catalog is in memory and writable. Update logs and the attributes of a catalog other than
the package counts are left out. The groups are stored in the order in which they came up.
-/

set_option autoImplicit false
set_option relaxedAutoImplicit false

namespace Userland.Pkg.Catalog

open Library Actions

/-- The actions of a manifest, in its order, and its signatures. -/
structure Manifest where
  actions : List Action
  signatures : List (String × String)

/-- `Manifest.gen_actions_by_type(atype)`. -/
def Manifest.genActionsByType (self : Manifest) (atype : List Char) : List Action :=
  self.actions.filter (·.name = atype)

/-! ### Grouping actions -/

/-- `act.attrs["name"]`, of which the code asks how it starts. -/
def attrName (act : Action) : Except Error (List Char) :=
  match act.get "name".toList with
  | some (.str name) => .ok name
  | some (.list _) => .error .attributeError
  | none => .error .keyError

/-- The names of the attributes that belong to the dependency part. -/
def isDependencyName (name : List Char) : Bool :=
  "variant".toList.isPrefixOf name || "facet".toList.isPrefixOf name ||
    "pkg.depend.".toList.isPrefixOf name || name == "pkg.obsolete".toList ||
    name == "pkg.renamed".toList

/-- The names of the attributes that hold the FMRI. -/
def isFmriName (name : List Char) : Bool := name == "fmri".toList || name == "pkg.fmri".toList

/-- The locale in the name of an attribute. -/
def localeOf (name : List Char) : Option (List Char) := (name.splitOn ':')[1]?

/-- The texts of `group_actions`: `dep_acts["C"]` and `sum_acts`. -/
structure Groups where
  dependency : List (List Char)
  summary : List (List Char × List (List Char))

/-- One turn of the loop of `group_actions`. -/
def groupAction (groups : Groups) (act : Action) : Except Error Groups :=
  if act.name = "depend".toList then
    .ok { groups with dependency := groups.dependency ++ [act.str] }
  else do
    let name ← attrName act
    if isDependencyName name then
      return { groups with dependency := groups.dependency ++ [act.str] }
    else if isFmriName name then return groups
    else return { groups with
      summary := Dict.append groups.summary ((localeOf name).getD "C".toList) act.str }

/-- `group_actions(actions)`. -/
def groupActions (actions : List Action) : Except Error Groups :=
  actions.foldlM groupAction ⟨[], [("C".toList, [])]⟩

/-- What is known of the name of an action, if it has one. -/
def named (test : List Char → Bool) (act : Action) : Bool :=
  match attrName act with
  | .ok name => test name
  | .error _ => false

/-- The actions of the dependency part. -/
def inDependency (act : Action) : Bool :=
  act.name == "depend".toList || named isDependencyName act

/-- The actions of the summary part of a locale. -/
def inSummary (locale : List Char) (act : Action) : Bool :=
  act.name != "depend".toList && named (fun name ↦ !isDependencyName name && !isFmriName name &&
    (localeOf name).getD "C".toList == locale) act

/-- The actions have names where these are asked for. -/
def Named (actions : List Action) : Prop :=
  ∀ act ∈ actions, act.name = "depend".toList ∨ ∃ name, attrName act = .ok name

/-- The texts of a group. -/
def Groups.summaryOf (groups : Groups) (locale : List Char) : List (List Char) :=
  (groups.summary.lookup locale).getD []

/-- What one turn adds to the groups. -/
structure Grouped (actions : List Action) (before after : Groups) : Prop where
  named : Named actions
  dependency : after.dependency = before.dependency ++ (actions.filter inDependency).map Action.str
  summary : ∀ locale, after.summaryOf locale =
    before.summaryOf locale ++ (actions.filter (inSummary locale)).map Action.str
  nodup : (before.summary.map Prod.fst).Nodup → (after.summary.map Prod.fst).Nodup

theorem grouped_groupAction {groups next : Groups} {act : Action}
    (h : groupAction groups act = .ok next) : Grouped [act] groups next := by
  unfold groupAction at h
  by_cases hdepend : act.name = "depend".toList
  · rw [if_pos hdepend] at h
    obtain rfl := Except.ok.inj h
    have hdep : inDependency act = true := by
      rw [inDependency, beq_iff_eq.mpr hdepend, Bool.true_or]
    have hsum : ∀ locale, inSummary locale act = false := fun locale ↦ by
      rw [inSummary, bne_eq_false_iff_eq.mpr hdepend, Bool.false_and]
    refine ⟨?_, ?_, fun locale ↦ ?_, fun hnodup ↦ hnodup⟩
    · exact fun other hother ↦ Or.inl (List.mem_singleton.mp hother ▸ hdepend)
    · simp [hdep]
    · simp [hsum, Groups.summaryOf]
  · rw [if_neg hdepend] at h
    cases hname : attrName act with
    | error error =>
      rw [hname] at h
      cases h
    | ok name =>
      have hnamed : Named [act] := fun other hother ↦
        Or.inr ⟨name, List.mem_singleton.mp hother ▸ hname⟩
      have hdep : inDependency act = isDependencyName name := by
        rw [inDependency, beq_eq_false_iff_ne.mpr hdepend, Bool.false_or, named, hname]
      have hsum : ∀ locale, inSummary locale act = (!isDependencyName name && !isFmriName name &&
          (localeOf name).getD "C".toList == locale) := by
        intro locale
        rw [inSummary, bne_iff_ne.mpr hdepend, Bool.true_and, named, hname]
      have hbind : (if isDependencyName name = true then
          .ok { groups with dependency := groups.dependency ++ [act.str] }
        else if isFmriName name = true then .ok groups
        else .ok { groups with
          summary := Dict.append groups.summary ((localeOf name).getD "C".toList) act.str }) =
          (.ok next : Except Error Groups) := by
        rw [hname] at h
        exact h
      split_ifs at hbind with hisDep hisFmri
      · obtain rfl := Except.ok.inj hbind
        refine ⟨hnamed, ?_, fun locale ↦ ?_, fun hnodup ↦ hnodup⟩
        · simp [hdep, hisDep]
        · simp [hsum, hisDep, Groups.summaryOf]
      · obtain rfl := Except.ok.inj hbind
        refine ⟨hnamed, ?_, fun locale ↦ ?_, fun hnodup ↦ hnodup⟩
        · simp [hdep, hisDep]
        · simp [hsum, hisFmri]
      · obtain rfl := Except.ok.inj hbind
        refine ⟨hnamed, ?_, fun locale ↦ ?_, fun hnodup ↦ Dict.nodup_set hnodup _ _⟩
        · simp [hdep, hisDep]
        · simp only [Bool.not_eq_true] at hisDep hisFmri
          rw [Groups.summaryOf, Groups.summaryOf, Dict.append]
          by_cases hlocale : locale = (localeOf name).getD "C".toList
          · rw [hlocale, Dict.lookup_set_self, Option.getD_some, List.filter_cons_of_pos (by
              rw [hsum, hisDep, hisFmri, beq_self_eq_true]; rfl)]
            rfl
          · rw [Dict.lookup_set_of_ne _ hlocale, List.filter_cons_of_neg (by
              rw [hsum, hisDep, hisFmri, beq_eq_false_iff_ne.mpr (Ne.symm hlocale)]; decide)]
            simp

theorem Grouped.refl (groups : Groups) : Grouped [] groups groups :=
  ⟨by simp [Named], by simp, by simp, fun h ↦ h⟩

theorem Grouped.trans {actions others : List Action} {first middle last : Groups}
    (h : Grouped actions first middle) (h' : Grouped others middle last) :
    Grouped (actions ++ others) first last where
  named act hact := (List.mem_append.mp hact).elim (h.named act) (h'.named act)
  dependency := by
    rw [h'.dependency, h.dependency, List.filter_append, List.map_append, List.append_assoc]
  summary locale := by
    rw [h'.summary, h.summary, List.filter_append, List.map_append, List.append_assoc]
  nodup hnodup := h'.nodup (h.nodup hnodup)

/-- The groups hold the texts of the actions, in the order of the actions. -/
theorem grouped_groupActions {actions : List Action} {groups : Groups}
    (h : groupActions actions = .ok groups) : Grouped actions ⟨[], [("C".toList, [])]⟩ groups := by
  unfold groupActions at h
  generalize (⟨[], [("C".toList, [])]⟩ : Groups) = first at h
  induction actions generalizing first with
  | nil =>
    obtain rfl := Except.ok.inj h
    exact Grouped.refl _
  | cons act rest ih =>
    rw [List.foldlM_cons] at h
    cases hact : groupAction first act with
    | error error =>
      rw [hact] at h
      cases h
    | ok next =>
      rw [hact] at h
      exact (grouped_groupAction hact).trans (ih next h)

/-! ### The parts of a catalog -/

/-- The names of the parts. -/
def basePart : List Char := "catalog.base.C".toList

def depsPart : List Char := "catalog.dependency.C".toList

def summPart (locale : List Char) : List Char := "catalog.summary.".toList ++ locale

/-- The texts of each part. -/
def Groups.parts (groups : Groups) : List (List Char × List (List Char)) :=
  (depsPart, groups.dependency) :: groups.summary.map fun entry ↦ (summPart entry.1, entry.2)

theorem summPart_injective : Function.Injective summPart :=
  fun _ _ h ↦ List.append_cancel_left h

theorem depsPart_ne_summPart (locale : List Char) : depsPart ≠ summPart locale := by
  unfold depsPart summPart
  simp

theorem basePart_ne_depsPart : basePart ≠ depsPart := by decide

theorem basePart_ne_summPart (locale : List Char) : basePart ≠ summPart locale := by
  unfold basePart summPart
  simp

namespace Groups

/-- The texts of the part of a name. -/
def textsOf (groups : Groups) (name : List Char) : List (List Char) :=
  (groups.parts.lookup name).getD []

theorem nodup_parts {groups : Groups} (h : (groups.summary.map Prod.fst).Nodup) :
    (groups.parts.map Prod.fst).Nodup := by
  have hkeys : (groups.summary.map fun entry ↦ (summPart entry.1, entry.2)).map Prod.fst =
      (groups.summary.map Prod.fst).map summPart := by
    rw [List.map_map, List.map_map]
    rfl
  rw [parts, List.map_cons, hkeys, List.nodup_cons]
  refine ⟨fun hmem ↦ ?_, h.map summPart_injective⟩
  obtain ⟨locale, -, heq⟩ := List.mem_map.mp hmem
  exact depsPart_ne_summPart locale heq.symm

theorem basePart_notMem_parts (groups : Groups) : basePart ∉ groups.parts.map Prod.fst := by
  rw [parts, List.map_cons, List.mem_cons, not_or]
  refine ⟨basePart_ne_depsPart, fun hmem ↦ ?_⟩
  obtain ⟨entry, hentry, heq⟩ := List.mem_map.mp hmem
  obtain ⟨group, -, rfl⟩ := List.mem_map.mp hentry
  exact basePart_ne_summPart _ heq.symm

theorem textsOf_depsPart (groups : Groups) : groups.textsOf depsPart = groups.dependency := by
  rw [textsOf, parts, List.lookup_cons_self, Option.getD_some]

theorem textsOf_summPart (groups : Groups) (locale : List Char) :
    groups.textsOf (summPart locale) = groups.summaryOf locale := by
  rw [textsOf, parts, List.lookup_cons, beq_eq_false_iff_ne.mpr (depsPart_ne_summPart locale).symm,
    summaryOf]
  dsimp only
  congr 1
  induction groups.summary with
  | nil => rfl
  | cons entry rest ih =>
    rw [List.map_cons, List.lookup_cons, List.lookup_cons, ih]
    by_cases hkey : locale = entry.1
    · rw [hkey, beq_self_eq_true, beq_self_eq_true]
    · rw [beq_eq_false_iff_ne.mpr hkey,
        beq_eq_false_iff_ne.mpr fun heq ↦ hkey (summPart_injective heq)]

theorem textsOf_nil (name : List Char) : (⟨[], []⟩ : Groups).textsOf name = [] := by
  rw [textsOf, parts, List.lookup_cons]
  split <;> rfl

end Groups

/-- The parts of a catalog that have been made, its package counts and its settings. -/
structure State where
  parts : List (List Char × CatalogPart)
  packageCount : ℕ
  packageVersionCount : ℕ
  batchMode : Bool
  manifestCb : Option (PkgFmri → Option Manifest)

namespace State

/-- The part of a name, or a new one. -/
def getPart (self : State) (name : List Char) : CatalogPart :=
  (self.parts.lookup name).getD ⟨[], !self.batchMode⟩

/-- Runs a program on the part of a name, which `get_part(name)` makes if there is none. -/
def onPart {α : Type} (name : List Char) (program : Program CatalogPart Error α) :
    Program State Error α := do
  let self ← get
  let run := Program.exec program (self.getPart name)
  modify fun self ↦ { self with parts := Dict.set self.parts name run.2 }
  Program.lift run.1

/-- `__finalize(sort=False)`. -/
def finalize (self : State) : State :=
  let counts := match self.parts.lookup basePart with
    | none => (0, 0)
    | some part => part.getPackageCounts
  { self with packageCount := counts.1, packageVersionCount := counts.2 }

/-- What the base part stores about a package. -/
def baseEntry (manifest : Option Manifest) (metadata : Option (List (String × String))) :
    Metadata where
  metadata := metadata.filter fun metadata ↦ !metadata.isEmpty
  signatures := match manifest with
    | none => []
    | some manifest => manifest.signatures.map fun entry ↦ ("signature-" ++ entry.1, entry.2)
  actions := none

/-- `self.get_part(name).add(pfmri, metadata=metadata)`. -/
def addEntry (name : List Char) (pfmri : PkgFmri) (metadata : Metadata) :
    Program State Error Unit := do
  let _ ← onPart name (CatalogPart.add pfmri metadata)

/-- The actions of a manifest that the parts store. -/
def storedActions (manifest : Manifest) : List Action :=
  manifest.genActionsByType "depend".toList ++ manifest.genActionsByType "set".toList

/-- `add_package(pfmri, manifest, metadata)`. -/
def addPackage (pfmri : PkgFmri) (manifest : Option Manifest)
    (metadata : Option (List (String × String))) : Program State Error Unit := do
  addEntry basePart pfmri (baseEntry manifest metadata)
  match manifest with
  | none => pure ()
  | some manifest => do
    let groups ← Program.lift (groupActions (storedActions manifest))
    Program.forEach (fun entry ↦
      if entry.2.isEmpty then pure ()
      else addEntry entry.1 pfmri ⟨none, [], some entry.2⟩) groups.parts
  modify fun self ↦ if self.batchMode then self else self.finalize

/-! ### What an addition does -/

/-- No part has a package that the base part lacks. -/
def Based (self : State) : Prop :=
  ∀ name pub stem version, (self.getPart name).Has pub stem version →
    (self.getPart basePart).Has pub stem version

/-- At most the versions of one package have been added, and the settings are the same. -/
structure Extends (pfmri : PkgFmri) (before after : State) : Prop where
  grown : ∀ name, (before.getPart name).Grown pfmri (after.getPart name)
  manifestCb : after.manifestCb = before.manifestCb

theorem Extends.refl (pfmri : PkgFmri) (state : State) : Extends pfmri state state :=
  ⟨fun _ ↦ CatalogPart.Grown.refl _ _, rfl⟩

variable {pfmri : PkgFmri}

theorem Extends.trans {first middle last : State} (h : Extends pfmri first middle)
    (h' : Extends pfmri middle last) : Extends pfmri first last :=
  ⟨fun name ↦ (h.grown name).trans (h'.grown name), h'.manifestCb.trans h.manifestCb⟩

theorem Extends.based {before after : State} (h : Extends pfmri before after)
    (hbased : before.Based) (hbase : ∀ pub, pfmri.publisher = some pub →
      (after.getPart basePart).Has pub pfmri.pkgName (versionText pfmri)) : after.Based := by
  intro name pub stem version hhas
  rcases (h.grown name).only pub stem version hhas with hold | ⟨hpub, rfl, rfl⟩
  · exact (h.grown basePart).keeps _ _ _ (hbased name pub stem version hold)
  · exact hbase pub hpub

/-- What a step on one part leaves alone. -/
structure Frame (name : List Char) (before after : State) : Prop where
  others : ∀ other, other ≠ name → after.getPart other = before.getPart other
  manifestCb : after.manifestCb = before.manifestCb

theorem onPart_triple {α : Type} {name : List Char} {program : Program CatalogPart Error α}
    {start : State} {Q : α → CatalogPart → Prop} {E : Error → CatalogPart → Prop}
    (h : Program.Triple (fun part ↦ part = start.getPart name) program Q E) :
    Program.Triple (fun state ↦ state = start) (onPart name program)
      (fun value state ↦ Q value (state.getPart name) ∧ Frame name start state)
      (fun error state ↦ E error (state.getPart name) ∧ Frame name start state) := by
  rintro state rfl
  have hrun := h (state.getPart name) rfl
  have hexec : Program.exec (onPart name program) state =
      ((Program.exec program (state.getPart name)).1,
        { state with parts := Dict.set state.parts name (Program.exec program (state.getPart name)).2 }) := by
    rw [onPart, Program.exec_bind, Program.exec_get]
    dsimp only
    rw [Program.exec_bind, Program.exec_modify]
    dsimp only
    rw [Program.exec_lift]
  rw [hexec]
  have hframe : Frame name state { state with
      parts := Dict.set state.parts name (Program.exec program (state.getPart name)).2 } :=
    ⟨fun other hother ↦ by simp only [getPart, Dict.lookup_set_of_ne _ hother], rfl⟩
  rcases hresult : Program.exec program (state.getPart name) with ⟨error | value, part⟩ <;>
    rw [hresult] at hrun hframe <;>
    exact ⟨by rwa [getPart, Dict.lookup_set_self, Option.getD_some], hframe⟩

/-- A step on one part extends the state if the part has grown. -/
theorem Frame.extends {name : List Char} {before after : State} (h : Frame name before after)
    (hgrown : (before.getPart name).Grown pfmri (after.getPart name)) :
    Extends pfmri before after := by
  refine ⟨fun other ↦ ?_, h.manifestCb⟩
  by_cases hother : other = name
  · exact hother ▸ hgrown
  · rw [h.others other hother]
    exact CatalogPart.Grown.refl _ _

/-- What adding an entry to one part does. -/
theorem addEntry_triple (name : List Char) (pfmri : PkgFmri) (metadata : Metadata) (start : State) :
    Program.Triple (fun state ↦ state = start) (addEntry name pfmri metadata)
      (fun _ state ↦ Frame name start state ∧ Extends pfmri start state ∧
        (start.getPart name).getEntry pfmri = .ok none ∧ (state.getPart name).getEntry pfmri =
          .ok (some { metadata with version := versionText pfmri }))
      (fun _ state ↦ Frame name start state ∧ Extends pfmri start state) := by
  refine Program.Triple.bind ((onPart_triple (CatalogPart.add_triple pfmri metadata _)).weaken
    (fun _ h ↦ h) (fun _ _ h ↦ h) fun _ _ h ↦ ⟨h.2, h.2.extends h.1⟩) fun _ ↦ ?_
  exact Program.Triple.pure fun _ h ↦ ⟨h.2, h.2.extends h.1.1, h.1.2⟩

/-- The entry that a group of texts gives. -/
def entryOf (pfmri : PkgFmri) (texts : List (List Char)) : Option Entry :=
  if texts.isEmpty then none else some ⟨⟨none, [], some texts⟩, versionText pfmri⟩

/-- The loop over the groups stores the texts of each part. -/
theorem storeGroups_triple (pfmri : PkgFmri) (groups : Groups) (start : State)
    (hnodup : (groups.parts.map Prod.fst).Nodup)
    (hfresh : ∀ name, name ≠ basePart → (start.getPart name).getEntry pfmri = .ok none) :
    Program.Triple (fun state ↦ state = start)
      (Program.forEach (fun entry ↦ if entry.2.isEmpty then pure ()
        else addEntry entry.1 pfmri ⟨none, [], some entry.2⟩) groups.parts)
      (fun _ state ↦ Extends pfmri start state ∧ state.getPart basePart = start.getPart basePart ∧
        ∀ name, name ≠ basePart →
          (state.getPart name).getEntry pfmri = .ok (entryOf pfmri (groups.textsOf name)))
      (fun _ state ↦ Extends pfmri start state) := by
  refine (Program.Triple.forEach (I := fun before state ↦ Extends pfmri start state ∧
    state.getPart basePart = start.getPart basePart ∧ ∀ name, name ≠ basePart →
      (state.getPart name).getEntry pfmri =
        .ok (entryOf pfmri ((before.lookup name).getD []))) ?_).weaken
    ?_ (fun _ _ h ↦ h) (fun _ _ h ↦ h)
  · intro before entry after hlist
    have hkeys : entry.1 ∉ before.map Prod.fst ∧ entry.1 ≠ basePart := by
      have hbase := groups.basePart_notMem_parts
      rw [hlist, List.map_append, List.map_cons] at hnodup hbase
      refine ⟨fun hmem ↦ (List.disjoint_of_nodup_append hnodup) hmem List.mem_cons_self,
        fun heq ↦ ?_⟩
      exact hbase (heq ▸ List.mem_append_right _ List.mem_cons_self)
    refine Program.Triple.of_start fun middle hmiddle ↦ ?_
    have hother : ∀ name, name ≠ entry.1 →
        (before ++ [entry]).lookup name = before.lookup name := by
      intro name hname
      rw [List.lookup_append, List.lookup_cons, beq_eq_false_iff_ne.mpr hname]
      exact Option.or_none
    have hnone : before.lookup entry.1 = none := List.lookup_eq_none_iff.mpr fun found hfound ↦
      bne_iff_ne.mpr fun heq ↦ hkeys.1 (heq ▸ List.mem_map_of_mem hfound)
    have hself : (before ++ [entry]).lookup entry.1 = some entry.2 := by
      rw [List.lookup_append, hnone, Option.none_or]
      exact List.lookup_cons_self
    by_cases hempty : entry.2.isEmpty = true
    · rw [if_pos hempty]
      refine Program.Triple.pure fun state h ↦ h ▸ ⟨hmiddle.1, hmiddle.2.1, fun name hname ↦ ?_⟩
      rw [hmiddle.2.2 name hname]
      by_cases hentry : name = entry.1
      · rw [hentry, hself, hnone, Option.getD_some, Option.getD_none, List.isEmpty_iff.mp hempty]
      · rw [hother name hentry]
    · rw [if_neg hempty]
      refine (addEntry_triple entry.1 pfmri _ middle).weaken (fun _ h ↦ h) ?_
        fun _ state h ↦ hmiddle.1.trans h.2
      rintro - state ⟨hframe, hextends, -, hadded⟩
      refine ⟨hmiddle.1.trans hextends, ?_, fun name hname ↦ ?_⟩
      · rw [hframe.others _ hkeys.2.symm, hmiddle.2.1]
      · by_cases hentry : name = entry.1
        · rw [hentry, hadded, hself, Option.getD_some, entryOf, if_neg hempty]
        · rw [hframe.others _ hentry, hother name hentry, hmiddle.2.2 name hname]
  · rintro state rfl
    exact ⟨Extends.refl _ _, rfl, hfresh⟩

/-- A step that makes the base part grow loses no package of it. -/
theorem Frame.based {before after : State} (h : Frame basePart before after)
    (hextends : Extends pfmri before after) (hbased : before.Based) : after.Based := by
  intro name pub stem version hhas
  by_cases hname : name = basePart
  · exact hname ▸ hhas
  · rw [h.others name hname] at hhas
    exact (hextends.grown basePart).keeps _ _ _ (hbased name pub stem version hhas)

/-- A package that the base part lacks has no entry anywhere. -/
theorem Based.getEntry_eq_none {state : State} (h : state.Based)
    (hbase : (state.getPart basePart).getEntry pfmri = .ok none) (name : List Char) :
    (state.getPart name).getEntry pfmri = .ok none := by
  obtain ⟨pub, hpub⟩ := CatalogPart.exists_publisherOf hbase
  rw [CatalogPart.getEntry_eq_none_iff hpub] at hbase ⊢
  exact fun hhas ↦ hbase (h name _ _ _ hhas)

theorem getPart_finalize (state : State) (name : List Char) :
    (if state.batchMode then state else state.finalize).getPart name = state.getPart name := by
  split_ifs <;> rfl

/-- What `addPackage` does: the other parts still have no package that the base part lacks, and if
it returns, then the package has an entry in the base part and one for each group with texts. -/
theorem addPackage_triple (pfmri : PkgFmri) (manifest : Option Manifest)
    (metadata : Option (List (String × String))) {start : State} (hbased : start.Based) :
    Program.Triple (fun state ↦ state = start) (addPackage pfmri manifest metadata)
      (fun _ state ↦ state.Based ∧ state.manifestCb = start.manifestCb ∧
        (state.getPart basePart).getEntry pfmri =
          .ok (some { baseEntry manifest metadata with version := versionText pfmri }) ∧
        ∃ groups, (∀ found ∈ manifest, groupActions (storedActions found) = .ok groups) ∧
          (manifest = none → groups = ⟨[], []⟩) ∧ ∀ name, name ≠ basePart →
            (state.getPart name).getEntry pfmri = .ok (entryOf pfmri (groups.textsOf name)))
      (fun _ state ↦ state.Based) := by
  unfold addPackage
  refine Program.Triple.bind ((addEntry_triple basePart pfmri _ start).weaken (fun _ h ↦ h)
    (fun _ _ h ↦ h) fun _ state h ↦ h.1.based h.2 hbased) fun _ ↦ ?_
  refine Program.Triple.of_start fun middle ⟨hframe, hextends, hnone, hadded⟩ ↦ ?_
  have hfresh : ∀ name, name ≠ basePart → (middle.getPart name).getEntry pfmri = .ok none :=
    fun name hname ↦ by rw [hframe.others name hname, hbased.getEntry_eq_none hnone name]
  have hmiddle := hframe.based hextends hbased
  have hlater : ∀ state, Extends pfmri middle state → state.Based := fun state h ↦
    h.based hmiddle fun pub hpub ↦ (h.grown basePart).keeps _ _ _
      (CatalogPart.has_of_getEntry hadded hpub)
  have hfinal : ∀ state : State, state.Based →
      (if state.batchMode then state else state.finalize).Based := by
    intro state h name
    rw [getPart_finalize, getPart_finalize]
    exact h name
  have hcb : ∀ state : State,
      (if state.batchMode then state else state.finalize).manifestCb = state.manifestCb :=
    fun state ↦ by split_ifs <;> rfl
  cases manifest with
  | none =>
    refine Program.Triple.modify fun state h ↦ ⟨h ▸ hfinal _ hmiddle, ?_, ?_, ⟨[], []⟩, by simp,
      fun _ ↦ rfl, fun name hname ↦ ?_⟩
    · rw [hcb, h, hextends.manifestCb]
    · rw [getPart_finalize, h, hadded]
    · rw [getPart_finalize, h, hfresh name hname, Groups.textsOf_nil]
      rfl
  | some manifest =>
    refine Program.Triple.bind (M := fun groups state ↦
      groupActions (storedActions manifest) = .ok groups ∧ state = middle)
      (Program.Triple.lift (fun _ _ hgroups h ↦ ⟨hgroups, h⟩) fun _ _ _ h ↦ h ▸ hmiddle)
      fun groups ↦ Program.Triple.assume fun hgroups ↦ ?_
    have hnodup :=
      Groups.nodup_parts ((grouped_groupActions hgroups).nodup (List.nodup_singleton _))
    refine Program.Triple.bind ((storeGroups_triple pfmri groups middle hnodup hfresh).weaken
      (fun _ h ↦ h) (fun _ _ h ↦ h) fun _ state h ↦ hlater state h) fun _ ↦ ?_
    refine Program.Triple.modify fun state ⟨hgrown, hbase, hstored⟩ ↦
      ⟨hfinal _ (hlater _ hgrown), ?_, ?_,
      groups, by simpa using hgroups, by simp, fun name hname ↦ ?_⟩
    · rw [hcb, hgrown.manifestCb, hextends.manifestCb]
    · rw [getPart_finalize, hbase, hadded]
    · rw [getPart_finalize, hstored name hname]

theorem based_addPackage {start : State} (h : start.Based) (pfmri : PkgFmri)
    (manifest : Option Manifest) (metadata : Option (List (String × String))) :
    (Program.exec (addPackage pfmri manifest metadata) start).2.Based := by
  have hrun := addPackage_triple pfmri manifest metadata h start rfl
  rcases hexec : Program.exec (addPackage pfmri manifest metadata) start with ⟨error | value,
    next⟩ <;>
    rw [hexec] at hrun
  · exact hrun
  · exact hrun.1

end State

/-- A catalog, whose other parts have no package that the base part lacks. -/
structure BasedCatalog where
  state : State
  based : state.Based

/-- `catalog.add_package(pfmri, manifest, metadata)`: whether it returns, and the catalog after it.
-/
def BasedCatalog.addPackage (self : BasedCatalog) (pfmri : PkgFmri) (manifest : Option Manifest)
    (metadata : Option (List (String × String))) : Except Error Unit × BasedCatalog :=
  let run := Program.exec (State.addPackage pfmri manifest metadata) self.state
  (run.1, ⟨run.2, State.based_addPackage self.based pfmri manifest metadata⟩)

/-- What a package is stored as after an addition that returned. -/
structure Stored (pfmri : PkgFmri) (manifest : Option Manifest)
    (metadata : Option (List (String × String))) (groups : Groups) (state : State) : Prop where
  grouped : ∀ found ∈ manifest, groupActions (State.storedActions found) = .ok groups
  nothing : manifest = none → groups = ⟨[], []⟩
  base : (state.getPart basePart).getEntry pfmri =
    .ok (some { State.baseEntry manifest metadata with version := versionText pfmri })
  others : ∀ name, name ≠ basePart →
    (state.getPart name).getEntry pfmri = .ok (State.entryOf pfmri (groups.textsOf name))

theorem addPackage_ok {catalog after : BasedCatalog} {pfmri : PkgFmri} {manifest : Option Manifest}
    {metadata : Option (List (String × String))}
    (h : catalog.addPackage pfmri manifest metadata = (.ok (), after)) :
    after.state.manifestCb = catalog.state.manifestCb ∧
      ∃ groups, Stored pfmri manifest metadata groups after.state := by
  have hrun := State.addPackage_triple pfmri manifest metadata catalog.based catalog.state rfl
  obtain ⟨hresult, rfl⟩ := Prod.mk.inj h
  rw [Program.exec_eq_of_result hresult] at hrun
  obtain ⟨-, hcb, hbase, groups, hgrouped, hnothing, hothers⟩ := hrun
  exact ⟨hcb, groups, hgrouped, hnothing, hbase, hothers⟩

end Userland.Pkg.Catalog
