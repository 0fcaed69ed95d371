import Userland.Pkg.Actions.Kinds
import Userland.Pkg.Text

/-!
# The content of a manifest

`Manifest.set_content` splits a text into lines, joins those that end in a backslash with the next
one, and builds an action from each that is not blank and no comment. The errors of
`actions.fromstr` are gathered and raised at the end.

Every logical line is accounted for exactly where the text does not end in the middle of one, and
nothing raises anything else (`setContent_accounts_iff`).

Scope. The text is a `str`. `actions.fromstr`, which yields an action or raises, is a parameter.
Signatures are left out.
-/

set_option autoImplicit false
set_option relaxedAutoImplicit false

namespace Userland.Pkg.Content

open Actions

/-- What `actions.fromstr` raises: an `ActionError` with its message, or another exception. -/
inductive FromStrError
  | actionError (message : List Char)
  | other
deriving DecidableEq

/-- An `ActionError` with the number of the line where it was raised. -/
structure LineError where
  lineno : ℕ
  message : List Char
deriving DecidableEq

inductive Raised
  | invalidPackageErrors (errors : List LineError)
  | other
deriving DecidableEq

/-- `Manifest`: its actions, these by type, the values of variants and facets, and the attributes of
the package. -/
structure Manifest where
  actions : List Action
  actionsByType : List (List Char × List Action)
  variants : List (List Char × List (List Char))
  facets : List (List Char × List (List Char))
  attributes : List (AttrValue × AttrValue)

namespace Manifest

/-- The manifest at the start of `set_content`. -/
def empty : Manifest :=
  ⟨[], [], [], [], []⟩

/-- `d.setdefault(key, []).append(value)` -/
def addTo {κ ν : Type} [BEq κ] (entries : List (κ × List ν)) (key : κ) (value : ν) :
    List (κ × List ν) :=
  Library.Dict.set entries key (((entries.lookup key).getD []) ++ [value])

/-- The key of the attribute that a `set` action gives. -/
def attributeKey (name : List Char) : AttrValue :=
  .str (if name = "fmri".toList then "pkg.fmri".toList else name)

/-- `fill_attributes(action)`, which fails for a name that is a list. -/
def fillAttributes (self : Manifest) (action : Action) : Option Manifest :=
  match action.get "name".toList with
  | none => some self
  | some (.list _) => none
  | some (.str name) =>
    if (self.attributes.lookup (attributeKey name)).isSome then some self
    else
      match action.get "value".toList with
      | none => some self
      | some value =>
        some { self with attributes := self.attributes ++ [(attributeKey name, value)] }

end Manifest

/-- The attributes with a prefix in their names. -/
def tagged (action : Action) (prefixed : List Char) : List (List Char × AttrValue) :=
  action.attrs.filter fun attr ↦ prefixed.isPrefixOf attr.1

/-- The values of variants or facets, with those of an action. A list cannot be put into a set. -/
def addTags (entries : List (List Char × List (List Char))) :
    List (List Char × AttrValue) → Option (List (List Char × List (List Char)))
  | [] => some entries
  | (_, .list _) :: _ => none
  | (key, .str value) :: rest =>
    addTags (Library.Dict.set entries key (List.insert value ((entries.lookup key).getD []))) rest

/-- The action with the variant that stands for an attribute of old packages. -/
def zoned (action : Action) : Action :=
  match action.get "opensolaris.zone".toList, action.get "variant.opensolaris.zone".toList with
  | some zone, none => action.setAttr "variant.opensolaris.zone".toList zone
  | _, _ => action

/-- The action with `publisher` for the old name `authority`. -/
def renamed (action : Action) : Action :=
  if action.name = "set".toList ∧ action.get "name".toList = some (.str "authority".toList) then
    action.setAttr "name".toList (.str "publisher".toList)
  else action

/-- The action with a path that has no slashes at the front. -/
def relative (action : Action) : Action :=
  match action.get "path".toList with
  | some (.str path) => action.setAttr "path".toList (.str (path.dropWhile (· = '/')))
  | _ => action

/-- An action as it is put into the manifest. -/
def transformed (action : Action) : Action :=
  relative (renamed (zoned action))

/-- Whether the changes to an action raise: a `set` action lacks a name, or there are several paths.
-/
def transformFails (action : Action) : Bool :=
  (action.name = "set".toList ∧ action.get "name".toList = none) ||
    match action.get "path".toList with
    | some (.list _) => true
    | _ => false

/-- `action.include_this(excludes)` -/
def includeThis (action : Action) (excludes : List (Action → Bool)) : Bool :=
  excludes.all fun c ↦ c action

/-- What `__add_action` does behind the line that appends the action, and whether it raises. -/
def addVarcets (self : Manifest) (action : Action) : Manifest × Bool :=
  match if action.name = "set".toList then self.fillAttributes action else some self with
  | none => (self, true)
  | some filled =>
    match addTags filled.variants (tagged action "variant.".toList) with
    | none => (filled, true)
    | some variants =>
      match addTags filled.facets (tagged action "facet.".toList) with
      | none => ({ filled with variants := variants }, true)
      | some facets => ({ filled with variants := variants, facets := facets }, false)

/-- `__add_action(action, excludes)`: the manifest, and whether it raises. -/
def addAction (excludes : List (Action → Bool)) (self : Manifest) (action : Action) :
    Manifest × Bool :=
  if transformFails action then (self, true)
  else
    let action := transformed action
    if includeThis action excludes then
      addVarcets { self with
        actions := self.actions ++ [action]
        actionsByType := Manifest.addTo self.actionsByType action.name action } action
    else (self, false)

/-! ### Lines -/

/-- `s.splitlines()` -/
def splitlines : List Char → List (List Char)
  | [] => []
  | '\r' :: '\n' :: rest => [] :: splitlines rest
  | c :: rest =>
    if c = '\n' ∨ c = '\r' then [] :: splitlines rest
    else
      match splitlines rest with
      | [] => [[c]]
      | first :: more => (c :: first) :: more

/-- `l.lstrip()` -/
def lstrip (l : List Char) : List Char :=
  l.dropWhile Text.isSpace

/-- `l.endswith("\\")` -/
def continues (l : List Char) : Bool :=
  l.getLast? == some backslash

/-- `not l or l[0] == "#"` -/
def ignored (l : List Char) : Bool :=
  l.isEmpty || l.head? == some '#'

section

variable (fromstr : List Char → Except FromStrError Action)

/-- `__content_to_actions(content)`: the actions that it yields, and what it raises in the end. -/
def contentToActions (accumulate : List Char) (lineno : ℕ) (errors : List LineError) :
    List (List Char) → List Action × Option Raised
  | [] => ([], if errors.isEmpty then none else some (.invalidPackageErrors errors))
  | line :: rest =>
    let l := lstrip line
    if continues l then contentToActions (accumulate ++ l.dropLast) (lineno + 1) errors rest
    else
      let l := accumulate ++ l
      if ignored l then contentToActions [] (lineno + 1) errors rest
      else
        match fromstr l with
        | .ok action =>
          let later := contentToActions [] (lineno + 1) errors rest
          (action :: later.1, later.2)
        | .error (.actionError message) =>
          contentToActions [] (lineno + 1) (errors ++ [⟨lineno + 1, message⟩]) rest
        | .error .other => ([], some .other)

/-- The loop of `set_content` over what a generator yields. -/
def addActions (excludes : List (Action → Bool)) (self : Manifest) (raised : Option Raised) :
    List Action → Manifest × Option Raised
  | [] => (self, raised)
  | action :: rest =>
    match addAction excludes self action with
    | (self, true) => (self, some .other)
    | (self, false) => addActions excludes self raised rest

/-- `set_content(content, excludes)`: the manifest and what is raised. -/
def setContent (content : List Char) (excludes : List (Action → Bool)) : Manifest × Option Raised :=
  let generated := contentToActions fromstr [] 0 [] (splitlines content)
  addActions excludes .empty generated.2 generated.1

end

/-! ### Logical lines -/

/-- The physical lines of a text, joined over the backslashes at their ends; a line may end in one
at the end of the text too. -/
def logicalLines : List (List Char) → List (List Char)
  | [] => []
  | line :: rest =>
    let l := lstrip line
    if continues l then
      match logicalLines rest with
      | [] => [l.dropLast]
      | first :: more => (l.dropLast ++ first) :: more
    else l :: logicalLines rest

/-- The logical lines of a text that are not blank and no comments. -/
def relevantLines (content : List Char) : List (List Char) :=
  (logicalLines (splitlines content)).filter fun l ↦ !ignored l

/-- Whether the last physical line ends in a backslash. -/
def EndsOpen (lines : List (List Char)) : Prop :=
  ∃ line ∈ lines.getLast?, continues (lstrip line) = true

/-- The logical lines that the loop comes to, with what it has accumulated. -/
def joinedLines (accumulate : List Char) : List (List Char) → List (List Char)
  | [] => []
  | line :: rest =>
    let l := lstrip line
    if continues l then joinedLines (accumulate ++ l.dropLast) rest
    else (accumulate ++ l) :: joinedLines [] rest

theorem logicalLines_ne_nil {lines : List (List Char)} (h : lines ≠ []) :
    logicalLines lines ≠ [] := by
  cases lines with
  | nil => exact absurd rfl h
  | cons line rest =>
    rw [logicalLines]
    split_ifs
    · cases logicalLines rest <;> exact List.cons_ne_nil _ _
    · exact List.cons_ne_nil _ _

theorem endsOpen_cons_of_ne_nil {line : List Char} {rest : List (List Char)} (h : rest ≠ []) :
    EndsOpen (line :: rest) ↔ EndsOpen rest := by
  rw [EndsOpen, EndsOpen, List.getLast?_cons_of_ne_nil h]

/-- The loop comes to all logical lines, but for one that goes on at the end of the text. -/
theorem joinedLines_eq (accumulate : List Char) (lines : List (List Char)) :
    (EndsOpen lines → joinedLines accumulate lines =
      ((logicalLines lines).modifyHead (accumulate ++ ·)).dropLast) ∧
    (¬EndsOpen lines → joinedLines accumulate lines = (logicalLines lines).modifyHead
      (accumulate ++ ·)) := by
  induction lines generalizing accumulate with
  | nil => exact ⟨fun _ ↦ rfl, fun _ ↦ rfl⟩
  | cons line rest ih =>
    rw [joinedLines, logicalLines]
    by_cases hcontinues : continues (lstrip line) = true
    · rw [if_pos hcontinues, if_pos hcontinues]
      cases rest with
      | nil =>
        have hopen : EndsOpen [line] := ⟨line, rfl, hcontinues⟩
        exact ⟨fun _ ↦ rfl, fun hclosed ↦ absurd hopen hclosed⟩
      | cons next rest =>
        rw [endsOpen_cons_of_ne_nil (List.cons_ne_nil next rest)]
        have hrest := ih (accumulate ++ (lstrip line).dropLast)
        cases hlogical : logicalLines (next :: rest) with
        | nil => exact absurd hlogical (logicalLines_ne_nil (List.cons_ne_nil next rest))
        | cons first more =>
          rw [hlogical, List.modifyHead_cons, List.append_assoc] at hrest
          exact hrest
    · rw [if_neg hcontinues, if_neg hcontinues]
      obtain ⟨hopen, hclosed⟩ := ih []
      have hself : (logicalLines rest).modifyHead ([] ++ ·) = logicalLines rest := by
        cases logicalLines rest <;> rfl
      rw [hself] at hopen hclosed
      rw [List.modifyHead_cons]
      cases rest with
      | nil =>
        refine ⟨fun ⟨last, hlast, hyes⟩ ↦ ?_, fun _ ↦ rfl⟩
        rw [List.getLast?_singleton, Option.mem_some] at hlast
        exact absurd (hlast ▸ hyes) hcontinues
      | cons next rest =>
        rw [endsOpen_cons_of_ne_nil (List.cons_ne_nil next rest)]
        refine ⟨fun h ↦ ?_, fun h ↦ congrArg (_ :: ·) (hclosed h)⟩
        rw [List.dropLast_cons_of_ne_nil (logicalLines_ne_nil (List.cons_ne_nil next rest)),
          hopen h]

theorem joinedLines_nil (lines : List (List Char)) :
    (EndsOpen lines → joinedLines [] lines = (logicalLines lines).dropLast) ∧
      (¬EndsOpen lines → joinedLines [] lines = logicalLines lines) := by
  have hself : (logicalLines lines).modifyHead ([] ++ ·) = logicalLines lines := by
    cases logicalLines lines <;> rfl
  have hjoined := joinedLines_eq [] lines
  rwa [hself] at hjoined

/-! ### What the generator yields -/

def actionOf (parsed : Except FromStrError Action) : Option Action :=
  match parsed with
  | .ok action => some action
  | .error _ => none

def messageOf (parsed : Except FromStrError Action) : Option (List Char) :=
  match parsed with
  | .error (.actionError message) => some message
  | _ => none

/-- What is raised in the end. -/
def raisedFor (errors : List LineError) : Option Raised :=
  if errors.isEmpty then none else some (.invalidPackageErrors errors)

section

variable {fromstr : List Char → Except FromStrError Action}

/-- The generator yields the actions of the lines that it comes to and raises their errors, if
nothing else is raised. -/
theorem contentToActions_spec (accumulate : List Char) (lineno : ℕ) (errors : List LineError)
    (lines : List (List Char))
    (h : ∀ l ∈ joinedLines accumulate lines, ignored l = false → fromstr l ≠ .error .other) :
    ∃ more : List LineError,
      more.map LineError.message =
        ((joinedLines accumulate lines).filter fun l ↦ !ignored l).filterMap (fun l ↦
          messageOf (fromstr l)) ∧
      contentToActions fromstr accumulate lineno errors lines =
        (((joinedLines accumulate lines).filter fun l ↦ !ignored l).filterMap (fun l ↦
          actionOf (fromstr l)), raisedFor (errors ++ more)) := by
  induction lines generalizing accumulate lineno errors with
  | nil => exact ⟨[], rfl, by rw [List.append_nil]; rfl⟩
  | cons line rest ih =>
    rw [joinedLines] at h ⊢
    rw [contentToActions]
    by_cases hcontinues : continues (lstrip line) = true
    · dsimp only at h ⊢
      rw [if_pos hcontinues] at h ⊢
      rw [if_pos hcontinues]
      exact ih _ _ _ h
    · dsimp only at h ⊢
      rw [if_neg hcontinues] at h ⊢
      rw [if_neg hcontinues]
      have hrest : ∀ l ∈ joinedLines [] rest, ignored l = false → fromstr l ≠ .error .other :=
        fun l hl ↦ h l (List.mem_cons_of_mem _ hl)
      by_cases hignored : ignored (accumulate ++ lstrip line) = true
      · rw [if_pos hignored, List.filter_cons_of_neg (by rw [hignored]; exact Bool.false_ne_true)]
        exact ih [] _ _ hrest
      · rw [if_neg hignored, List.filter_cons_of_pos (by simpa using hignored), List.filterMap_cons,
          List.filterMap_cons]
        cases hparsed : fromstr (accumulate ++ lstrip line) with
        | ok action =>
          obtain ⟨more, hmore, hgenerated⟩ := ih [] (lineno + 1) errors hrest
          refine ⟨more, hmore, ?_⟩
          dsimp only
          rw [hgenerated]
          rfl
        | error e =>
          cases e with
          | other => exact absurd hparsed (h _ List.mem_cons_self (by simpa using hignored))
          | actionError message =>
            obtain ⟨more, hmore, hgenerated⟩ :=
              ih [] (lineno + 1) (errors ++ [⟨lineno + 1, message⟩]) hrest
            refine ⟨⟨lineno + 1, message⟩ :: more, congrArg (message :: ·) hmore, ?_⟩
            rw [List.append_assoc] at hgenerated
            exact hgenerated

end

/-! ### What is added -/

/-- Whether adding an action raises: by the changes to it, or, where it is selected, by a `set`
action with a list for a name or by a variant or facet with a list. -/
def AddFails (excludes : List (Action → Bool)) (action : Action) : Prop :=
  transformFails action = true ∨
    includeThis (transformed action) excludes = true ∧
      (((transformed action).name = "set".toList ∧
          ∃ names, (transformed action).get "name".toList = some (.list names)) ∨
        ∃ attr ∈ tagged (transformed action) "variant.".toList ++
          tagged (transformed action) "facet.".toList, ∃ values, attr.2 = .list values)

theorem addTags_eq_none_iff (entries : List (List Char × List (List Char)))
    (tags : List (List Char × AttrValue)) :
    addTags entries tags = none ↔ ∃ attr ∈ tags, ∃ values, attr.2 = .list values := by
  induction tags generalizing entries with
  | nil => exact iff_of_false nofun fun ⟨_, h, _⟩ ↦ nomatch h
  | cons attr rest ih =>
    obtain ⟨key, value | values⟩ := attr
    · rw [addTags, ih, List.exists_mem_cons_iff, or_iff_right fun ⟨_, h⟩ ↦ nomatch h]
    · exact iff_of_true rfl ⟨_, List.mem_cons_self, values, rfl⟩

theorem fillAttributes_eq_none_iff (self : Manifest) (action : Action) :
    self.fillAttributes action = none ↔ ∃ names, action.get "name".toList = some (.list names) := by
  rw [Manifest.fillAttributes]
  cases action.get "name".toList with
  | none => exact iff_of_false nofun fun ⟨_, h⟩ ↦ nomatch h
  | some value =>
    cases value with
    | list names => exact iff_of_true rfl ⟨names, rfl⟩
    | str name =>
      refine iff_of_false (fun h ↦ ?_) fun ⟨_, h⟩ ↦ nomatch h
      dsimp only at h
      split_ifs at h
      cases hvalue : action.get "value".toList with
      | none => rw [hvalue] at h; cases h
      | some value => rw [hvalue] at h; cases h

theorem fillAttributes_actions {self filled : Manifest} {action : Action}
    (h : self.fillAttributes action = some filled) : filled.actions = self.actions := by
  rw [Manifest.fillAttributes] at h
  cases hname : action.get "name".toList with
  | none =>
    rw [hname] at h
    cases h
    rfl
  | some value =>
    rw [hname] at h
    cases value with
    | list names => cases h
    | str name =>
      dsimp only at h
      split_ifs at h
      · cases h
        rfl
      · cases hvalue : action.get "value".toList with
        | none =>
          rw [hvalue] at h
          cases h
          rfl
        | some value =>
          rw [hvalue] at h
          cases h
          rfl

theorem addVarcets_spec (self : Manifest) (action : Action) :
    (addVarcets self action).1.actions = self.actions ∧
      ((addVarcets self action).2 = true ↔
        (action.name = "set".toList ∧ ∃ names, action.get "name".toList = some (.list names)) ∨
          ∃ attr ∈ tagged action "variant.".toList ++ tagged action "facet.".toList,
            ∃ values, attr.2 = .list values) := by
  rw [addVarcets]
  have hfill : (if action.name = "set".toList then self.fillAttributes action
      else some self) = none ↔
      action.name = "set".toList ∧ ∃ names, action.get "name".toList = some (.list names) := by
    split_ifs with hset
    · rw [fillAttributes_eq_none_iff]
      exact (and_iff_right hset).symm
    · exact iff_of_false nofun fun h ↦ hset h.1
  cases hfilled : if action.name = "set".toList then self.fillAttributes action else some self with
  | none => exact ⟨rfl, iff_of_true rfl (Or.inl (hfill.mp hfilled))⟩
  | some filled =>
    have hset : ¬(action.name = "set".toList ∧ ∃ names,
        action.get "name".toList = some (.list names)) := by
      rw [← hfill, hfilled]
      exact nofun
    have hactions : filled.actions = self.actions := by
      split_ifs at hfilled
      · exact fillAttributes_actions hfilled
      · cases hfilled
        rfl
    rw [or_iff_right hset]
    dsimp only
    cases hvariants : addTags filled.variants (tagged action "variant.".toList) with
    | none =>
      obtain ⟨attr, hattr, hlist⟩ := (addTags_eq_none_iff _ _).mp hvariants
      exact ⟨hactions, iff_of_true rfl ⟨attr, List.mem_append_left _ hattr, hlist⟩⟩
    | some variants =>
      cases hfacets : addTags filled.facets (tagged action "facet.".toList) with
      | none =>
        obtain ⟨attr, hattr, hlist⟩ := (addTags_eq_none_iff _ _).mp hfacets
        exact ⟨hactions, iff_of_true rfl ⟨attr, List.mem_append_right _ hattr, hlist⟩⟩
      | some facets =>
        refine ⟨hactions, iff_of_false Bool.false_ne_true fun ⟨attr, hattr, hlist⟩ ↦ ?_⟩
        rcases List.mem_append.mp hattr with hattr | hattr
        · rw [(addTags_eq_none_iff _ _).mpr ⟨attr, hattr, hlist⟩] at hvariants
          cases hvariants
        · rw [(addTags_eq_none_iff _ _).mpr ⟨attr, hattr, hlist⟩] at hfacets
          cases hfacets

theorem addAction_fails_iff (excludes : List (Action → Bool)) (self : Manifest) (action : Action) :
    (addAction excludes self action).2 = true ↔ AddFails excludes action := by
  rw [addAction, AddFails]
  by_cases hfails : transformFails action = true
  · rw [if_pos hfails]
    exact iff_of_true rfl (Or.inl hfails)
  · rw [if_neg hfails, or_iff_right hfails]
    dsimp only
    by_cases hincluded : includeThis (transformed action) excludes = true
    · rw [if_pos hincluded, and_iff_right hincluded]
      exact (addVarcets_spec _ _).2
    · rw [if_neg hincluded]
      exact iff_of_false Bool.false_ne_true fun h ↦ hincluded h.1

variable {excludes : List (Action → Bool)}

theorem addAction_actions {self : Manifest} {action : Action}
    (h : ¬AddFails excludes action) : (addAction excludes self action).1.actions =
      self.actions ++ [transformed action].filter fun added ↦ includeThis added excludes := by
  have hfails : ¬transformFails action = true := fun hyes ↦ h (Or.inl hyes)
  rw [addAction, if_neg hfails]
  dsimp only
  by_cases hincluded : includeThis (transformed action) excludes = true
  · rw [if_pos hincluded, (addVarcets_spec _ _).1, List.filter_singleton, hincluded]
    rfl
  · rw [if_neg hincluded, List.filter_singleton, (Bool.not_eq_true _).mp hincluded]
    exact (List.append_nil _).symm

/-- Without a failure the actions are added in order, and the generator raises what it raises. -/
theorem addActions_spec (excludes : List (Action → Bool)) (self : Manifest) (raised : Option Raised)
    {actions : List Action} (h : ∀ action ∈ actions, ¬AddFails excludes action) :
    (addActions excludes self raised actions).1.actions =
        self.actions ++ (actions.map transformed).filter (fun added ↦ includeThis added excludes) ∧
      (addActions excludes self raised actions).2 = raised := by
  induction actions generalizing self with
  | nil => exact ⟨(List.append_nil _).symm, rfl⟩
  | cons action rest ih =>
    have hok := h action List.mem_cons_self
    have hactions : (addAction excludes self action).1.actions =
        self.actions ++ [transformed action].filter fun added ↦ includeThis added excludes :=
      addAction_actions hok
    rw [← addAction_fails_iff excludes self] at hok
    rw [addActions]
    cases hadd : addAction excludes self action with
    | mk added fails =>
      rw [hadd] at hok hactions
      cases fails with
      | true => exact absurd rfl hok
      | false =>
        obtain ⟨hrest, hraised⟩ := ih added fun other hother ↦
          h other (List.mem_cons_of_mem action hother)
        refine ⟨?_, hraised⟩
        dsimp only at hactions ⊢
        rw [hrest, hactions, List.append_assoc, ← List.filter_append]
        rfl

theorem addActions_raised (excludes : List (Action → Bool)) (self : Manifest)
    (raised : Option Raised)
    {actions : List Action} (h : ∃ action ∈ actions, AddFails excludes action) :
    (addActions excludes self raised actions).2 = some .other := by
  induction actions generalizing self with
  | nil => exact absurd h fun ⟨_, hmem, _⟩ ↦ nomatch hmem
  | cons action rest ih =>
    rw [addActions]
    have hiff := addAction_fails_iff excludes self action
    cases hadd : addAction excludes self action with
    | mk added fails =>
      rw [hadd] at hiff
      cases fails with
      | true => rfl
      | false =>
        refine ih added ?_
        rw [List.exists_mem_cons_iff] at h
        exact h.resolve_left fun hfails ↦ Bool.false_ne_true (hiff.mpr hfails)

/-! ### Every line is accounted for -/

section

variable (fromstr : List Char → Except FromStrError Action)

/-- Each logical line that is not blank and no comment yields an action or an `ActionError`, the
actions are added in order, and the errors are raised in the end. -/
structure Accounts (content : List Char) (excludes : List (Action → Bool)) : Prop where
  tried : ∀ l ∈ relevantLines content, fromstr l ≠ .error .other
  yielded : (contentToActions fromstr [] 0 [] (splitlines content)).1 =
    (relevantLines content).filterMap fun l ↦ actionOf (fromstr l)
  added : (setContent fromstr content excludes).1.actions =
    (((relevantLines content).filterMap fun l ↦ actionOf (fromstr l)).map transformed).filter
      fun action ↦ includeThis action excludes
  raised : ∃ errors : List LineError,
    errors.map LineError.message = (relevantLines content).filterMap (fun l ↦
      messageOf (fromstr l)) ∧
      (setContent fromstr content excludes).2 = raisedFor errors

theorem raisedFor_injective {errors others : List LineError}
    (h : raisedFor errors = raisedFor others) :
    errors = others := by
  cases errors with
  | nil =>
    cases others with
    | nil => rfl
    | cons => cases h
  | cons =>
    cases others with
    | nil => cases h
    | cons => exact Raised.invalidPackageErrors.inj (Option.some.inj h)

theorem raisedFor_ne_other (errors : List LineError) : raisedFor errors ≠ some .other := by
  cases errors <;> exact nofun

/-- Whether the text does not end in a backslash behind a line that counts. -/
def Complete (content : List Char) : Prop :=
  EndsOpen (splitlines content) → ∀ l ∈ (logicalLines (splitlines content)).getLast?,
    ignored l = true

/-- The loop comes to all lines of a complete text that count. -/
theorem filter_joinedLines {content : List Char} (hend : Complete content) :
    (joinedLines [] (splitlines content)).filter (fun l ↦ !ignored l) = relevantLines content := by
  obtain ⟨hopen, hclosed⟩ := joinedLines_nil (splitlines content)
  by_cases h : EndsOpen (splitlines content)
  · rw [hopen h, relevantLines]
    cases hlast : (logicalLines (splitlines content)).getLast? with
    | none =>
      rw [List.getLast?_eq_none_iff.mp hlast]
      rfl
    | some l =>
      have hsplit := List.dropLast_append_getLast? l hlast
      conv_rhs => rw [← hsplit, List.filter_append, List.filter_singleton, hend h l hlast]
      exact (List.append_nil _).symm
  · rw [hclosed h, relevantLines]

variable {fromstr} in
theorem complete_of_accounts {content : List Char} (h : Accounts fromstr content excludes) :
    Complete content ∧
      ∀ l ∈ relevantLines content, ∀ action, fromstr l = .ok action →
      ¬AddFails excludes action := by
  have htried := h.tried
  obtain ⟨errors, hmessages, hraised⟩ := h.raised
  have hseen : ∀ l ∈ joinedLines [] (splitlines content), ignored l = false →
      fromstr l ≠ .error .other := by
    intro l hl hignored
    refine htried l (List.mem_filter.mpr ⟨?_, by rw [hignored]; rfl⟩)
    obtain ⟨hopen, hclosed⟩ := joinedLines_nil (splitlines content)
    by_cases hend : EndsOpen (splitlines content)
    · exact (List.dropLast_sublist _).subset (hopen hend ▸ hl)
    · exact hclosed hend ▸ hl
  obtain ⟨more, hmore, hgenerated⟩ := contentToActions_spec [] 0 [] (splitlines content) hseen
  have hfails : ∀ action ∈ (contentToActions fromstr [] 0 [] (splitlines content)).1,
      ¬AddFails excludes action := by
    intro action haction hyes
    rw [setContent, addActions_raised excludes .empty _ ⟨action, haction, hyes⟩] at hraised
    exact raisedFor_ne_other errors hraised.symm
  refine ⟨fun hend l hl ↦ ?_, fun l hl action haction ↦ hfails action ?_⟩
  · by_contra hignored
    have hrelevant : relevantLines content =
        (joinedLines [] (splitlines content)).filter (fun l ↦ !ignored l) ++ [l] := by
      rw [(joinedLines_nil (splitlines content)).1 hend, relevantLines]
      conv_lhs => rw [← List.dropLast_append_getLast? l hl, List.filter_append,
        List.filter_singleton]
      rw [(Bool.not_eq_true _).mp hignored]
      rfl
    have hyielded := h.yielded
    rw [setContent, (addActions_spec excludes .empty _ hfails).2, hgenerated,
      List.nil_append] at hraised
    rw [hrelevant, List.filterMap_append, ← raisedFor_injective hraised, hmore] at hmessages
    rw [hrelevant, List.filterMap_append, hgenerated] at hyielded
    have hnone := List.self_eq_append_right.mp hyielded
    have hnone' := List.self_eq_append_right.mp hmessages
    have hlast := htried l (hrelevant ▸ List.mem_append_right _ List.mem_cons_self)
    rw [List.filterMap_cons, List.filterMap_nil] at hnone hnone'
    cases hparsed : fromstr l with
    | ok action =>
      rw [hparsed] at hnone
      cases hnone
    | error e =>
      cases e with
      | other => exact hlast hparsed
      | actionError message =>
        rw [hparsed] at hnone'
        cases hnone'
  · rw [h.yielded, List.mem_filterMap]
    exact ⟨l, hl, by rw [haction]; rfl⟩

variable {fromstr} in
theorem accounts_of_complete {content : List Char} (hend : Complete content)
    (htried : ∀ l ∈ relevantLines content, fromstr l ≠ .error .other)
    (hadd : ∀ l ∈ relevantLines content, ∀ action, fromstr l = .ok action →
      ¬AddFails excludes action) :
    Accounts fromstr content excludes := by
  have hseen : ∀ l ∈ joinedLines [] (splitlines content), ignored l = false →
      fromstr l ≠ .error .other := by
    intro l hl hignored
    refine htried l (filter_joinedLines hend ▸ List.mem_filter.mpr ⟨hl, by rw [hignored]; rfl⟩)
  obtain ⟨more, hmore, hgenerated⟩ := contentToActions_spec [] 0 [] (splitlines content) hseen
  rw [filter_joinedLines hend] at hmore hgenerated
  have hfails : ∀ action ∈ (contentToActions fromstr [] 0 [] (splitlines content)).1,
      ¬AddFails excludes action := by
    intro action haction
    rw [hgenerated, List.mem_filterMap] at haction
    obtain ⟨l, hl, hparsed⟩ := haction
    refine hadd l hl action ?_
    cases hfromstr : fromstr l with
    | ok found =>
      rw [hfromstr] at hparsed
      exact congrArg _ (Option.some.inj hparsed)
    | error e =>
      rw [hfromstr] at hparsed
      cases hparsed
  obtain ⟨hadded, hraised⟩ := addActions_spec excludes .empty
    (contentToActions fromstr [] 0 [] (splitlines content)).2 hfails
  refine ⟨htried, by rw [hgenerated], ?_, more, hmore, ?_⟩
  · rw [setContent, hadded, hgenerated]
    rfl
  · rw [setContent, hraised, hgenerated]
    rfl

/-- Every logical line that is not blank and no comment is accounted for exactly where the text does
not end in a backslash behind such a line, `actions.fromstr` raises only `ActionError`s, and adding
the actions raises nothing. -/
theorem setContent_accounts_iff (content : List Char) (excludes : List (Action → Bool)) :
    Accounts fromstr content excludes ↔
      Complete content ∧ (∀ l ∈ relevantLines content, fromstr l ≠ .error .other) ∧
        ∀ l ∈ relevantLines content, ∀ action, fromstr l = .ok action → ¬AddFails excludes action :=
  ⟨fun h ↦ ⟨(complete_of_accounts h).1, h.tried, (complete_of_accounts h).2⟩,
    fun h ↦ accounts_of_complete h.1 h.2.1 h.2.2⟩

/-- A reader of one text, which gives the directory that stands in it. -/
def readDirectory (l : List Char) : Except FromStrError Action :=
  if l = "dir path=a".toList then
    .ok ⟨"dir".toList, none, [("path".toList, .str "a".toList)], List.nodup_singleton _⟩
  else .error (.actionError "malformed".toList)

/-- An action behind which the text ends in a backslash is dropped. -/
theorem setContent_drops : ¬Accounts readDirectory ("dir path=a".toList ++ [backslash]) [] :=
  fun h ↦ absurd h.yielded (by decide)

end

end Userland.Pkg.Content
