import Mathlib
import Userland.Library.Separated
import Userland.Pkg.Cfg.Document

/-!
# Groups and their users

`GroupFile` keeps the users of a group in a list that `adduser` and `subuser` split at blanks and
commas, and `getgroups` at commas only. `setgroups` takes a user out of the groups that `getgroups`
gives and are not asked for, and puts the user into those that are asked for and were not given.

It does what it is for exactly if `getgroups` sees the user in every group to be left, and if, when
a group does not exist, there is nothing to be done (`setsGroups_iff`).

Scope. A set is iterated over in an arbitrary order of its elements.
-/

set_option autoImplicit false
set_option relaxedAutoImplicit false

namespace Userland.Pkg.Cfg

open Library Library.Program

/-! ### The operations -/

/-- The characters between users for `adduser` and `subuser`. -/
def isSeparator (c : Char) : Bool :=
  Text.isSpace (if c = ',' then ' ' else c)

/-- `set(group["user-list"].replace(",", " ").split())`. -/
def users (list : List Char) : List (List Char) :=
  (words Text.isSpace (list.map fun c ↦ if c = ',' then ' ' else c)).dedup

/-- An order in which sets are iterated over. -/
structure SetOrder where
  order : List (List Char) → List (List Char)
  perm : ∀ elements, (order elements).Perm elements

/-- `template[name]`. -/
def column (template : Template (List Char)) (name : List Char) : Except Error (List Char) :=
  (template.lookup name).elim (.error .keyError) .ok

section Operations

variable (nextgid : List Char) (set : SetOrder)

/-- Changes the users of a group that exists. -/
def changeUsers (groupname : List Char)
    (change : List (List Char) → Except Error (List (List Char))) :
    Program (CfgFile (List Char)) Error Unit := do
  let group ← getvalue (groupFile nextgid) [("groupname".toList, groupname)]
  match group with
  | none => throw (.noSuchGroup groupname)
  | some group =>
    let list ← lift (column group "user-list".toList)
    let changed ← lift (change (users list))
    setvalue (groupFile nextgid) (Dict.set group "user-list".toList
      ([','].intercalate (set.order changed)))

/-- `adduser`. -/
def adduser (groupname username : List Char) : Program (CfgFile (List Char)) Error Unit :=
  changeUsers nextgid set groupname fun users ↦ .ok (users.insert username)

/-- `subuser`. -/
def subuser (groupname username : List Char) : Program (CfgFile (List Char)) Error Unit :=
  changeUsers nextgid set groupname fun users ↦
    if username ∈ users then .ok (users.erase username)
    else .error (.userNotInGroup username groupname)

/-- The groups among some records whose list has the user between commas. -/
def groupsOf (username : List Char) : List (Template (List Char)) → Except Error (List (List Char))
  | [] => .ok []
  | dic :: rest => do
    let list ← column dic "user-list".toList
    if username ∈ list.splitOn ',' then
      let groupname ← column dic "groupname".toList
      let others ← groupsOf username rest
      .ok (groupname :: others)
    else groupsOf username rest

/-- `getgroups`. -/
def getgroups (username : List Char) : Program (CfgFile (List Char)) Error (List (List Char)) := do
  let file ← get
  let groups ← lift (groupsOf username (file.index.filterMap fun entry ↦ entry.2.dic))
  pure (groups.insertionSort fun x y ↦ x ≤ y)

/-- `setgroups`. -/
def setgroups (username : List Char) (groups : List (List Char)) :
    Program (CfgFile (List Char)) Error Unit := do
  let current ← getgroups username
  let removals := current.dedup.filter fun g ↦ decide (g ∉ groups)
  let additions := groups.dedup.filter fun g ↦ decide (g ∉ current)
  forEach (fun g ↦ subuser nextgid set g username) (set.order removals)
  forEach (fun g ↦ adduser nextgid set g username) (set.order additions)

end Operations

/-! ### What the operations are for -/

/-- The users of a group, as the file has them. -/
def userList (file : CfgFile (List Char)) (groupname : List Char) : Option (List Char) :=
  ((file.index.lookup (.record [groupname])).bind fun entry ↦ entry.dic).bind fun dic ↦
    dic.lookup "user-list".toList

/-- The user is in the group, in a list with commas or blanks. -/
def Listed (file : CfgFile (List Char)) (user groupname : List Char) : Prop :=
  ∃ list, userList file groupname = some list ∧ user ∈ users list

/-- The user stands between commas in the list of the group. -/
def CommaListed (file : CfgFile (List Char)) (user groupname : List Char) : Prop :=
  ∃ list, userList file groupname = some list ∧ user ∈ list.splitOn ','

/-- The group has a record. -/
def Exists (file : CfgFile (List Char)) (groupname : List Char) : Prop :=
  userList file groupname ≠ none

/-- The entries of a group file: every record has all columns and stands under its name. -/
structure IsGroupFile (nextgid : List Char) (file : CfgFile (List Char)) : Prop where
  keyed : WellKeyed (groupFile nextgid) file.index
  nodup : (file.index.map Prod.fst).Nodup
  full : ∀ entry ∈ file.index, ∀ dic, entry.2.dic = some dic →
    ∀ name ∈ (groupFile nextgid).columnNames, (dic.lookup name).isSome

/-- A group file that was read or edited. -/
abbrev Groups (nextgid : List Char) := { file : CfgFile (List Char) // IsGroupFile nextgid file }

/-- A name that a list of users can have. -/
abbrev UserName := { name : List Char // name ≠ [] ∧ ∀ c ∈ name, isSeparator c = false }

/-- `setgroups` puts the user into the groups and out of all others and changes nothing else; it
fails and changes no record if a group does not exist. -/
structure SetsGroups (nextgid : List Char) (file : CfgFile (List Char)) (user : List Char)
    (groups : List (List Char)) (set : SetOrder) : Prop where
  succeeds : (∀ g ∈ groups, Exists file g) → ∃ next,
    (setgroups nextgid set user groups).exec file = (.ok (), next) ∧
      (∀ g, Listed next user g ↔ g ∈ groups) ∧
      ∀ other, other ≠ user → ∀ g, Listed next other g ↔ Listed file other g
  fails : (∃ g ∈ groups, ¬ Exists file g) → ∃ error next,
    (setgroups nextgid set user groups).exec file = (.error error, next) ∧
      ∀ key, next.index.lookup key = file.index.lookup key

/-- `getgroups` sees the user in every group to be left; if a group does not exist, the user is
between commas in exactly the groups that do. -/
def Settable (file : CfgFile (List Char)) (user : List Char) (groups : List (List Char)) : Prop :=
  ((∀ g ∈ groups, Exists file g) → ∀ g, g ∉ groups → Listed file user g → CommaListed file user g) ∧
    ((∃ g ∈ groups, ¬ Exists file g) → ∀ g, Exists file g → (CommaListed file user g ↔ g ∈ groups))

/-! ### Lists of users -/

theorem users_eq (list : List Char) : users list = (words isSeparator list).dedup := by
  have hwords : words Text.isSpace (list.map fun c ↦ if c = ',' then ' ' else c) =
      words (Text.isSpace ∘ fun c ↦ if c = ',' then ' ' else c) list := by
    refine words_map (fun c hc ↦ ?_) list
    split_ifs at hc ⊢ with hcomma
    · cases hc
    · rfl
  rw [users, hwords]
  rfl

theorem mem_users {list user : List Char} : user ∈ users list ↔ user ∈ words isSeparator list := by
  rw [users_eq, List.mem_dedup]

theorem userName_of_mem {list user : List Char} (h : user ∈ users list) :
    user ≠ [] ∧ ∀ c ∈ user, isSeparator c = false :=
  of_mem_words (mem_users.mp h)

theorem isSeparator_comma : isSeparator ',' = true := rfl

/-- Users that are joined are found again. -/
theorem mem_users_join {names : List (List Char)}
    (h : ∀ name ∈ names, name ≠ [] ∧ ∀ c ∈ name, isSeparator c = false) {user : List Char} :
    user ∈ users ([','].intercalate names) ↔ user ∈ names := by
  rw [mem_users, words_intercalate isSeparator_comma h]

/-- What stands between commas is found between blanks and commas. -/
theorem mem_users_of_mem_splitOn {list user : List Char}
    (huser : user ≠ [] ∧ ∀ c ∈ user, isSeparator c = false) (h : user ∈ list.splitOn ',') :
    user ∈ users list := by
  have hjoin : [','].intercalate (list.splitOn ',') = list := List.intercalate_splitOn ','
  rw [mem_users, ← hjoin, words_intercalate_eq_flatMap isSeparator_comma]
  exact List.mem_flatMap.mpr ⟨user,
    h, by rw [words_of_forall huser.1 huser.2]; exact List.mem_singleton_self _⟩

/-! ### One group -/

section OneGroup

variable {nextgid : List Char} (set : SetOrder) {file : CfgFile (List Char)}
  {groupname text : List Char}

/-- The file after the users of a group were set. -/
structure Edited (nextgid : List Char) (file : CfgFile (List Char)) (groupname text : List Char)
    (next : CfgFile (List Char)) : Prop where
  isGroupFile : IsGroupFile nextgid next
  userList_self : userList next groupname = some text
  lookup_of_ne : ∀ key, key ≠ .record [groupname] → next.index.lookup key = file.index.lookup key

theorem key_group (dic : Template (List Char)) :
    (groupFile nextgid).key dic = (dic.lookup "groupname".toList).map fun g ↦ [g] := by
  show ["groupname".toList].mapM (fun k ↦ dic.lookup k) = _
  rw [List.mapM_cons, List.mapM_nil]
  cases dic.lookup "groupname".toList <;> rfl

/-- A template with all columns is complete. -/
theorem complete_of_full {fmt : Format (List Char)} {template : Template (List Char)}
    (h : ∀ name ∈ fmt.columnNames, (template.lookup name).isSome) :
    fmt.complete template = .ok template := by
  have hall : ∀ names : List (List Char), (∀ name ∈ names, (template.lookup name).isSome) →
      names.foldlM fmt.fill template = .ok template := by
    intro names
    induction names with
    | nil => exact fun _ ↦ rfl
    | cons name names ih =>
      intro hnames
      obtain ⟨hname, hnames⟩ := List.forall_mem_cons.mp hnames
      have hfill : fmt.fill template name = .ok template := if_pos hname
      rw [List.foldlM_cons, hfill]
      exact ih hnames
  exact hall fmt.columnNames h

theorem userList_mem : "user-list".toList ∈ (groupFile nextgid).columnNames :=
  .tail _ (.tail _ (.tail _ (.head _)))

/-- The record of a group that exists. -/
theorem IsGroupFile.exists_dic (h : IsGroupFile nextgid file) {entry : Entry (List Char)}
    (hlookup : file.index.lookup (.record [groupname]) = some entry) :
    ∃ dic list, entry.dic = some dic ∧ dic.lookup "groupname".toList = some groupname ∧
      dic.lookup "user-list".toList = some list ∧
      ∀ name ∈ (groupFile nextgid).columnNames, (dic.lookup name).isSome := by
  have hmem := Dict.mem_of_lookup hlookup
  obtain ⟨dic, hdic, hkey⟩ :=
    Option.bind_eq_some_iff.mp ((rowKey_eq_record_iff _).mp (h.keyed _ hmem))
  rw [key_group] at hkey
  obtain ⟨g, hg, hsingle⟩ := Option.map_eq_some_iff.mp hkey
  obtain rfl := List.singleton_inj.mp hsingle
  have hfull := h.full _ hmem dic hdic
  obtain ⟨list, hlist⟩ := Option.isSome_iff_exists.mp (hfull _ userList_mem)
  exact ⟨dic, list, hdic, hg, hlist, hfull⟩

theorem exec_getvalue (file : CfgFile (List Char)) (groupname : List Char) :
    (getvalue (groupFile nextgid) [("groupname".toList, groupname)]).exec file =
      (.ok ((file.index.lookup (.record [groupname])).bind fun entry ↦ entry.dic), file) := by
  have hkey : (groupFile nextgid).key [("groupname".toList, groupname)] = some [groupname] := by
    rw [key_group, List.lookup_cons_self]
    rfl
  rw [getvalue, exec_bind, exec_keyOf_of_some hkey]
  rfl

/-- A group without a record cannot be changed. -/
theorem exec_changeUsers_of_not_exists (h : IsGroupFile nextgid file)
    (hnone : ¬ Exists file groupname)
    (change : List (List Char) → Except Error (List (List Char))) :
    (changeUsers nextgid set groupname change).exec file =
    (.error (.noSuchGroup groupname), file) := by
  have hlookup : (file.index.lookup (.record [groupname])).bind (fun entry ↦ entry.dic) = none := by
    rw [Exists, not_not] at hnone
    cases hentry : file.index.lookup (.record [groupname]) with
    | none => rfl
    | some entry =>
      obtain ⟨dic, list, hdic, -, hlist, -⟩ := h.exists_dic hentry
      rw [userList, hentry, Option.bind_some, hdic, Option.bind_some, hlist] at hnone
      cases hnone
  rw [changeUsers, exec_bind, exec_getvalue, hlookup]
  rfl

/-- The users of a group are changed, and nothing else is. -/
theorem exec_changeUsers (h : IsGroupFile nextgid file)
    (hlist : userList file groupname = some text)
    (change : List (List Char) → Except Error (List (List Char))) {changed : List (List Char)}
    (hchange : change (users text) = .ok changed) :
    ∃ next, (changeUsers nextgid set groupname change).exec file = (.ok (), next) ∧
      Edited nextgid file groupname ([','].intercalate (set.order changed)) next := by
  obtain ⟨dic, hdic, htext⟩ := Option.bind_eq_some_iff.mp hlist
  obtain ⟨entry, hentry, hentrydic⟩ := Option.bind_eq_some_iff.mp hdic
  obtain ⟨dic', list, hdic', hname, -, hfull⟩ := h.exists_dic hentry
  obtain rfl := Option.some.inj (hentrydic.symm.trans hdic')
  generalize hjoin : [','].intercalate (set.order changed) = joined
  have hmade : ∀ name ∈ (groupFile nextgid).columnNames,
      ((Dict.set dic "user-list".toList joined).lookup name).isSome := by
    intro name hmem
    by_cases hne : name = "user-list".toList
    · rw [hne, Dict.lookup_set_self]
      rfl
    · rw [Dict.lookup_set_of_ne _ hne]
      exact hfull name hmem
  have hkey : (groupFile nextgid).key (Dict.set dic "user-list".toList joined) =
      some [groupname] := by
    rw [key_group, Dict.lookup_set_of_ne _ (by decide), hname]
    rfl
  have hset := exec_setvalue h.keyed (complete_of_full hmade) hkey
  generalize hnew : (⟨Row.print (groupFile nextgid) (Dict.set dic "user-list".toList joined),
    (file.index.lookup (.record [groupname])).elim (nextLineno file.index) Entry.lineno⟩ :
      Entry (List Char)) = new at hset
  have hnewdic : new.dic = some (Dict.set dic "user-list".toList joined) := hnew ▸ rfl
  rw [← Dict.set_of_notMem (Numbered.notMem_erase file.index _)] at hset
  refine ⟨⟨Dict.set (Dict.erase file.index (.record [groupname])) (.record [groupname]) new, true⟩,
    ?_, ⟨⟨?_, ?_, ?_⟩, ?_, fun key hne ↦ ?_⟩⟩
  · rw [changeUsers, exec_bind, exec_getvalue, hentry, Option.bind_some, hentrydic]
    dsimp only
    rw [exec_bind, exec_lift, column, htext]
    dsimp only [Option.elim_some]
    rw [exec_bind, exec_lift, hchange]
    dsimp only
    rw [hjoin]
    exact hset
  · refine Dict.forall_mem_set (P := fun key (entry : Entry (List Char)) ↦
      (groupFile nextgid).rowKey entry.toRow entry.lineno = .ok key)
      (fun entry hentry ↦ h.keyed entry (List.mem_filter.mp hentry).1) ?_
    rw [rowKey_eq_record_iff, Row.recordKey, hnewdic]
    exact hkey
  · exact Dict.nodup_set (h.nodup.sublist (List.filter_sublist.map _)) _ _
  · refine Dict.forall_mem_set (P := fun _ (entry : Entry (List Char)) ↦ ∀ dic,
      entry.dic = some dic →
      ∀ name ∈ (groupFile nextgid).columnNames, (dic.lookup name).isSome)
      (fun entry hentry ↦ h.full entry (List.mem_filter.mp hentry).1) fun dic' hdic' ↦ ?_
    rw [hnewdic] at hdic'
    exact Option.some.inj hdic' ▸ hmade
  · rw [userList, Dict.lookup_set_self, Option.bind_some, hnewdic, Option.bind_some,
      Dict.lookup_set_self]
  · rw [Dict.lookup_set_of_ne _ hne, Dict.lookup_erase_of_ne _ hne]

end OneGroup

/-! ### Some groups -/

section SomeGroups

variable {nextgid : List Char} (set : SetOrder) {file next : CfgFile (List Char)}
  {user g : List Char} {groups : List (List Char)}

/-- Nothing but the users of some groups differs. -/
structure Kept (nextgid : List Char) (file : CfgFile (List Char)) (groups : List (List Char))
    (next : CfgFile (List Char)) : Prop where
  isGroupFile : IsGroupFile nextgid next
  exists_iff : ∀ g, Exists next g ↔ Exists file g
  lookup_eq : ∀ key, (∀ g ∈ groups, key ≠ .record [g]) →
    next.index.lookup key = file.index.lookup key

theorem Kept.refl (h : IsGroupFile nextgid file) (groups : List (List Char)) :
    Kept nextgid file groups file :=
  ⟨h, fun _ ↦ Iff.rfl, fun _ _ ↦ rfl⟩

theorem Kept.cons {middle : CfgFile (List Char)} (hfirst : Kept nextgid file [g] middle)
    (hrest : Kept nextgid middle groups next) : Kept nextgid file (g :: groups) next := by
  refine ⟨hrest.isGroupFile, fun g' ↦ (hrest.exists_iff g').trans (hfirst.exists_iff g'),
    fun key hkey ↦ ?_⟩
  obtain ⟨hg, hgroups⟩ := List.forall_mem_cons.mp hkey
  rw [hrest.lookup_eq key hgroups, hfirst.lookup_eq key (List.forall_mem_singleton.mpr hg)]

theorem userList_congr (h : next.index.lookup (.record [g]) = file.index.lookup (.record [g])) :
    userList next g = userList file g := by
  unfold userList
  rw [h]

theorem record_ne {g g' : List Char} (h : g' ≠ g) : Key.record [g'] ≠ .record [g] := by
  simpa using h

theorem Kept.userList_eq (h : Kept nextgid file groups next) (hg : g ∉ groups) :
    userList next g = userList file g :=
  userList_congr (h.lookup_eq _ fun _ hmem ↦ record_ne fun heq ↦ hg (heq ▸ hmem))

theorem Edited.kept {text : List Char} (h : Edited nextgid file g text next)
    (hexists : Exists file g) :
    Kept nextgid file [g] next := by
  refine ⟨h.isGroupFile, fun g' ↦ ?_, fun key hkey ↦
    h.lookup_of_ne key (hkey g (List.mem_singleton_self g))⟩
  by_cases hg' : g' = g
  · rw [hg']
    exact iff_of_true (by rw [Exists, h.userList_self]; exact Option.some_ne_none text) hexists
  · rw [Exists, Exists, userList_congr (h.lookup_of_ne _ (record_ne hg'))]

/-- Who is listed after the users of a group were set. -/
theorem Edited.listed_iff {names : List (List Char)}
    (h : Edited nextgid file g ([','].intercalate names) next)
    (hnames : ∀ name ∈ names, name ≠ [] ∧ ∀ c ∈ name, isSeparator c = false)
    (other g' : List Char) :
    Listed next other g' ↔ if g' = g then other ∈ names else Listed file other g' := by
  unfold Listed
  split_ifs with hg'
  · rw [hg', h.userList_self, ← mem_users_join hnames]
    exact ⟨fun ⟨list, hlist, hmem⟩ ↦ Option.some.inj hlist ▸ hmem, fun hmem ↦ ⟨_, rfl, hmem⟩⟩
  · rw [userList_congr (h.lookup_of_ne _ (record_ne hg'))]

theorem exec_adduser (h : IsGroupFile nextgid file)
    (huser : user ≠ [] ∧ ∀ c ∈ user, isSeparator c = false) (hexists : Exists file g) :
    ∃ next, (adduser nextgid set g user).exec file = (.ok (), next) ∧ Kept nextgid file [g] next ∧
      CommaListed next user g ∧
      ∀ other g', Listed next other g' ↔ Listed file other g' ∨ other = user ∧ g' = g := by
  obtain ⟨text, htext⟩ := Option.ne_none_iff_exists'.mp hexists
  obtain ⟨next, hrun, hedited⟩ := exec_changeUsers set h htext (fun users ↦
    .ok (users.insert user)) rfl
  have hmem : ∀ other, other ∈ set.order ((users text).insert user) ↔
      other = user ∨ other ∈ users text :=
    fun other ↦ (set.perm _).mem_iff.trans List.mem_insert_iff
  have hnames : ∀ name ∈ set.order ((users text).insert user),
      name ≠ [] ∧ ∀ c ∈ name, isSeparator c = false := by
    intro name hname
    rcases (hmem name).mp hname with rfl | hname
    · exact huser
    · exact userName_of_mem hname
  refine ⟨next, hrun, hedited.kept hexists, ⟨_, hedited.userList_self, ?_⟩, fun other g' ↦ ?_⟩
  · have hcomma : ∀ name ∈ set.order ((users text).insert user), ',' ∉ name := fun name hname hc ↦
      absurd ((hnames name hname).2 _ hc) (by rw [isSeparator_comma]; decide)
    have huser' : user ∈ set.order ((users text).insert user) := (hmem user).mpr (Or.inl rfl)
    rw [List.splitOn_intercalate _ hcomma (List.ne_nil_of_mem huser')]
    exact huser'
  · rw [hedited.listed_iff hnames]
    split_ifs with hg'
    · have hlisted : Listed file other g' ↔ other ∈ users text := by
        unfold Listed
        rw [hg', htext]
        exact ⟨fun ⟨list, hlist, hmem⟩ ↦ Option.some.inj hlist ▸ hmem, fun hmem ↦ ⟨_, rfl, hmem⟩⟩
      rw [hmem, hlisted, and_iff_left hg', or_comm]
    · rw [or_iff_left fun hand ↦ hg' hand.2]

theorem exec_subuser (h : IsGroupFile nextgid file) (hlisted : Listed file user g) :
    ∃ next, (subuser nextgid set g user).exec file = (.ok (), next) ∧ Kept nextgid file [g] next ∧
      ∀ other g', Listed next other g' ↔ Listed file other g' ∧ ¬ (other = user ∧ g' = g) := by
  obtain ⟨text, htext, huser⟩ := hlisted
  obtain ⟨next, hrun, hedited⟩ := exec_changeUsers set h htext (fun users ↦
    if user ∈ users then .ok (users.erase user) else .error (.userNotInGroup user g)) (if_pos huser)
  have hnodup : (users text).Nodup := List.nodup_dedup _
  have hmem : ∀ other, other ∈ set.order ((users text).erase user) ↔
      other ≠ user ∧ other ∈ users text :=
    fun other ↦ (set.perm _).mem_iff.trans hnodup.mem_erase_iff
  have hnames : ∀ name ∈ set.order ((users text).erase user),
      name ≠ [] ∧ ∀ c ∈ name, isSeparator c = false := fun name hname ↦
    userName_of_mem ((hmem name).mp hname).2
  refine ⟨next, hrun, hedited.kept (by rw [Exists, htext]; exact Option.some_ne_none text),
    fun other g' ↦ ?_⟩
  rw [hedited.listed_iff hnames]
  split_ifs with hg'
  · have hother : Listed file other g' ↔ other ∈ users text := by
      unfold Listed
      rw [hg', htext]
      exact ⟨fun ⟨list, hlist, hmem⟩ ↦ Option.some.inj hlist ▸ hmem, fun hmem ↦ ⟨_, rfl, hmem⟩⟩
    rw [hmem, hother, and_iff_left hg', and_comm]
  · rw [and_iff_left fun hand ↦ hg' hand.2]

/-- The user is put into groups that exist. -/
theorem exec_forEach_adduser (h : IsGroupFile nextgid file)
    (huser : user ≠ [] ∧ ∀ c ∈ user, isSeparator c = false)
    (hexists : ∀ g ∈ groups, Exists file g) :
    ∃ next, (forEach (fun g ↦ adduser nextgid set g user) groups).exec file = (.ok (), next) ∧
      Kept nextgid file groups next ∧
      ∀ other g', Listed next other g' ↔ Listed file other g' ∨ other = user ∧ g' ∈ groups := by
  induction groups generalizing file with
  | nil => exact ⟨file, rfl, .refl h [], fun other g' ↦ by simp⟩
  | cons g groups ih =>
    obtain ⟨hg, hgroups⟩ := List.forall_mem_cons.mp hexists
    obtain ⟨middle, hrun, hkept, -, hlisted⟩ := exec_adduser set h huser hg
    obtain ⟨next, hrest, hkeptrest, hlistedrest⟩ := ih hkept.isGroupFile fun g' hg' ↦
      (hkept.exists_iff g').mpr (hgroups g' hg')
    refine ⟨next, ?_, hkept.cons hkeptrest, fun other g' ↦ ?_⟩
    · rw [forEach, exec_bind, hrun]
      exact hrest
    · rw [hlistedrest, hlisted, List.mem_cons, or_assoc, ← and_or_left]

/-- The user is taken out of groups that list it. -/
theorem exec_forEach_subuser (h : IsGroupFile nextgid file) (hnodup : groups.Nodup)
    (hlisted : ∀ g ∈ groups, Listed file user g) :
    ∃ next, (forEach (fun g ↦ subuser nextgid set g user) groups).exec file = (.ok (), next) ∧
      Kept nextgid file groups next ∧
      ∀ other g', Listed next other g' ↔ Listed file other g' ∧ ¬ (other = user ∧ g' ∈ groups) := by
  induction groups generalizing file with
  | nil => exact ⟨file, rfl, .refl h [], fun other g' ↦ by simp⟩
  | cons g groups ih =>
    obtain ⟨hg, hgroups⟩ := List.forall_mem_cons.mp hlisted
    obtain ⟨hnot, hnodup⟩ := List.nodup_cons.mp hnodup
    obtain ⟨middle, hrun, hkept, hmiddle⟩ := exec_subuser set h hg
    obtain ⟨next, hrest, hkeptrest, hlistedrest⟩ := ih hkept.isGroupFile hnodup fun g' hg' ↦
      (hmiddle user g').mpr ⟨hgroups g' hg', fun hand ↦ hnot (hand.2 ▸ hg')⟩
    refine ⟨next, ?_, hkept.cons hkeptrest, fun other g' ↦ ?_⟩
    · rw [forEach, exec_bind, hrun]
      exact hrest
    · rw [hlistedrest, hmiddle, List.mem_cons, and_assoc, ← not_or, ← and_or_left]

/-- Whatever comes of it, putting the user into groups changes nothing else. -/
theorem kept_forEach_adduser (h : IsGroupFile nextgid file)
    (huser : user ≠ [] ∧ ∀ c ∈ user, isSeparator c = false) (groups : List (List Char)) :
    Kept nextgid file groups ((forEach (fun g ↦ adduser nextgid set g user) groups).exec
      file).2 := by
  induction groups generalizing file with
  | nil => exact .refl h []
  | cons g groups ih =>
    rw [forEach, exec_bind]
    by_cases hexists : Exists file g
    · obtain ⟨middle, hrun, hkept, -⟩ := exec_adduser set h huser hexists
      rw [hrun]
      exact hkept.cons (ih hkept.isGroupFile)
    · rw [adduser, exec_changeUsers_of_not_exists set h hexists]
      exact .refl h _

/-- The groups of the records whose list has the user between commas. -/
theorem groupsOf_eq (dics : List (Template (List Char)))
    (hfull : ∀ dic ∈ dics, (∃ g, dic.lookup "groupname".toList = some g) ∧
      ∃ list, dic.lookup "user-list".toList = some list) (user : List Char) :
    ∃ found, groupsOf user dics = .ok found ∧ ∀ g, g ∈ found ↔ ∃ dic ∈ dics,
      dic.lookup "groupname".toList = some g ∧
        ∃ list, dic.lookup "user-list".toList = some list ∧ user ∈ list.splitOn ',' := by
  induction dics with
  | nil => exact ⟨[], rfl, fun g ↦ by simp⟩
  | cons dic dics ih =>
    obtain ⟨⟨⟨name, hname⟩, list, hlist⟩, hrest⟩ := List.forall_mem_cons.mp hfull
    obtain ⟨found, hfound, hmem⟩ := ih hrest
    have hread : groupsOf user (dic :: dics) =
        if user ∈ list.splitOn ',' then .ok (name :: found) else .ok found := by
      rw [groupsOf, column, hlist]
      show (if user ∈ list.splitOn ',' then _ else _) = _
      rw [column, hname, hfound]
      rfl
    rw [hread]
    split_ifs with huser
    · refine ⟨_, rfl, fun g ↦ ?_⟩
      rw [List.mem_cons, hmem, List.exists_mem_cons_iff, hname, Option.some.injEq, eq_comm]
      exact or_congr_left (and_iff_left ⟨list, hlist, huser⟩).symm
    · refine ⟨_, rfl, fun g ↦ ?_⟩
      rw [hmem, List.exists_mem_cons_iff]
      refine (or_iff_right ?_).symm
      rintro ⟨-, list', hlist', huser'⟩
      exact huser (Option.some.inj (hlist.symm.trans hlist') ▸ huser')

/-- `getgroups` gives the groups in whose lists the user stands between commas. -/
theorem exec_getgroups (h : IsGroupFile nextgid file) (user : List Char) :
    ∃ current, (getgroups user).exec file = (.ok current, file) ∧
      ∀ g, g ∈ current ↔ CommaListed file user g := by
  have hentry : ∀ dic ∈ file.index.filterMap (fun entry ↦ entry.2.dic),
      ∃ g entry list, file.index.lookup (.record [g]) = some entry ∧ entry.dic = some dic ∧
        dic.lookup "groupname".toList = some g ∧ dic.lookup "user-list".toList = some list := by
    intro dic hdic
    obtain ⟨entry, hmem, hentrydic⟩ := List.mem_filterMap.mp hdic
    have hname := h.full entry hmem dic hentrydic "groupname".toList List.mem_cons_self
    have hlist := h.full entry hmem dic hentrydic "user-list".toList userList_mem
    obtain ⟨g, hg⟩ := Option.isSome_iff_exists.mp hname
    obtain ⟨list, hlist⟩ := Option.isSome_iff_exists.mp hlist
    have hkey : entry.1 = .record [g] := by
      have hrow := h.keyed entry hmem
      rw [Format.rowKey, hentrydic] at hrow
      dsimp only at hrow
      rw [key_group, hg] at hrow
      exact (Except.ok.inj hrow).symm
    refine ⟨g, entry.2, list, (Dict.lookup_eq_some_iff_mem h.nodup).mpr ?_, hentrydic, hg, hlist⟩
    rw [← hkey]
    exact hmem
  obtain ⟨found, hfound, hmem⟩ := groupsOf_eq (file.index.filterMap fun entry ↦ entry.2.dic)
    (fun dic hdic ↦ by
      obtain ⟨g, -, list, -, -, hg, hlist⟩ := hentry dic hdic
      exact ⟨⟨g, hg⟩, list, hlist⟩) user
  refine ⟨found.insertionSort fun x y ↦ x ≤ y, ?_, fun g ↦ ?_⟩
  · rw [getgroups, exec_bind, exec_get]
    dsimp only
    rw [hfound]
    rfl
  · rw [List.mem_insertionSort, hmem]
    constructor
    · rintro ⟨dic, hdic, hg, list, hlist, huser⟩
      obtain ⟨g', entry, -, hlookup, hentrydic, hg', -⟩ := hentry dic hdic
      obtain rfl := Option.some.inj (hg.symm.trans hg')
      refine ⟨list, ?_, huser⟩
      rw [userList, hlookup, Option.bind_some, hentrydic, Option.bind_some, hlist]
    · rintro ⟨list, hlist, huser⟩
      obtain ⟨dic, hdic, htext⟩ := Option.bind_eq_some_iff.mp hlist
      obtain ⟨entry, hlookup, hentrydic⟩ := Option.bind_eq_some_iff.mp hdic
      obtain ⟨dic', -, hdic', hname, -⟩ := h.exists_dic hlookup
      obtain rfl := Option.some.inj (hentrydic.symm.trans hdic')
      exact ⟨dic, List.mem_filterMap.mpr ⟨_, Dict.mem_of_lookup hlookup, hentrydic⟩, hname, list,
        htext, huser⟩

end SomeGroups

/-! ### The groups of a user -/

section Groups

variable {nextgid : List Char} {set : SetOrder} {file : CfgFile (List Char)} {user : List Char}
  {groups : List (List Char)}

/-- What `setgroups` comes to: the groups it takes the user out of, and those it puts the user into.
-/
theorem exists_setgroups (set : SetOrder) (h : IsGroupFile nextgid file)
    (huser : user ≠ [] ∧ ∀ c ∈ user, isSeparator c = false) (groups : List (List Char)) :
    ∃ removals additions middle,
      (setgroups nextgid set user groups).exec file =
        (forEach (fun g ↦ adduser nextgid set g user) (set.order additions)).exec middle ∧
      (∀ g, g ∈ removals ↔ CommaListed file user g ∧ g ∉ groups) ∧
      (∀ g, g ∈ additions ↔ g ∈ groups ∧ ¬ CommaListed file user g) ∧ additions.Nodup ∧
      Kept nextgid file removals middle ∧
      ∀ other g, Listed middle other g ↔ Listed file other g ∧ ¬ (other = user ∧ g ∈ removals) := by
  obtain ⟨current, hcurrent, hmem⟩ := exec_getgroups h user
  have hremovals : ∀ g, g ∈ set.order (current.dedup.filter fun g ↦ decide (g ∉ groups)) ↔
      CommaListed file user g ∧ g ∉ groups := by
    intro g
    rw [(set.perm _).mem_iff, List.mem_filter, List.mem_dedup, hmem, decide_eq_true_iff]
  have hlisted : ∀ g, CommaListed file user g → Listed file user g := fun g ⟨list, hlist, hsplit⟩ ↦
    ⟨list, hlist, mem_users_of_mem_splitOn huser hsplit⟩
  have hleave : ∀ g ∈ set.order (current.dedup.filter fun g ↦ decide (g ∉ groups)),
      Listed file user g :=
    fun g hg ↦ hlisted g ((hremovals g).mp hg).1
  obtain ⟨middle, hrun, hkept, hmiddle⟩ := exec_forEach_subuser set h
    ((set.perm _).nodup_iff.mpr ((List.nodup_dedup current).filter _)) hleave
  refine ⟨_, groups.dedup.filter fun g ↦ decide (g ∉ current), middle, ?_, hremovals, fun g ↦ ?_,
    (List.nodup_dedup groups).filter _, hkept, hmiddle⟩
  · rw [setgroups, exec_bind, hcurrent]
    dsimp only
    rw [exec_bind, hrun]
  · rw [List.mem_filter, List.mem_dedup, decide_eq_true_iff, hmem]

theorem setsGroups_of_settable (h : IsGroupFile nextgid file)
    (huser : user ≠ [] ∧ ∀ c ∈ user, isSeparator c = false) (hsettable : Settable file user groups)
    (set : SetOrder) : SetsGroups nextgid file user groups set := by
  obtain ⟨removals, additions, middle, hrun, hremovals, hadditions, -, hkept, hmiddle⟩ :=
    exists_setgroups set h huser groups
  have hlisted : ∀ g, CommaListed file user g → Listed file user g := fun g ⟨list, hlist, hsplit⟩ ↦
    ⟨list, hlist, mem_users_of_mem_splitOn huser hsplit⟩
  constructor
  · intro hexists
    obtain ⟨next, hrest, -, hnext⟩ := exec_forEach_adduser set hkept.isGroupFile huser
      fun g hg ↦
        (hkept.exists_iff g).mpr (hexists g ((hadditions g).mp ((set.perm _).mem_iff.mp hg)).1)
    have hfinal : ∀ other g, Listed next other g ↔
        (Listed file other g ∧ ¬ (other = user ∧ g ∈ removals)) ∨ other = user ∧ g ∈ additions := by
      intro other g
      rw [hnext, hmiddle, (set.perm _).mem_iff]
    refine ⟨next, hrun.trans hrest, fun g ↦ ?_, fun other hother g ↦ ?_⟩
    · rw [hfinal, hremovals, hadditions]
      constructor
      · rintro (⟨hfile, hnot⟩ | ⟨-, hg, -⟩)
        · by_contra hg
          exact hnot ⟨rfl, hsettable.1 hexists g hg hfile, hg⟩
        · exact hg
      · intro hg
        by_cases hcomma : CommaListed file user g
        · exact Or.inl ⟨hlisted g hcomma, fun hand ↦ hand.2.2 hg⟩
        · exact Or.inr ⟨rfl, hg, hcomma⟩
    · rw [hfinal]
      simp [hother]
  · rintro ⟨m, hm, hmissing⟩
    have hsettled := hsettable.2 ⟨m, hm, hmissing⟩
    have hexists : ∀ g, CommaListed file user g → Exists file g := fun g ⟨list, hlist, _⟩ ↦ by
      rw [Exists, hlist]
      exact Option.some_ne_none list
    have hnil : removals = [] := List.eq_nil_iff_forall_not_mem.mpr fun g hg ↦ by
      obtain ⟨hcomma, hnot⟩ := (hremovals g).mp hg
      exact hnot ((hsettled g (hexists g hcomma)).mp hcomma)
    have hm' : m ∈ set.order additions :=
      (set.perm _).mem_iff.mpr ((hadditions m).mpr ⟨hm, fun hcomma ↦ hmissing (hexists m hcomma)⟩)
    obtain ⟨g, rest, horder⟩ := List.exists_cons_of_ne_nil (List.ne_nil_of_mem hm')
    have hg := (hadditions g).mp ((set.perm _).mem_iff.mp (horder ▸ List.mem_cons_self))
    have hnot : ¬ Exists middle g := fun hfound ↦
      hg.2 ((hsettled g ((hkept.exists_iff g).mp hfound)).mpr hg.1)
    refine ⟨.noSuchGroup g, middle, ?_, fun key ↦ hkept.lookup_eq key fun g hg ↦ ?_⟩
    · rw [hrun, horder, forEach, exec_bind, adduser,
        exec_changeUsers_of_not_exists set hkept.isGroupFile hnot]
    · rw [hnil] at hg
      cases hg

/-- Sets are iterated over as they are listed. -/
def SetOrder.listed : SetOrder := ⟨id, fun _ ↦ List.Perm.refl _⟩

/-- Sets are iterated over with one element first. -/
def SetOrder.startingWith (first : List Char) : SetOrder where
  order := fun elements ↦ if first ∈ elements then first :: elements.erase first else elements
  perm := fun elements ↦ by
    split_ifs with hfirst
    · exact (List.perm_cons_erase hfirst).symm
    · exact List.Perm.refl _

theorem settable_of_setsGroups (h : IsGroupFile nextgid file)
    (huser : user ≠ [] ∧ ∀ c ∈ user, isSeparator c = false)
    (hsets : ∀ set, SetsGroups nextgid file user groups set) : Settable file user groups := by
  have hlisted : ∀ g, CommaListed file user g → Listed file user g := fun g ⟨list, hlist, hsplit⟩ ↦
    ⟨list, hlist, mem_users_of_mem_splitOn huser hsplit⟩
  constructor
  · -- A group that is neither left nor entered keeps its users.
    intro hexists g hg hfile
    by_contra hcomma
    obtain ⟨removals, additions, middle, hrun, hremovals, hadditions, -, hkept, -⟩ :=
      exists_setgroups .listed h huser groups
    obtain ⟨next, hnext, hgroups, -⟩ := (hsets .listed).succeeds hexists
    have hrest := kept_forEach_adduser SetOrder.listed hkept.isGroupFile huser
      (SetOrder.listed.order additions)
    rw [← hrun, hnext] at hrest
    have hsame : userList next g = userList file g :=
      (hrest.userList_eq fun hmem ↦ hg ((hadditions g).mp hmem).1).trans
        (hkept.userList_eq fun hmem ↦ hcomma ((hremovals g).mp hmem).1)
    refine hg ((hgroups g).mp ?_)
    unfold Listed at hfile ⊢
    rwa [hsame]
  · intro hmissing g hexists
    obtain ⟨removals, additions, middle, hrun, hremovals, hadditions, hnodup, hkept, hmiddle⟩ :=
      exists_setgroups (.startingWith g) h huser groups
    obtain ⟨error, next, hnext, hlookup⟩ := (hsets (.startingWith g)).fails hmissing
    have hsame : userList next g = userList file g := userList_congr (hlookup _)
    have hrest := kept_forEach_adduser (SetOrder.startingWith g) hkept.isGroupFile huser
      ((SetOrder.startingWith g).order additions)
    rw [← hrun, hnext] at hrest
    constructor
    · -- The user was taken out of a group that it was to leave.
      intro hcomma
      by_contra hg
      have hremoved : ¬ Listed middle user g := fun hstill ↦
        ((hmiddle user g).mp hstill).2 ⟨rfl, (hremovals g).mpr ⟨hcomma, hg⟩⟩
      have hnotMem : g ∉ (SetOrder.startingWith g).order additions := fun hmem ↦
        hg ((hadditions g).mp (((SetOrder.startingWith g).perm _).mem_iff.mp hmem)).1
      refine hremoved ?_
      unfold Listed
      rw [← hrest.userList_eq hnotMem, hsame]
      exact hlisted g hcomma
    · -- The user was put into the first group of the set.
      intro hg
      by_contra hcomma
      have hmem : g ∈ additions := (hadditions g).mpr ⟨hg, hcomma⟩
      have horder : (SetOrder.startingWith g).order additions = g :: additions.erase g :=
        if_pos hmem
      obtain ⟨entered, hadd, hkeptadd, hentered, -⟩ :=
        exec_adduser (SetOrder.startingWith g) hkept.isGroupFile huser
          ((hkept.exists_iff g).mpr hexists)
      have hafter := kept_forEach_adduser (SetOrder.startingWith g) hkeptadd.isGroupFile huser
        (additions.erase g)
      rw [horder, forEach, exec_bind, hadd] at hrun
      rw [hnext] at hrun
      dsimp only at hrun
      rw [← hrun] at hafter
      refine hcomma ?_
      unfold CommaListed at hentered ⊢
      rwa [← hsame, hafter.userList_eq fun hmem' ↦ (hnodup.mem_erase_iff.mp hmem').1 rfl]

/-- A file that is read is a group file. -/
theorem isGroupFile_of_readfile {text : List Char}
    (h : (groupFile nextgid).readfile text = .ok file) :
    IsGroupFile nextgid file := by
  have hentries := forall_mem_of_readfile (P := fun key entry ↦
    (groupFile nextgid).rowKey entry.toRow entry.lineno = .ok key ∧ ∀ dic, entry.dic = some dic →
      ∀ name ∈ (groupFile nextgid).columnNames, (dic.lookup name).isSome) h
    fun _ _ _ _ hrow hkey ↦ ⟨hkey, fun dic hdic name hname ↦
      Option.isSome_iff_exists.mpr (exists_lookup_of_row hrow hdic hname)⟩
  exact ⟨fun entry hentry ↦ (hentries.2 entry hentry).1, hentries.1, fun entry hentry ↦
    (hentries.2 entry hentry).2⟩

/-- `setgroups` does what it is for, whatever the orders of its sets, exactly if `getgroups` sees
the user in every group to be left and nothing is to be done if a group does not exist. -/
theorem setsGroups_iff (nextgid : List Char) (file : Groups nextgid) (user : UserName)
    (groups : List (List Char)) :
    (∀ set, SetsGroups nextgid file user groups set) ↔ Settable file user groups :=
  ⟨settable_of_setsGroups file.2 user.2, setsGroups_of_settable file.2 user.2⟩

/-- The groups `staff` and `other`. -/
def twoGroups : CfgFile (List Char) where
  index := [(.record ["staff".toList],
    ⟨⟨"staff::10:a,b".toList, some [("groupname".toList, "staff".toList),
    ("password".toList, []), ("gid".toList, "10".toList), ("user-list".toList, "a,b".toList)]⟩, 1⟩),
    (.record ["other".toList], ⟨⟨"other::11:a".toList, some [("groupname".toList, "other".toList),
    ("password".toList, []), ("gid".toList, "11".toList), ("user-list".toList, "a".toList)]⟩, 2⟩)]
  needswriting := false

theorem readfile_twoGroups :
    (groupFile "12".toList).readfile "staff::10:a,b\nother::11:a\n".toList = .ok twoGroups := by
  rfl

theorem userName_b : "b".toList ≠ [] ∧ ∀ c ∈ "b".toList, isSeparator c = false :=
  ⟨nofun, List.forall_mem_singleton.mpr rfl⟩

/-- One user of two leaves the group `staff` and enters the other one. -/
theorem setsGroups_twoGroups :
    (groupFile "12".toList).readfile "staff::10:a,b\nother::11:a\n".toList = .ok twoGroups ∧
      ∀ set, SetsGroups "12".toList twoGroups "b".toList ["other".toList] set := by
  refine ⟨readfile_twoGroups, (setsGroups_iff _
    ⟨twoGroups, isGroupFile_of_readfile readfile_twoGroups⟩ ⟨"b".toList, userName_b⟩ _).mpr
    ⟨fun _ g hg hlisted ↦ ?_, fun hmissing ↦ ?_⟩⟩
  · obtain ⟨list, hlist, -⟩ := hlisted
    have hother : g ≠ "other".toList := fun heq ↦ hg (List.mem_singleton.mpr heq)
    refine ⟨list, hlist, ?_⟩
    by_cases hstaff : g = "staff".toList
    · subst hstaff
      obtain rfl : "a,b".toList = list := Option.some.inj hlist
      decide
    · have hnone : twoGroups.index.lookup (.record [g]) = none := by
        rw [twoGroups, List.lookup_cons, List.lookup_cons,
          beq_eq_false_iff_ne.mpr (record_ne hstaff), beq_eq_false_iff_ne.mpr (record_ne hother)]
        rfl
      rw [userList, hnone] at hlist
      cases hlist
  · obtain ⟨g, hg, hnone⟩ := hmissing
    obtain rfl := List.mem_singleton.mp hg
    exact absurd nofun hnone

/-- A file with the group `staff` of two users with a blank between them. -/
def staff : CfgFile (List Char) where
  index := [(.record ["staff".toList],
    ⟨⟨"staff::10:a b".toList, some [("groupname".toList, "staff".toList),
    ("password".toList, []), ("gid".toList, "10".toList), ("user-list".toList, "a b".toList)]⟩, 1⟩)]
  needswriting := false

theorem exec_setgroups_staff :
    (setgroups "11".toList .listed "b".toList []).exec staff = (.ok (), staff) := by
  rfl

theorem userList_staff_of_missing :
    userList ((setgroups "11".toList .listed "c".toList ["staff".toList,
      "nobody".toList]).exec staff).2
      "staff".toList = some "c,a,b".toList := by
  rfl

/-- A user behind a blank stays in the group, and a user enters a group although another one does
not exist. -/
theorem not_setsGroups_staff :
    (groupFile "11".toList).readfile "staff::10:a b\n".toList = .ok staff ∧
      ¬ SetsGroups "11".toList staff "b".toList [] .listed ∧
      ¬ SetsGroups "11".toList staff "c".toList ["staff".toList, "nobody".toList] .listed := by
  refine ⟨rfl, fun h ↦ ?_, fun h ↦ ?_⟩
  · obtain ⟨next, hrun, hgroups, -⟩ := h.succeeds fun g hg ↦ (nomatch hg)
    obtain rfl := congrArg Prod.snd (exec_setgroups_staff.symm.trans hrun)
    exact absurd ((hgroups "staff".toList).mp ⟨"a b".toList, rfl, by decide⟩) List.not_mem_nil
  · obtain ⟨error, next, hrun, hsame⟩ := h.fails ⟨"nobody".toList, by decide, fun h ↦ h rfl⟩
    have hnext := userList_staff_of_missing
    rw [hrun, userList_congr (hsame _)] at hnext
    exact absurd hnext (by decide)

end Groups

end Userland.Pkg.Cfg
