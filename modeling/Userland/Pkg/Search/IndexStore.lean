import Userland.Pkg.Numeral

/-!
# Files of a search index

`pkg/search_storage.py`: the files of an index start with a line that gives the version, and
`consistent_open` opens the files of several stores so that all have the same one. It goes through
the files, and starts over when some are there and some are not, or when two versions differ, since
another process may be replacing the files.

What it leaves is a property of the last pass only (`consistentOpen_ends`): if it returns a version,
each file was opened in that pass and had this version, and if it returns `None`, none was there.
Stores that held a handle before keep it if there was one pass only (`consistentOpen_keeps_handle`).

Scope. What an attempt to open a file meets is a parameter, and so is the clock. A file object is
the first line of the file. One that no store holds is closed when the variable that names it goes.
Paths are left out.
-/

set_option autoImplicit false
set_option relaxedAutoImplicit false

namespace Userland.Pkg.Search

/-! ### Lines -/

/-- The first line of a file. -/
def versionLine (versionNum : ℤ) : List Char :=
  "VERSION: ".toList ++ Text.strInt versionNum

/-- `_protected_write_dict_file(path, version_num, iterable)`: the text that the file holds
afterwards. -/
def protectedWriteDictFile (versionNum : ℤ) (iterable : List (List Char)) : List Char :=
  versionLine versionNum ++ '\n' :: (iterable.map fun name ↦ name ++ ['\n']).flatten

/-- The lines that a file handle goes through after the version line was read. -/
def remainingLines (file : List Char) : List (List Char) :=
  (Text.readlines file).tail

theorem notMem_versionLine (versionNum : ℤ) : '\n' ∉ versionLine versionNum :=
  List.not_mem_append (by decide) (Text.notMem_strInt (by decide) (by decide) versionNum)

/-- Names without line breaks are the lines that follow the version. -/
theorem remainingLines_protectedWriteDictFile (versionNum : ℤ) {iterable : List (List Char)}
    (h : ∀ name ∈ iterable, '\n' ∉ name) :
    remainingLines (protectedWriteDictFile versionNum iterable) = iterable.map fun name ↦
    name ++ ['\n'] := by
  rw [remainingLines, protectedWriteDictFile,
    Text.readlines_cons_append (notMem_versionLine versionNum),
    List.tail_cons, Text.readlines_flatten]
  intro text htext
  obtain ⟨name, hname, rfl⟩ := List.mem_map.mp htext
  exact ⟨name, rfl, h name hname⟩

/-! ### Stores -/

/-- What `os.stat` says about a file: its modification time, its size and its inode. -/
structure StatInfo where
  mtime : ℕ
  size : ℕ
  inode : ℕ
deriving DecidableEq

/-- `IndexStoreBase`. A file handle is the line that was read first from it. -/
structure IndexStore where
  fileHandle : Option (List Char)
  statInfo : Option StatInfo
deriving DecidableEq

/-- The exceptions that leave `consistent_open`. -/
inductive OpenError
  | inconsistentIndexException
  | runtimeError
  | osError
  | ioError
  | indexError
  | valueError
  | assertionError
deriving DecidableEq

/-- `set_file_handle(f_handle, f_path)`, where `os.stat` may find the file gone. -/
def IndexStore.setFileHandle (self : IndexStore) (fHandle : List Char) (stat : Option StatInfo) :
    Option OpenError × IndexStore :=
  if self.fileHandle.isSome then (some .runtimeError, self)
  else
    match self.statInfo, stat with
    | some _, _ => (none, { self with fileHandle := some fHandle })
    | none, some info => (none, { fileHandle := some fHandle, statInfo := some info })
    | none, none => (some .osError, { self with fileHandle := some fHandle })

/-- `close_file_handle()`. -/
def IndexStore.closeFileHandle (self : IndexStore) : IndexStore :=
  { self with fileHandle := none }

/-- `int(version_tmp.split(' ')[1].rstrip('\n'))`. -/
def versionNum (versionTmp : List Char) : Except OpenError ℤ :=
  match (versionTmp.splitOn ' ')[1]? with
  | none => .error .indexError
  | some text =>
    match Text.parseInt (text.rdropWhile (· = '\n')) with
    | none => .error .valueError
    | some version => .ok version

/-! ### Opening them all -/

/-- What an attempt to open a file meets: no file, a file with its first line and what `os.stat`
says of it afterwards, or another error than `ENOENT`. -/
inductive Attempt
  | absent
  | present (line : List Char) (stat : Option StatInfo)
  | denied
deriving DecidableEq

section Open

variable {ι : Type} [DecidableEq ι]

/-- The stores and the two variables of `consistent_open`. -/
structure OpenState (ι : Type) where
  stores : ι → IndexStore
  missing : Option Bool
  curVersion : Option ℤ

/-- How the body of the loop over the stores ends. -/
inductive Flow
  | next
  | restart
  | raised (error : OpenError)
deriving DecidableEq

/-- `for d in data_list: d.close_file_handle()`. -/
def closeAll (dataList : List ι) (stores : ι → IndexStore) (d : ι) : IndexStore :=
  if d ∈ dataList then (stores d).closeFileHandle else stores d

/-- What is done before the loop over the stores is left to start over. -/
def OpenState.reset (dataList : List ι) (stores : ι → IndexStore) : OpenState ι :=
  ⟨closeAll dataList stores, none, none⟩

/-- The part of the loop body that follows a successful `open`, unless a file was missing before. -/
def readVersion (dataList : List ι) (d : ι) (line : List Char) (stat : Option StatInfo)
    (state : OpenState ι) :
    Flow × OpenState ι :=
  let (failure, store) := (state.stores d).setFileHandle line stat
  let state := { state with stores := Function.update state.stores d store, missing := some false }
  match failure with
  | some error => (.raised error, state)
  | none =>
    match versionNum line with
    | .error error => (.raised error, state)
    | .ok version =>
      match state.curVersion with
      | none => (.next, { state with curVersion := some version })
      | some cur => if cur = version then (.next, state)
        else (.restart, .reset dataList state.stores)

/-- The body of the loop over the stores. -/
def visit (dataList : List ι) (state : OpenState ι) : ι × Attempt → Flow × OpenState ι
  | (_, .absent) =>
    if state.missing = some false then (.restart, .reset dataList state.stores)
    else (.next, { state with missing := some true })
  | (_, .denied) => (.raised .ioError, { state with stores := closeAll dataList state.stores })
  | (d, .present line stat) =>
    if state.missing = some true then (.restart, .reset dataList state.stores)
    else readVersion dataList d line stat state

/-- The loop over the stores. -/
def visitAll (dataList : List ι) (state : OpenState ι) : List (ι × Attempt) → Flow × OpenState ι
  | [] => (.next, state)
  | attempt :: rest =>
    match visit dataList state attempt with
    | (.next, state) => visitAll dataList state rest
    | left => left

/-- What the attempts of a pass meet. -/
def attempts (dataList : List ι) (outcomes : ℕ → ℕ → Attempt) (pass : ℕ) : List (ι × Attempt) :=
  dataList.mapIdx fun idx d ↦ (d, outcomes pass idx)

/-- How a call ends: its value, the number of the last pass, and the stores. -/
structure Returned (ι : Type) where
  value : Except OpenError (Option ℤ)
  lastPass : ℕ
  stores : ι → IndexStore

/-- What follows the outer loop. -/
def OpenState.value (state : OpenState ι) : Except OpenError (Option ℤ) :=
  if state.missing = some true then
    if state.curVersion = none then .ok none else .error .assertionError
  else
    match state.curVersion with
    | none => .error .assertionError
    | some version => .ok (some version)

/-- The outer loop, before a pass; `none` if it still goes on when the fuel is used up. -/
def openLoop (dataList : List ι) (outcomes : ℕ → ℕ → Attempt) (expired : ℕ → Bool) :
    (fuel : ℕ) → (pass : ℕ) → OpenState ι → Option (Returned ι)
  | 0, _, _ => none
  | fuel + 1, pass, state =>
    if state.curVersion = none ∧ state.missing ≠ some true then
      if expired pass then some ⟨.error .inconsistentIndexException, pass - 1, state.stores⟩
      else
        match visitAll dataList state (attempts dataList outcomes pass) with
        | (.raised error, state) => some ⟨.error error, pass, state.stores⟩
        | (_, state) => openLoop dataList outcomes expired fuel (pass + 1) state
    else some ⟨state.value, pass - 1, state.stores⟩

/-- `consistent_open(data_list, directory, timeout)`. Attempt `idx` of pass `pass` meets `outcomes
pass idx`, and the time is up before the passes that `expired` holds of. -/
def consistentOpen (dataList : List ι) (outcomes : ℕ → ℕ → Attempt) (expired : ℕ → Bool)
    (stores : ι → IndexStore) (fuel : ℕ) : Option (Returned ι) :=
  openLoop dataList outcomes expired fuel 0 ⟨stores, none, none⟩

/-! ### One pass -/

/-- A store holds the file that an attempt met, and the file has a version. -/
def Held (stores : ι → IndexStore) (version : ℤ) (attempt : ι × Attempt) : Prop :=
  ∃ line stat, attempt.2 = .present line stat ∧ (stores attempt.1).fileHandle = some line ∧
    versionNum line = .ok version

/-- What the loop has found of the stores that it went through. -/
inductive Visited (initial : ι → IndexStore) : List (ι × Attempt) → OpenState ι → Prop
  | start : Visited initial [] ⟨initial, none, none⟩
  | absent {visited} (hne : visited ≠ []) (h : ∀ attempt ∈ visited, attempt.2 = .absent) :
    Visited initial visited ⟨initial, some true, none⟩
  | present {visited stores version} (hne : visited ≠ []) (h : ∀ attempt ∈ visited,
    Held stores version attempt) :
    Visited initial visited ⟨stores, some false, some version⟩

/-- No store of a list holds a handle. -/
def Closed (dataList : List ι) (stores : ι → IndexStore) : Prop :=
  ∀ d ∈ dataList, (stores d).fileHandle = none

theorem closed_closeAll (dataList : List ι) (stores : ι → IndexStore) :
    Closed dataList (closeAll dataList stores) := by
  intro d hd
  rw [closeAll, if_pos hd]
  rfl

theorem setFileHandle_of_none {store store' : IndexStore} {line : List Char}
    {stat : Option StatInfo} (h : store.setFileHandle line stat = (none, store')) :
    store.fileHandle = none ∧ store'.fileHandle = some line := by
  unfold IndexStore.setFileHandle at h
  split_ifs at h with hhandle
  · cases h
  · refine ⟨by simpa using hhandle, ?_⟩
    split at h <;> cases h <;> rfl

variable {attempt : ι × Attempt}

/-- A handle that is set does not touch the stores that hold one. -/
theorem Held.update {stores : ι → IndexStore} {version : ℤ}
    (h : Held stores version attempt) {d : ι} (hd : (stores d).fileHandle = none)
    (store : IndexStore) :
    Held (Function.update stores d store) version attempt := by
  obtain ⟨line, stat, hattempt, hhandle, hversion⟩ := h
  refine ⟨line, stat, hattempt, ?_, hversion⟩
  have hne : attempt.1 ≠ d := by
    rintro rfl
    rw [hd] at hhandle
    cases hhandle
  rw [Function.update_of_ne hne, hhandle]

variable {dataList : List ι} {initial : ι → IndexStore} {visited : List (ι × Attempt)}
  {state state' : OpenState ι}

/-- What is read of a file whose handle was set. -/
theorem readVersion_next {d : ι} {line : List Char} {stat : Option StatInfo}
    (h : readVersion dataList d line stat state = (.next, state')) :
    ∃ store version, (state.stores d).fileHandle = none ∧ store.fileHandle = some line ∧
      versionNum line = .ok version ∧ (∀ cur, state.curVersion = some cur → cur = version) ∧
      state' = ⟨Function.update state.stores d store, some false, some version⟩ := by
  unfold readVersion at h
  cases hset : (state.stores d).setFileHandle line stat with
  | mk failure store =>
    rw [hset] at h
    cases failure with
    | some error => cases h
    | none =>
      obtain ⟨hnone, hsome⟩ := setFileHandle_of_none hset
      cases hversion : versionNum line with
      | error error =>
        simp only [hversion] at h
        cases h
      | ok version =>
        simp only [hversion] at h
        cases hcur : state.curVersion with
        | none =>
          simp only [hcur] at h
          cases h
          exact ⟨store, version, hnone, hsome, rfl, fun cur hsome ↦ (nomatch hsome), rfl⟩
        | some cur =>
          simp only [hcur] at h
          split_ifs at h with heq
          · cases h
            refine ⟨store, version, hnone, hsome, rfl, fun other hother ↦ ?_, by rw [heq]⟩
            exact (Option.some.inj hother).symm.trans heq
          · cases h

/-- One more store is visited. -/
theorem Visited.visit_next (h : Visited initial visited state)
    (hvisit : visit dataList state attempt = (.next, state')) :
    Visited initial (visited ++ [attempt]) state' := by
  obtain ⟨d, outcome⟩ := attempt
  have hne : visited ++ [(d, outcome)] ≠ [] :=
    List.append_ne_nil_of_right_ne_nil _ (List.cons_ne_nil _ _)
  cases outcome with
  | denied => cases hvisit
  | absent =>
    have habsent : ∀ others : List (ι × Attempt), (∀ attempt ∈ others, attempt.2 = .absent) →
        ∀ attempt ∈ others ++ [(d, .absent)], attempt.2 = .absent := by
      intro others hothers attempt hattempt
      rcases List.mem_append.mp hattempt with hattempt | hattempt
      · exact hothers attempt hattempt
      · rw [List.mem_singleton.mp hattempt]
    rw [visit] at hvisit
    split_ifs at hvisit with hmissing
    · cases hvisit
    · obtain rfl := (Prod.mk.inj hvisit).2
      cases h with
      | start => exact .absent hne (habsent [] fun _ hattempt ↦ absurd hattempt List.not_mem_nil)
      | absent _ hall => exact .absent hne (habsent _ hall)
      | present => exact absurd rfl hmissing
  | present line stat =>
    rw [visit] at hvisit
    have hmissing : state.missing ≠ some true := by
      intro hmissing
      rw [if_pos hmissing] at hvisit
      cases hvisit
    rw [if_neg hmissing] at hvisit
    obtain ⟨store, version, hnone, hsome, hversion, hcur, rfl⟩ := readVersion_next hvisit
    have hheld : ∀ stores : ι → IndexStore,
        Held (Function.update stores d store) version (d, .present line stat) :=
      fun stores ↦ ⟨line, stat, rfl, by rw [Function.update_self, hsome], hversion⟩
    cases h with
    | start =>
      refine .present hne fun attempt hattempt ↦ ?_
      rw [List.mem_singleton.mp hattempt]
      exact hheld initial
    | absent => exact absurd rfl hmissing
    | @present _ stores cur _ hall =>
      refine .present hne fun attempt hattempt ↦ ?_
      rcases List.mem_append.mp hattempt with hattempt | hattempt
      · obtain rfl := hcur cur rfl
        exact (hall attempt hattempt).update hnone store
      · rw [List.mem_singleton.mp hattempt]
        exact hheld stores

/-- Before the loop starts over, the handles are closed and the variables are as at the start. -/
theorem visit_restart (h : visit dataList state attempt = (.restart, state')) :
    ∃ stores, Closed dataList stores ∧ state' = ⟨stores, none, none⟩ := by
  obtain ⟨d, outcome⟩ := attempt
  have hreset : ∀ stores, OpenState.reset dataList stores = state' →
      ∃ stores, Closed dataList stores ∧ state' = ⟨stores, none, none⟩ :=
    fun stores heq ↦ ⟨closeAll dataList stores, closed_closeAll dataList stores, heq.symm⟩
  cases outcome with
  | denied => cases h
  | absent =>
    rw [visit] at h
    split_ifs at h
    · exact hreset _ (Prod.mk.inj h).2
    · cases h
  | present line stat =>
    rw [visit] at h
    split_ifs at h
    · exact hreset _ (Prod.mk.inj h).2
    · unfold readVersion at h
      cases hset : (state.stores d).setFileHandle line stat with
      | mk failure store =>
        rw [hset] at h
        cases failure with
        | some error => cases h
        | none =>
          cases hversion : versionNum line with
          | error error =>
            simp only [hversion] at h
            cases h
          | ok version =>
            simp only [hversion] at h
            cases hcur : state.curVersion with
            | none =>
              simp only [hcur] at h
              cases h
            | some cur =>
              simp only [hcur] at h
              split_ifs at h
              · cases h
              · exact hreset _ (Prod.mk.inj h).2

theorem Visited.visitAll_next (h : Visited initial visited state) {rest : List (ι × Attempt)}
    (hvisit : visitAll dataList state rest = (.next, state')) :
    Visited initial (visited ++ rest) state' := by
  induction rest generalizing visited state with
  | nil =>
    cases hvisit
    rwa [List.append_nil]
  | cons attempt rest ih =>
    rw [visitAll] at hvisit
    cases hone : visit dataList state attempt with
    | mk flow next =>
      rw [hone] at hvisit
      cases flow with
      | next =>
        have hrest := ih (h.visit_next hone) hvisit
        rwa [List.append_assoc, List.singleton_append] at hrest
      | restart => cases hvisit
      | raised error => cases hvisit

theorem visitAll_restart {rest : List (ι × Attempt)}
    (h : visitAll dataList state rest = (.restart, state')) :
    ∃ stores, Closed dataList stores ∧ state' = ⟨stores, none, none⟩ := by
  induction rest generalizing state with
  | nil => cases h
  | cons attempt rest ih =>
    rw [visitAll] at h
    cases hone : visit dataList state attempt with
    | mk flow next =>
      rw [hone] at h
      cases flow with
      | next => exact ih h
      | restart =>
        cases h
        exact visit_restart hone
      | raised error => cases h

/-! ### All passes -/

/-- A pass starts as the first one does, and no handle is left from an earlier one. -/
structure AtStart (dataList : List ι) (initial : ι → IndexStore) (pass : ℕ) (state : OpenState ι) :
    Prop where
  missing : state.missing = none
  curVersion : state.curVersion = none
  handles : ∀ d ∈ dataList, (state.stores d).fileHandle = if pass = 0 then (initial d).fileHandle
    else none

/-- How a call ends. -/
inductive Ends (dataList : List ι) (outcomes : ℕ → ℕ → Attempt) (initial : ι → IndexStore) :
    Option (Returned ι) → Prop
  /-- It does not end: it goes on to try. -/
  | retries : Ends dataList outcomes initial none
  | raises {returned error} (hvalue : returned.value = .error error) :
    Ends dataList outcomes initial (some returned)
  /-- It returns a version that every file had, and every file was opened in the last pass. -/
  | version {returned version} (hvalue : returned.value = .ok (some version))
    (hheld : ∀ attempt ∈ attempts dataList outcomes returned.lastPass,
      Held returned.stores version attempt) :
    Ends dataList outcomes initial (some returned)
  /-- It returns `None`. No file was there in the last pass, and no store holds a handle, unless it
  held one before and there was one pass only. -/
  | missing {returned} (hvalue : returned.value = .ok none)
    (habsent : ∀ attempt ∈ attempts dataList outcomes returned.lastPass, attempt.2 = .absent)
    (hhandles : ∀ d ∈ dataList, (returned.stores d).fileHandle =
      if returned.lastPass = 0 then (initial d).fileHandle
      else none) : Ends dataList outcomes initial (some returned)

variable {outcomes : ℕ → ℕ → Attempt} {expired : ℕ → Bool}

omit [DecidableEq ι] in
theorem atStart_of_closed (pass : ℕ) {stores : ι → IndexStore} (h : Closed dataList stores) :
    AtStart dataList initial (pass + 1) ⟨stores, none, none⟩ :=
  ⟨rfl, rfl, fun d hd ↦ by rw [if_neg (Nat.succ_ne_zero pass)]; exact h d hd⟩

theorem openLoop_ends {fuel pass : ℕ} (h : AtStart dataList initial pass state) :
    Ends dataList outcomes initial (openLoop dataList outcomes expired fuel pass state) := by
  induction fuel generalizing pass state with
  | zero => exact .retries
  | succ fuel ih =>
    have hhead : state.curVersion = none ∧ state.missing ≠ some true := by
      rw [h.curVersion, h.missing]
      exact ⟨rfl, fun heq ↦ (nomatch heq)⟩
    rw [openLoop, if_pos hhead]
    by_cases hexpired : expired pass = true
    · rw [if_pos hexpired]
      exact .raises rfl
    rw [if_neg hexpired]
    cases hpass : visitAll dataList state (attempts dataList outcomes pass) with
    | mk flow next =>
      cases flow with
      | raised error => exact .raises rfl
      | restart =>
        obtain ⟨stores, hclosed, rfl⟩ := visitAll_restart hpass
        exact ih (atStart_of_closed pass hclosed)
      | next =>
        obtain ⟨stores, missing, curVersion⟩ := state
        obtain rfl : missing = none := h.missing
        obtain rfl : curVersion = none := h.curVersion
        have hvisited := Visited.start.visitAll_next hpass
        rw [List.nil_append] at hvisited
        dsimp only
        generalize hattempts : attempts dataList outcomes pass = visited at hvisited
        cases hvisited with
        | start =>
          have hnil : dataList = [] := List.mapIdx_eq_nil_iff.mp hattempts
          refine ih (atStart_of_closed pass fun d hd ↦ ?_)
          rw [hnil] at hd
          exact absurd hd List.not_mem_nil
        | absent hne hall =>
          cases fuel with
          | zero => exact .retries
          | succ fuel =>
            rw [openLoop, if_neg fun hboth ↦ hboth.2 rfl]
            exact .missing rfl (fun attempt hattempt ↦
              hall attempt (hattempts ▸ hattempt)) h.handles
        | @present _ stores' version hne hall =>
          cases fuel with
          | zero => exact .retries
          | succ fuel =>
            rw [openLoop, if_neg fun hboth ↦ (nomatch hboth.1)]
            exact .version rfl fun attempt hattempt ↦ hall attempt (hattempts ▸ hattempt)

/-- A call returns a version only if every file was opened in the last pass and had it, and `None`
only if the last pass found no file. Else it goes on to try, or raises. -/
theorem consistentOpen_ends (dataList : List ι) (outcomes : ℕ → ℕ → Attempt) (expired : ℕ → Bool)
    (stores : ι → IndexStore) (fuel : ℕ) :
    Ends dataList outcomes stores (consistentOpen dataList outcomes expired stores fuel) :=
  openLoop_ends ⟨rfl, rfl, fun _ _ ↦ (if_pos rfl).symm⟩

/-- The one file of a store that holds a handle is gone: the handle is kept. -/
theorem consistentOpen_keeps_handle : ∃ returned,
    consistentOpen [()] (fun _ _ ↦ .absent) (fun _ ↦ false) (fun _ ↦
      ⟨some (versionLine 1), none⟩) 2 =
        some returned ∧
      returned.value = .ok none ∧ (returned.stores ()).fileHandle = some (versionLine 1) :=
  ⟨_, rfl, rfl, rfl⟩

end Open

end Userland.Pkg.Search
