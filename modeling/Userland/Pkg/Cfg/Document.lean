import Userland.Library.Numbered
import Userland.Library.Traverse
import Userland.Pkg.Cfg.CfgFile

/-!
# Configuration files as documents

A document is the list of the lines of a file. Setting a record puts its line in the place of the
record with its key or behind all lines, and removing one takes its line out.

A file whose records have distinct keys is edited as the document is, as long as no existing record
is updated with `updatevalue`, which fails: the file that is written is the document
(`documented_of_allHarmless`). A record whose key comes again in the file is lost with the first
change.
-/

set_option autoImplicit false
set_option relaxedAutoImplicit false

namespace Userland.Pkg.Cfg

open Library Library.Program

variable {ν : Type} [DecidableEq ν] (fmt : Format ν)

/-! ### Documents -/

/-- The lines of a file. -/
abbrev Document (ν : Type) := List (Row ν)

/-- The key of a record. -/
def Row.recordKey (row : Row ν) : Option (List ν) :=
  row.dic.bind fmt.key

/-- The line of a record. -/
def Row.print (template : Template ν) : Row ν :=
  ⟨fmt.valuetostr (fmt.columns template), some template⟩

namespace Document

/-- The lines of a text; a line that is no record stands for itself. -/
def read (text : List Char) : Document ν :=
  (fmt.lines text).1.map fun line ↦
    (fmt.row line.1).toOption.getD ⟨line.1.rdropWhile (· == '\n'), none⟩

/-- The document has a record with the key. -/
def has (key : List ν) (doc : Document ν) : Bool :=
  doc.any fun row ↦ decide (row.recordKey fmt = some key)

/-- The document with other lines in place of the last record with a key. -/
def replaceLast (key : List ν) (lines : List (Row ν)) : Document ν → Document ν
  | [] => []
  | row :: rest =>
    if row.recordKey fmt = some key ∧ has fmt key rest = false then lines ++ rest
    else row :: replaceLast key lines rest

/-- The columns of the last record with a key. -/
def find? (key : List ν) (doc : Document ν) : Option (Template ν) :=
  (doc.reverse.find? fun row ↦ decide (row.recordKey fmt = some key)).bind fun row ↦ row.dic

/-- The document with a record in the place of the one with its key, or at the end. -/
def set (template : Template ν) (doc : Document ν) : Option (Document ν) := do
  let template ← (fmt.complete template).toOption
  let key ← fmt.key template
  let row := Row.print fmt template
  if has fmt key doc then some (replaceLast fmt key [row] doc) else some (doc ++ [row])

/-- What a call is for; `none` if it does not apply. -/
def perform (doc : Document ν) : Call ν → Option (Document ν)
  | .setvalue template => set fmt template doc
  | .updatevalue template => do
    let key ← fmt.key template
    let orig ← find? fmt key doc
    set fmt (fmt.overwrite orig template) doc
  | .removevalue template => do
    let key ← fmt.key template
    if has fmt key doc then some (replaceLast fmt key [] doc) else none

/-- The document after a call, and whether it was changed. -/
def step (state : Document ν × Bool) (call : Call ν) : Document ν × Bool :=
  (perform fmt state.1 call).elim state fun doc ↦ (doc, true)

/-- The document after a row of calls, and whether it was changed. -/
def run (state : Document ν × Bool) (calls : List (Call ν)) : Document ν × Bool :=
  calls.foldl (step fmt) state

omit [DecidableEq ν] in
/-- The file after the document was written, if it was changed. -/
def write (state : Document ν × Bool) (text : List Char) : List Char :=
  if state.2 then printLines (state.1.map Row.line) else text

end Document

/-- The file is read, and after the calls it is written as the document. -/
def Documented (text : List Char) (calls : List (Call ν)) : Prop :=
  ∃ file, fmt.readfile text = .ok file ∧
    writefile (run fmt file calls) text =
      Document.write (Document.run fmt (Document.read fmt text, false) calls) text

/-! ### When the file is edited as the document -/

/-- Every line is a comment or a record, and the last one is complete. -/
def Readable (text : List Char) : Prop :=
  (∀ line ∈ (fmt.lines text).1, ∃ row, fmt.row line.1 = .ok row) ∧ (fmt.lines text).2 = false

/-- No two records of the file have one key. -/
def DistinctKeys (text : List Char) : Prop :=
  ((Document.read fmt text).filterMap (Row.recordKey fmt)).Nodup

/-- A required column is missing. -/
def Lacks (template : Template ν) : Prop :=
  ∃ field ∈ fmt.columnNames, template.lookup field = none ∧ fmt.defaultValues field = none

/-- No record has the key of the template. -/
def Absent (file : CfgFile ν) (template : Template ν) : Prop :=
  ∀ key, fmt.key template = some key → file.index.lookup (.record key) = none

/-- The call has nothing to do: it sets an incomplete record, or it is about a record that does not
exist. -/
def Idle (file : CfgFile ν) : Call ν → Prop
  | .setvalue template => Lacks fmt template
  | .updatevalue template => Absent fmt file template
  | .removevalue template => Absent fmt file template

/-- The call has nothing to do, or it sets or removes a record of a file with distinct keys. -/
def Harmless (text : List Char) (file : CfgFile ν) (call : Call ν) : Prop :=
  Idle fmt file call ∨ DistinctKeys fmt text ∧ ∀ template, call ≠ .updatevalue template

/-- All calls are harmless in the states in which they are made. -/
def AllHarmless (text : List Char) : CfgFile ν → List (Call ν) → Prop
  | _, [] => True
  | file, call :: calls => Harmless fmt text file call ∧
    AllHarmless text (perform fmt file call) calls

/-! ### The calls -/

section Calls

variable {fmt} {template : Template ν} {key : List ν} {file : CfgFile ν} {made : Template ν}

omit [DecidableEq ν] in
theorem lookup_of_fill {field : List Char} (h : fmt.fill template field = .ok made) :
    (made.lookup field).isSome ∧ ∀ name, (template.lookup name).isSome →
    (made.lookup name).isSome := by
  unfold Format.fill at h
  split_ifs at h with hfield
  · cases h
    exact ⟨hfield, fun _ ↦ id⟩
  · cases hvalue : fmt.defaultValues field with
    | none =>
      rw [hvalue] at h
      cases h
    | some value =>
      rw [hvalue] at h
      cases h
      refine ⟨by rw [Dict.lookup_set_self]; rfl, fun name hname ↦ ?_⟩
      have hne : name ≠ field := fun heq ↦ hfield (heq ▸ hname)
      rwa [Dict.lookup_set_of_ne _ hne]

omit [DecidableEq ν] in
theorem lookup_fill_of_ne {field name : List Char} (h : fmt.fill template name = .ok made)
    (hne : field ≠ name) : made.lookup field = template.lookup field := by
  unfold Format.fill at h
  split_ifs at h with hname
  · cases h
    rfl
  · cases hvalue : fmt.defaultValues name with
    | none =>
      rw [hvalue] at h
      cases h
    | some value =>
      rw [hvalue] at h
      cases h
      exact Dict.lookup_set_of_ne _ hne _

omit [DecidableEq ν] in
theorem lookup_of_foldlM {names : List (List Char)}
    (h : names.foldlM fmt.fill template = .ok made) :
    (∀ name, (template.lookup name).isSome → (made.lookup name).isSome) ∧
      ∀ name ∈ names, (made.lookup name).isSome := by
  induction names generalizing template with
  | nil =>
    cases h
    exact ⟨fun _ ↦ id, fun _ h ↦ (nomatch h)⟩
  | cons field names ih =>
    rw [List.foldlM_cons] at h
    cases hfill : fmt.fill template field with
    | error e =>
      rw [hfill] at h
      cases h
    | ok filled =>
      rw [hfill] at h
      obtain ⟨hfield, hfirst⟩ := lookup_of_fill hfill
      obtain ⟨hkept, hnames⟩ := ih h
      exact ⟨fun name hname ↦ hkept name (hfirst name hname),
        List.forall_mem_cons.mpr ⟨hkept field hfield, hnames⟩⟩

omit [DecidableEq ν] in
/-- A template cannot be completed exactly if a required column is missing. -/
theorem lacks_iff : Lacks fmt template ↔ ∃ error, fmt.complete template = .error error := by
  unfold Lacks Format.complete
  induction fmt.columnNames generalizing template with
  | nil => exact iff_of_false (fun ⟨_, h, _⟩ ↦ (nomatch h)) (fun ⟨_, h⟩ ↦ (nomatch h))
  | cons name names ih =>
    rw [List.foldlM_cons]
    cases hfill : fmt.fill template name with
    | error e =>
      refine iff_of_true ⟨name, List.mem_cons_self, ?_⟩ ⟨e, rfl⟩
      unfold Format.fill at hfill
      split_ifs at hfill with hname
      refine ⟨Option.not_isSome_iff_eq_none.mp hname, ?_⟩
      cases hvalue : fmt.defaultValues name with
      | none => rfl
      | some value =>
        rw [hvalue] at hfill
        cases hfill
    | ok filled =>
      have hrest : (∃ field ∈ names, filled.lookup field = none ∧ fmt.defaultValues field = none) ↔
          ∃ error, names.foldlM fmt.fill filled = .error error := ih
      refine Iff.trans ?_ hrest
      obtain ⟨hname, hkept⟩ := lookup_of_fill hfill
      constructor
      · rintro ⟨field, hfield, hnone, hdefault⟩
        have hne : field ≠ name := by
          rintro rfl
          unfold Format.fill at hfill
          rw [hnone, hdefault] at hfill
          cases hfill
        refine ⟨field, (List.mem_cons.mp hfield).resolve_left hne, ?_, hdefault⟩
        rw [lookup_fill_of_ne hfill hne, hnone]
      · rintro ⟨field, hfield, hnone, hdefault⟩
        refine ⟨field, List.mem_cons_of_mem _ hfield, ?_, hdefault⟩
        by_contra hsome
        have hfound := hkept field (Option.isSome_iff_ne_none.mpr hsome)
        rw [hnone] at hfound
        cases hfound

omit [DecidableEq ν] in
/-- A completed template has a key. -/
theorem exists_key_of_complete (h : fmt.complete template = .ok made) :
    ∃ key, fmt.key made = some key := by
  refine Traverse.exists_mapM_iff.mpr fun k hk ↦ Option.isSome_iff_exists.mp ?_
  exact (lookup_of_foldlM h).2 k (fmt.keys_subset k hk)

/-- Every entry stands under its own key. -/
def WellKeyed (fmt : Format ν) (index : List (Key ν × Entry ν)) : Prop :=
  ∀ entry ∈ index, fmt.rowKey entry.2.toRow entry.2.lineno = .ok entry.1

omit [DecidableEq ν] in
theorem exec_keyOf_of_some (h : fmt.key template = some key) (file : CfgFile ν) :
    (keyOf fmt template).exec file = (.ok key, file) := by
  rw [keyOf, h]
  rfl

omit [DecidableEq ν] in
theorem exec_keyOf_of_none (h : fmt.key template = none) (file : CfgFile ν) :
    (keyOf fmt template).exec file = (.error .keyError, file) := by
  rw [keyOf, h]
  rfl

theorem exec_deleteKey_of_none {k : Key ν} (h : file.index.lookup k = none) :
    (deleteKey k).exec file = (.error .keyError, file) := by
  rw [deleteKey, exec_bind, exec_get]
  dsimp only
  rw [if_pos h]
  rfl

theorem exec_deleteKey_of_some {k : Key ν} {entry : Entry ν}
    (h : file.index.lookup k = some entry) :
    (deleteKey k).exec file = (.ok (), ⟨Dict.erase file.index k, file.needswriting⟩) := by
  rw [deleteKey, exec_bind, exec_get]
  dsimp only
  rw [if_neg (by rw [h]; exact Option.some_ne_none entry)]
  rfl

omit [DecidableEq ν] in
theorem rowKey_eq_record_iff {row : Row ν} (lineno : ℕ) :
    fmt.rowKey row lineno = .ok (.record key) ↔ row.recordKey fmt = some key := by
  unfold Format.rowKey Row.recordKey
  cases row.dic with
  | none => exact iff_of_false (by simp) (by simp)
  | some dic => cases hkey : fmt.key dic <;> simp [hkey]

theorem exec_takeLineno_of_none (h : file.index.lookup (.record key) = none) :
    (takeLineno fmt key).exec file = (.ok (nextLineno file.index), file) := by
  rw [takeLineno, exec_bind, exec_get]
  dsimp only
  rw [h]
  rfl

theorem exec_takeLineno_of_some (hkeyed : WellKeyed fmt file.index) {orig : Entry ν}
    (h : file.index.lookup (.record key) = some orig) :
    (takeLineno fmt key).exec file =
      (.ok orig.lineno, ⟨Dict.erase file.index (.record key), file.needswriting⟩) := by
  have hkey := (rowKey_eq_record_iff _).mp (hkeyed _ (Dict.mem_of_lookup h))
  obtain ⟨dic, hdic, hdickey⟩ := Option.bind_eq_some_iff.mp hkey
  rw [takeLineno, exec_bind, exec_get]
  dsimp only
  rw [h]
  dsimp only
  rw [exec_bind, exec_lift, hdic]
  dsimp only [Option.elim_some]
  rw [exec_bind, exec_keyOf_of_some hdickey]
  dsimp only
  rw [exec_bind, exec_deleteKey_of_some h]
  rfl

theorem exec_setvalue_of_error {error : Error} (h : fmt.complete template = .error error) :
    (setvalue fmt template).exec file = (.error error, file) := by
  rw [setvalue, exec_bind, exec_lift, h]

/-- Setting a record gives its entry up and adds the new one under its line number. -/
theorem exec_setvalue (hkeyed : WellKeyed fmt file.index)
    (h : fmt.complete template = .ok made) (hkey : fmt.key made = some key) :
    (setvalue fmt template).exec file =
      (.ok (), ⟨Dict.erase file.index (.record key) ++
        [(.record key, ⟨Row.print fmt made, (file.index.lookup (.record key)).elim
          (nextLineno file.index) Entry.lineno⟩)], true⟩) := by
  have hset : ∀ entry, Dict.set (Dict.erase file.index (.record key)) (.record key) entry =
      Dict.erase file.index (.record key) ++ [(.record key, entry)] := fun entry ↦
    Dict.set_of_notMem (Numbered.notMem_erase _ _) entry
  rw [setvalue, exec_bind, exec_lift, h]
  dsimp only
  rw [exec_bind, exec_keyOf_of_some hkey]
  dsimp only
  rw [exec_bind]
  cases hlookup : file.index.lookup (.record key) with
  | none =>
    have herase : Dict.erase file.index (.record key) = file.index :=
        List.filter_eq_self.mpr fun entry hentry ↦ by
      have hne := List.lookup_eq_none_iff.mp hlookup entry hentry
      rw [bne_iff_ne] at hne ⊢
      exact hne.symm
    rw [exec_takeLineno_of_none hlookup]
    dsimp only
    rw [exec_modify, ← hset, herase]
    rfl
  | some orig =>
    rw [exec_takeLineno_of_some hkeyed hlookup]
    dsimp only
    rw [exec_modify, ← hset]
    rfl

theorem exec_removevalue_of_none (h : ∀ key, fmt.key template = some key →
    file.index.lookup (.record key) = none) :
    (removevalue fmt template).exec file = (.error .keyError, file) := by
  rw [removevalue, exec_bind]
  cases hkey : fmt.key template with
  | none => rw [exec_keyOf_of_none hkey]
  | some key =>
    rw [exec_keyOf_of_some hkey]
    dsimp only
    rw [exec_bind, exec_deleteKey_of_none (h key hkey)]

theorem exec_removevalue {entry : Entry ν} (hkey : fmt.key template = some key)
    (h : file.index.lookup (.record key) = some entry) :
    (removevalue fmt template).exec file = (.ok (),
      ⟨Dict.erase file.index (.record key), true⟩) := by
  rw [removevalue, exec_bind, exec_keyOf_of_some hkey]
  dsimp only
  rw [exec_bind, exec_deleteKey_of_some h]
  rfl

/-- `updatevalue` never succeeds. -/
theorem exec_updatevalue (fmt : Format ν) (template : Template ν) (file : CfgFile ν) :
    ∃ error, (updatevalue fmt template).exec file = (.error error, file) := by
  rw [updatevalue, exec_bind]
  cases hkey : fmt.key template with
  | none => exact ⟨.keyError, by rw [exec_keyOf_of_none hkey]⟩
  | some key =>
    rw [exec_keyOf_of_some hkey]
    dsimp only
    rw [exec_bind, exec_get]
    dsimp only
    split_ifs
    · exact ⟨.keyError, rfl⟩
    · exact ⟨.attributeError, rfl⟩

end Calls

/-! ### One call -/

section Step

variable {fmt} {index rows : List (Key ν × Entry ν)} {doc : Document ν} {file : CfgFile ν}
  {call : Call ν}

theorem WellKeyed.has_iff (h : WellKeyed fmt rows) (key : List ν) :
    Document.has fmt key (rows.map fun row ↦ row.2.toRow) = true ↔
    rows.lookup (.record key) ≠ none := by
  rw [Document.has, List.any_map, List.any_eq_true, ne_eq, List.lookup_eq_none_iff, not_forall]
  refine exists_congr fun row ↦ ?_
  rw [Classical.not_imp, bne_iff_ne, not_not]
  refine and_congr_right fun hrow ↦ ?_
  rw [Function.comp_apply, decide_eq_true_iff, ← rowKey_eq_record_iff row.2.lineno, h row hrow,
    Except.ok.injEq, eq_comm]

/-- The dictionary and the document have the same records. -/
structure Agrees (fmt : Format ν) (index : List (Key ν × Entry ν)) (doc : Document ν) : Prop where
  keyed : WellKeyed fmt index
  has_iff : ∀ key, Document.has fmt key doc = true ↔ index.lookup (.record key) ≠ none

/-- The document is the list of the entries in the order of their line numbers. -/
structure Stands (fmt : Format ν) (index rows : List (Key ν × Entry ν)) (doc : Document ν) :
    Prop where
  holds : Numbered.Holds Entry.lineno index rows
  keyed : WellKeyed fmt rows
  doc_eq : doc = rows.map fun row ↦ row.2.toRow

theorem Stands.agrees (h : Stands fmt index rows doc) : Agrees fmt index doc := by
  refine ⟨fun entry hentry ↦ h.keyed entry (h.holds.perm.mem_iff.mp hentry), fun key ↦ ?_⟩
  rw [h.doc_eq, h.keyed.has_iff, h.holds.lookup_eq]

/-- A call that has nothing to do changes neither the state nor the document. -/
theorem Agrees.of_idle (h : Agrees fmt file.index doc) (hidle : Idle fmt file call) :
    perform fmt file call = file ∧ Document.perform fmt doc call = none := by
  have hnot : ∀ template key, Absent fmt file template → fmt.key template = some key →
      ¬ Document.has fmt key doc = true := fun template key habsent hkey hhas ↦
    (h.has_iff key).mp hhas (habsent key hkey)
  cases call with
  | setvalue template =>
    obtain ⟨error, herror⟩ := lacks_iff.mp hidle
    refine ⟨congrArg Prod.snd (exec_setvalue_of_error herror), ?_⟩
    rw [Document.perform, Document.set, herror]
    rfl
  | updatevalue template =>
    obtain ⟨error, hrun⟩ := exec_updatevalue fmt template file
    refine ⟨congrArg Prod.snd hrun, ?_⟩
    rw [Document.perform]
    cases hkey : fmt.key template with
    | none => rfl
    | some key =>
      have hnone := hnot template key hidle hkey
      rw [Document.has, List.any_eq_true] at hnone
      have hfind : Document.find? fmt key doc = none := by
        rw [Document.find?, List.find?_eq_none.mpr fun row hrow hfound ↦
          hnone ⟨row, List.mem_reverse.mp hrow, hfound⟩]
        rfl
      show (Document.find? fmt key doc).bind _ = none
      rw [hfind]
      rfl
  | removevalue template =>
    refine ⟨congrArg Prod.snd (exec_removevalue_of_none hidle), ?_⟩
    rw [Document.perform]
    cases hkey : fmt.key template with
    | none => rfl
    | some key => exact if_neg (hnot template key hidle hkey)

/-- In a file with distinct keys, the last record with a key is the only one. -/
theorem replaceLast_map (h : WellKeyed fmt rows) (hnodup : (rows.map Prod.fst).Nodup) (key : List ν)
    (lines : List (Row ν)) :
    Document.replaceLast fmt key lines (rows.map fun row ↦ row.2.toRow) =
      rows.flatMap fun row ↦ if row.1 = .record key then lines else [row.2.toRow] := by
  induction rows with
  | nil => rfl
  | cons row rows ih =>
    have hrow := h row List.mem_cons_self
    have hrest : WellKeyed fmt rows := fun other hother ↦ h other (List.mem_cons_of_mem _ hother)
    rw [List.map_cons, List.nodup_cons] at hnodup
    rw [List.map_cons, Document.replaceLast, List.flatMap_cons, ih hrest hnodup.2]
    by_cases hkey : row.1 = .record key
    · have hothers : ∀ other ∈ rows, other.1 ≠ .record key := fun other hother heq ↦
        hnodup.1 (hkey ▸ heq ▸ List.mem_map_of_mem hother)
      have hhas : Document.has fmt key (rows.map fun row ↦ row.2.toRow) = false := by
        rw [← Bool.not_eq_true, hrest.has_iff, not_not, List.lookup_eq_none_iff]
        exact fun other hother ↦ bne_iff_ne.mpr (hothers other hother).symm
      rw [if_pos ⟨(rowKey_eq_record_iff _).mp (hkey ▸ hrow), hhas⟩, if_pos hkey,
        List.flatMap_congr fun other hother ↦ if_neg (hothers other hother), List.map_eq_flatMap]
    · have hrecord : row.2.toRow.recordKey fmt ≠ some key := fun heq ↦
        hkey (Except.ok.inj (hrow.symm.trans ((rowKey_eq_record_iff _).mpr heq)))
      rw [if_neg fun hand ↦ hrecord hand.1, if_neg hkey]
      rfl

theorem replaceLast_replaceKey (h : WellKeyed fmt rows) (hnodup : (rows.map Prod.fst).Nodup)
    (key : List ν) (entry : Entry ν) :
    Document.replaceLast fmt key [entry.toRow] (rows.map fun row ↦ row.2.toRow) =
      (Numbered.replaceKey (.record key) entry rows).map fun row ↦ row.2.toRow := by
  rw [replaceLast_map h hnodup, Numbered.replaceKey, List.map_map, List.map_eq_flatMap]
  refine List.flatMap_congr fun row _ ↦ ?_
  by_cases hkey : row.1 = .record key
  · simp [hkey]
  · simp [hkey]

theorem replaceLast_erase (h : WellKeyed fmt rows) (hnodup : (rows.map Prod.fst).Nodup)
    (key : List ν) :
    Document.replaceLast fmt key [] (rows.map fun row ↦ row.2.toRow) =
      (Dict.erase rows (.record key)).map fun row ↦ row.2.toRow := by
  rw [replaceLast_map h hnodup, Dict.erase]
  clear h hnodup
  induction rows with
  | nil => rfl
  | cons row rows ih =>
    rw [List.flatMap_cons, ih]
    by_cases hkey : row.1 = .record key
    · rw [if_pos hkey, List.filter_cons_of_neg (by simp [hkey]), List.nil_append]
    · rw [if_neg hkey, List.filter_cons_of_pos (by simp [hkey]), List.map_cons,
        List.singleton_append]

omit [DecidableEq ν] in
/-- A new record comes behind all others. -/
theorem lt_nextLineno {entry : Key ν × Entry ν} (h : entry ∈ index) :
    entry.2.lineno < nextLineno index := by
  have hmem : entry.2.lineno ∈ index.map fun entry ↦ entry.2.lineno := List.mem_map_of_mem h
  unfold nextLineno
  cases hmax : (index.map fun entry ↦ entry.2.lineno).max? with
  | none =>
    rw [List.max?_eq_none_iff.mp hmax] at hmem
    cases hmem
  | some largest => exact Nat.lt_succ_of_le ((List.max?_eq_some_iff.mp hmax).2 _ hmem)

omit [DecidableEq ν] in
theorem rowKey_print {made : Template ν} {key : List ν} (h : fmt.key made = some key) (lineno : ℕ) :
    fmt.rowKey (Row.print fmt made) lineno = .ok (.record key) := by
  unfold Format.rowKey Row.print
  dsimp only
  rw [h]
  rfl

/-- Setting a record edits the document. -/
theorem Stands.setvalue (h : Stands fmt file.index rows doc) {template made : Template ν}
    {key : List ν} (hcomplete : fmt.complete template = .ok made) (hkey : fmt.key made = some key) :
    ∃ rows' doc', Document.perform fmt doc (.setvalue template) = some doc' ∧
      Stands fmt (perform fmt file (.setvalue template)).index rows' doc' ∧
      (perform fmt file (.setvalue template)).needswriting = true := by
  have hperform : perform fmt file (.setvalue template) = _ :=
    congrArg Prod.snd (exec_setvalue h.agrees.keyed hcomplete hkey)
  have hset : Document.perform fmt doc (.setvalue template) =
      if Document.has fmt key doc then some (Document.replaceLast fmt key [Row.print fmt made] doc)
      else some (doc ++ [Row.print fmt made]) := by
    rw [Document.perform, Document.set, hcomplete]
    show (fmt.key made).bind _ = _
    rw [hkey]
    rfl
  rw [hset, hperform]
  cases hlookup : file.index.lookup (.record key) with
  | none =>
    have hnotMem : Key.record key ∉ rows.map Prod.fst := by
      intro hmem
      obtain ⟨row, hrow, hrowkey⟩ := List.mem_map.mp hmem
      have hne := List.lookup_eq_none_iff.mp (h.holds.lookup_eq _ ▸ hlookup) row hrow
      exact bne_iff_ne.mp hne hrowkey.symm
    have herase : Dict.erase file.index (.record key) = file.index :=
      List.filter_eq_self.mpr fun entry hentry ↦ bne_iff_ne.mpr fun heq ↦
        hnotMem (heq ▸ List.mem_map_of_mem (h.holds.perm.mem_iff.mp hentry))
    have hhas : ¬ Document.has fmt key doc = true := fun hhas ↦
      (h.agrees.has_iff key).mp hhas hlookup
    refine ⟨rows ++ [(.record key, ⟨Row.print fmt made, nextLineno file.index⟩)], _, if_neg hhas,
      ⟨?_, ?_, ?_⟩, rfl⟩
    · rw [herase]
      exact h.holds.append hnotMem fun row hrow ↦ lt_nextLineno (h.holds.perm.mem_iff.mpr hrow)
    · intro row hrow
      rcases List.mem_append.mp hrow with hrow | hrow
      · exact h.keyed row hrow
      · rw [List.mem_singleton.mp hrow]
        exact rowKey_print hkey _
    · rw [List.map_append, h.doc_eq]
      rfl
  | some orig =>
    have hhas : Document.has fmt key doc = true := (h.agrees.has_iff key).mpr (by simp [hlookup])
    refine ⟨Numbered.replaceKey (.record key) ⟨Row.print fmt made, orig.lineno⟩ rows, _,
      if_pos hhas, ⟨h.holds.replace hlookup rfl, ?_, ?_⟩, rfl⟩
    · intro row hrow
      obtain ⟨old, hold, rfl⟩ := List.mem_map.mp hrow
      split_ifs
      · exact rowKey_print hkey _
      · exact h.keyed old hold
    · rw [h.doc_eq]
      exact replaceLast_replaceKey h.keyed h.holds.nodup key ⟨Row.print fmt made, orig.lineno⟩

/-- Removing a record takes its line out of the document. -/
theorem Stands.removevalue (h : Stands fmt file.index rows doc) {template : Template ν}
    {key : List ν} {entry : Entry ν} (hkey : fmt.key template = some key)
    (hlookup : file.index.lookup (.record key) = some entry) :
    ∃ rows' doc', Document.perform fmt doc (.removevalue template) = some doc' ∧
      Stands fmt (perform fmt file (.removevalue template)).index rows' doc' ∧
      (perform fmt file (.removevalue template)).needswriting = true := by
  have hperform : perform fmt file (.removevalue template) = _ :=
    congrArg Prod.snd (exec_removevalue hkey hlookup)
  have hhas : Document.has fmt key doc = true := (h.agrees.has_iff key).mpr (by simp [hlookup])
  have hremove : Document.perform fmt doc (.removevalue template) =
      some (Document.replaceLast fmt key [] doc) := by
    rw [Document.perform, hkey]
    exact if_pos hhas
  rw [hremove, hperform]
  refine ⟨Dict.erase rows (.record key), _, rfl, ⟨h.holds.erase _, ?_, ?_⟩, rfl⟩
  · exact fun row hrow ↦ h.keyed row (List.mem_filter.mp hrow).1
  · rw [h.doc_eq]
    exact replaceLast_erase h.keyed h.holds.nodup key

end Step

/-! ### Reading -/

section Reading

variable {fmt} {rows : List (Key ν × Entry ν)}

theorem count_pos_of_mem_joinLines {continuation : Bool} {physical : List (List Char)}
    {pending : List Char × ℕ} {line : List Char × ℕ}
    (h : line ∈ (joinLines continuation pending physical).1) : 0 < line.2 := by
  induction physical generalizing pending with
  | nil => cases h
  | cons first physical ih =>
    rw [joinLines] at h
    dsimp only at h
    split_ifs at h
    · exact ih h
    · rcases List.mem_cons.mp h with rfl | h
      · exact Nat.succ_pos _
      · exact ih h

omit [DecidableEq ν] in
theorem lookup_zip {names : List (List Char)} {cols : List ν} (h : cols.length = names.length)
    {name : List Char} (hname : name ∈ names) :
    ∃ value, (names.zip cols).lookup name = some value := by
  induction names generalizing cols with
  | nil => cases hname
  | cons first names ih =>
    cases cols with
    | nil => cases h
    | cons value cols =>
      rw [List.zip_cons_cons, List.lookup_cons]
      by_cases heq : name = first
      · exact ⟨value, by rw [heq, beq_self_eq_true]⟩
      · rw [beq_eq_false_iff_ne.mpr heq]
        exact ih (Nat.succ.inj h) ((List.mem_cons.mp hname).resolve_left heq)

omit [DecidableEq ν] in
/-- A record that is read has all columns. -/
theorem exists_lookup_of_row {line : List Char} {row : Row ν} {dic : Template ν}
    (h : fmt.row line = .ok row)
    (hdic : row.dic = some dic) {name : List Char} (hname : name ∈ fmt.columnNames) :
    ∃ value, dic.lookup name = some value := by
  unfold Format.row at h
  dsimp only at h
  split_ifs at h with hcomment
  · cases h
    cases hdic
  · cases hcols : fmt.splitline (line.rdropWhile (· == '\n')) with
    | error e =>
      rw [hcols] at h
      cases h
    | ok cols =>
      rw [hcols] at h
      cases h
      cases hdic
      exact lookup_zip (fmt.length_splitline _ _ hcols) hname

omit [DecidableEq ν] in
/-- Every line that is read has a key. -/
theorem exists_rowKey {line : List Char} {row : Row ν} (h : fmt.row line = .ok row) (lineno : ℕ) :
    ∃ key, fmt.rowKey row lineno = .ok key := by
  cases hdic : row.dic with
  | none => exact ⟨.line lineno, by rw [Format.rowKey, hdic]⟩
  | some dic =>
    have hkey : ∃ key, fmt.key dic = some key :=
      Traverse.exists_mapM_iff.mpr fun k hk ↦ exists_lookup_of_row h hdic (fmt.keys_subset k hk)
    obtain ⟨key, hkey⟩ := hkey
    exact ⟨.record key, by rw [rowKey_eq_record_iff, Row.recordKey, hdic]; exact hkey⟩

omit [DecidableEq ν] in
theorem rowKey_eq_line_iff {row : Row ν} {lineno n : ℕ} :
    fmt.rowKey row lineno = .ok (.line n) ↔ row.dic = none ∧ lineno = n := by
  unfold Format.rowKey
  cases row.dic with
  | none => simp
  | some dic => cases hkey : fmt.key dic <;> simp [hkey]

/-- The entries of the lines of a file. -/
structure Reads (fmt : Format ν) (lineno : ℕ) (lines : List (List Char × ℕ))
    (rows : List (Key ν × Entry ν)) : Prop where
  entries : fmt.entries lineno lines = .ok rows
  keyed : WellKeyed fmt rows
  rows_eq : (rows.map fun row ↦ row.2.toRow) =
    lines.map fun line ↦ (fmt.row line.1).toOption.getD ⟨line.1.rdropWhile (· == '\n'), none⟩
  le : ∀ row ∈ rows, lineno ≤ row.2.lineno
  increasing : rows.Pairwise fun x y ↦ x.2.lineno < y.2.lineno

omit [DecidableEq ν] in
theorem exists_row_of_entries {lines : List (List Char × ℕ)} {lineno : ℕ}
    (h : fmt.entries lineno lines = .ok rows) :
    ∀ line ∈ lines, ∃ row, fmt.row line.1 = .ok row := by
  induction lines generalizing lineno rows with
  | nil => exact fun _ h ↦ (nomatch h)
  | cons line lines ih =>
    rw [Format.entries] at h
    cases hrow : fmt.row line.1 with
    | error e =>
      rw [hrow] at h
      cases h
    | ok row =>
      rw [hrow] at h
      change (fmt.rowKey row lineno).bind _ = _ at h
      obtain ⟨key, hkey⟩ := exists_rowKey hrow lineno
      rw [hkey] at h
      change (fmt.entries (lineno + line.2) lines).bind _ = _ at h
      cases hothers : fmt.entries (lineno + line.2) lines with
      | error e =>
        rw [hothers] at h
        cases h
      | ok others => exact List.forall_mem_cons.mpr ⟨⟨row, hrow⟩, ih hothers⟩

/-- What holds of every line under its key holds of the entries of a file that is read. -/
theorem forall_mem_of_readfile {P : Key ν → Entry ν → Prop} {text : List Char} {file : CfgFile ν}
    (h : fmt.readfile text = .ok file)
    (hline : ∀ line row lineno key, fmt.row line = .ok row → fmt.rowKey row lineno = .ok key →
      P key ⟨row, lineno⟩) :
    (file.index.map Prod.fst).Nodup ∧ ∀ entry ∈ file.index, P entry.1 entry.2 := by
  have hentries : ∀ (lines : List (List Char × ℕ)) (lineno : ℕ) (rows : List (Key ν × Entry ν)),
      fmt.entries lineno lines = .ok rows → ∀ entry ∈ rows, P entry.1 entry.2 := by
    intro lines
    induction lines with
    | nil =>
      intro lineno rows hrows
      obtain rfl := Except.ok.inj hrows
      exact fun _ hentry ↦ absurd hentry List.not_mem_nil
    | cons line lines ih =>
      intro lineno rows hrows
      rw [Format.entries] at hrows
      obtain ⟨row, hrow, hrows⟩ := Program.bind_eq_ok hrows
      obtain ⟨key, hkey, hrows⟩ := Program.bind_eq_ok hrows
      obtain ⟨others, hothers, hrows⟩ := Program.bind_eq_ok hrows
      obtain rfl := Except.ok.inj hrows
      exact List.forall_mem_cons.mpr ⟨hline _ _ _ _ hrow hkey, ih _ _ hothers⟩
  unfold Format.readfile at h
  obtain ⟨rows, hrows, h⟩ := Program.bind_eq_ok h
  split_ifs at h
  obtain rfl := Except.ok.inj h
  exact ⟨Dict.nodup_foldl_set rows List.nodup_nil,
    Dict.forall_mem_foldl_set (fun _ hentry ↦ absurd hentry List.not_mem_nil)
      (hentries _ _ _ hrows)⟩

omit [DecidableEq ν] in
theorem exists_reads {lines : List (List Char × ℕ)}
    (hrows : ∀ line ∈ lines, ∃ row, fmt.row line.1 = .ok row)
    (hpos : ∀ line ∈ lines, 0 < line.2) (lineno : ℕ) : ∃ rows, Reads fmt lineno lines rows := by
  induction lines generalizing lineno with
  | nil => exact ⟨[], rfl, fun _ h ↦ (nomatch h), rfl, fun _ h ↦ (nomatch h), List.Pairwise.nil⟩
  | cons line lines ih =>
    obtain ⟨⟨row, hrow⟩, hrows⟩ := List.forall_mem_cons.mp hrows
    obtain ⟨hcount, hpos⟩ := List.forall_mem_cons.mp hpos
    obtain ⟨key, hkey⟩ := exists_rowKey hrow lineno
    obtain ⟨rows, hread⟩ := ih hrows hpos (lineno + line.2)
    have hlt : ∀ other ∈ rows, lineno < other.2.lineno := fun other hother ↦
      Nat.lt_of_lt_of_le (Nat.lt_add_of_pos_right hcount) (hread.le other hother)
    refine ⟨(key, ⟨row, lineno⟩) :: rows, ?_, List.forall_mem_cons.mpr ⟨hkey, hread.keyed⟩, ?_,
      List.forall_mem_cons.mpr ⟨Nat.le_refl _, fun other hother ↦ (hlt other hother).le⟩,
      List.pairwise_cons.mpr ⟨hlt, hread.increasing⟩⟩
    · rw [Format.entries, hrow]
      show (fmt.rowKey row lineno).bind _ = _
      rw [hkey]
      show (fmt.entries (lineno + line.2) lines).bind _ = _
      rw [hread.entries]
      rfl
    · rw [List.map_cons, List.map_cons, hread.rows_eq, hrow]
      rfl

omit [DecidableEq ν] in
/-- Records with distinct keys and comments with distinct numbers have distinct keys in the
dictionary. -/
theorem nodup_keys (hkeyed : WellKeyed fmt rows)
    (hincreasing : rows.Pairwise fun x y ↦ x.2.lineno < y.2.lineno)
    (hdistinct : ((rows.map fun row ↦ row.2.toRow).filterMap (Row.recordKey fmt)).Nodup) :
    (rows.map Prod.fst).Nodup := by
  induction rows with
  | nil => exact List.nodup_nil
  | cons row rows ih =>
    obtain ⟨hrow, hkeyed⟩ := List.forall_mem_cons.mp hkeyed
    obtain ⟨hlt, hincreasing⟩ := List.pairwise_cons.mp hincreasing
    rw [List.map_cons, List.filterMap_cons] at hdistinct
    have hrest : ((rows.map fun row ↦ row.2.toRow).filterMap (Row.recordKey fmt)).Nodup := by
      cases hkey : row.2.toRow.recordKey fmt with
      | none => rwa [hkey] at hdistinct
      | some key =>
        rw [hkey] at hdistinct
        exact (List.nodup_cons.mp hdistinct).2
    refine List.nodup_cons.mpr ⟨fun hmem ↦ ?_, ih hkeyed hincreasing hrest⟩
    obtain ⟨other, hother, heq⟩ := List.mem_map.mp hmem
    have hotherkey := hkeyed other hother
    rw [heq] at hotherkey
    cases hkey : row.1 with
    | line n =>
      rw [hkey] at hrow hotherkey
      have hlineno := (rowKey_eq_line_iff.mp hrow).2.trans (rowKey_eq_line_iff.mp hotherkey).2.symm
      exact absurd hlineno (Nat.ne_of_lt (hlt other hother))
    | record values =>
      rw [hkey, rowKey_eq_record_iff] at hrow hotherkey
      rw [hrow] at hdistinct
      exact (List.nodup_cons.mp hdistinct).1
        (List.mem_filterMap.mpr ⟨other.2.toRow, List.mem_map_of_mem hother, hotherkey⟩)

end Reading

/-! ### Runs -/

section Runs

variable {fmt} {text : List Char} {file : CfgFile ν} {state : Document ν × Bool}

/-- The state stands for the document that was edited alike. -/
structure Mirrors (fmt : Format ν) (text : List Char) (file : CfgFile ν)
    (state : Document ν × Bool) :
    Prop where
  agrees : Agrees fmt file.index state.1
  stands : DistinctKeys fmt text → ∃ rows, Stands fmt file.index rows state.1
  changed : file.needswriting = state.2
  distinct : state.2 = true → DistinctKeys fmt text

theorem readfile_eq {rows : List (Key ν × Entry ν)} (hopen : (fmt.lines text).2 = false)
    (hread : Reads fmt 1 (fmt.lines text).1 rows) :
    fmt.readfile text =
      .ok ⟨rows.foldl (fun index row ↦ Dict.set index row.1 row.2) [], false⟩ := by
  unfold Format.readfile
  rw [hread.entries]
  show (if (fmt.lines text).2 = true then _ else _) = _
  rw [hopen]
  rfl

/-- A file whose lines are comments and records is read as the document. -/
theorem exists_mirrors (h : Readable fmt text) :
    ∃ file, fmt.readfile text = .ok file ∧ Mirrors fmt text file (Document.read fmt text,
      false) := by
  obtain ⟨rows, hread⟩ := exists_reads h.1 (fun line hline ↦ count_pos_of_mem_joinLines hline) 1
  have hdoc : Document.read fmt text = rows.map fun row ↦ row.2.toRow := hread.rows_eq.symm
  refine ⟨_, readfile_eq h.2 hread, ⟨?_, fun key ↦ ?_⟩, fun hdistinct ↦ ?_, rfl,
    fun hchanged ↦ (nomatch hchanged)⟩
  · exact Dict.forall_mem_foldl_set (P := fun key (entry : Entry ν) ↦
      fmt.rowKey entry.toRow entry.lineno = .ok key) (fun _ h ↦ (nomatch h)) hread.keyed
  · rw [Dict.lookup_ne_none_iff, Dict.mem_keys_foldl_set, hdoc, hread.keyed.has_iff,
      Dict.lookup_ne_none_iff]
    simp
  · have hnodup := nodup_keys hread.keyed hread.increasing (hdoc ▸ hdistinct)
    refine ⟨rows, ⟨?_, hnodup, hread.increasing⟩, hread.keyed, hdoc⟩
    show (rows.foldl (fun index row ↦ Dict.set index row.1 row.2) []).Perm rows
    rw [Dict.foldl_set_of_nodup (by simpa using hnodup), List.nil_append]

/-- Only such a file is read. -/
theorem readable_iff : (∃ file, fmt.readfile text = .ok file) ↔ Readable fmt text := by
  refine ⟨fun ⟨file, hfile⟩ ↦ ?_, fun h ↦ (exists_mirrors h).imp fun _ hfile ↦ hfile.1⟩
  unfold Format.readfile at hfile
  cases hentries : fmt.entries 1 (fmt.lines text).1 with
  | error e =>
    rw [hentries] at hfile
    cases hfile
  | ok rows =>
    rw [hentries] at hfile
    refine ⟨exists_row_of_entries hentries, Bool.eq_false_iff.mpr fun hopen ↦ ?_⟩
    change (if (fmt.lines text).2 = true then _ else _) = _ at hfile
    rw [if_pos hopen] at hfile
    cases hfile

theorem Mirrors.step (h : Mirrors fmt text file state) {call : Call ν}
    (hharmless : Harmless fmt text file call) :
    Mirrors fmt text (perform fmt file call) (Document.step fmt state call) := by
  by_cases hidle : Idle fmt file call
  · obtain ⟨hfile, hdoc⟩ := h.agrees.of_idle hidle
    rw [hfile, Document.step, hdoc]
    exact h
  · obtain ⟨hdistinct, hupdate⟩ := hharmless.resolve_left hidle
    obtain ⟨rows, hstands⟩ := h.stands hdistinct
    have hedit : ∃ rows doc, Document.perform fmt state.1 call = some doc ∧
        Stands fmt (perform fmt file call).index rows doc ∧
            (perform fmt file call).needswriting = true := by
      cases call with
      | setvalue template =>
        cases hcomplete : fmt.complete template with
        | error error => exact absurd (lacks_iff.mpr ⟨error, hcomplete⟩) hidle
        | ok made =>
          obtain ⟨key, hkey⟩ := exists_key_of_complete hcomplete
          exact hstands.setvalue hcomplete hkey
      | updatevalue template => exact absurd rfl (hupdate template)
      | removevalue template =>
        have hpresent : ¬ Absent fmt file template := hidle
        unfold Absent at hpresent
        push Not at hpresent
        obtain ⟨key, hkey, hfound⟩ := hpresent
        obtain ⟨entry, hentry⟩ := Option.ne_none_iff_exists'.mp hfound
        exact hstands.removevalue hkey hentry
    obtain ⟨rows, doc, hdoc, hnext, hchanged⟩ := hedit
    rw [Document.step, hdoc]
    exact ⟨hnext.agrees, fun _ ↦ ⟨rows, hnext⟩, hchanged, fun _ ↦ hdistinct⟩

theorem Mirrors.run (h : Mirrors fmt text file state) {calls : List (Call ν)}
    (hharmless : AllHarmless fmt text file calls) :
    Mirrors fmt text (run fmt file calls) (Document.run fmt state calls) := by
  induction calls generalizing file state with
  | nil => exact h
  | cons call calls ih => exact ih (h.step hharmless.1) hharmless.2

theorem numberLE_total (x y : ℕ × List Char) : NumberLE x y ∨ NumberLE y x := by
  rcases Nat.lt_trichotomy x.1 y.1 with hlt | heq | hgt
  · exact Or.inl (Or.inl hlt)
  · exact (List.le_total x.2 y.2).imp (fun hle ↦ Or.inr ⟨heq, hle⟩) fun hle ↦ Or.inr ⟨heq.symm, hle⟩
  · exact Or.inr (Or.inl hgt)

theorem numberLE_trans {x y z : ℕ × List Char} (hxy : NumberLE x y) (hyz : NumberLE y z) :
    NumberLE x z := by
  unfold NumberLE at *
  rcases hxy with hxy | ⟨hxy, hle⟩ <;> rcases hyz with hyz | ⟨hyz, hle'⟩
  · exact Or.inl (hxy.trans hyz)
  · exact Or.inl (hyz ▸ hxy)
  · exact Or.inl (hxy ▸ hyz)
  · exact Or.inr ⟨hxy.trans hyz, List.le_trans hle hle'⟩

omit [DecidableEq ν] in
/-- The lines of the file are those of the document. -/
theorem Stands.getfilelines_eq {index rows : List (Key ν × Entry ν)} {doc : Document ν}
    (h : Stands fmt index rows doc) : getfilelines index = doc.map Row.line := by
  have : Std.Total NumberLE := ⟨numberLE_total⟩
  have : IsTrans (ℕ × List Char) NumberLE := ⟨fun _ _ _ ↦ numberLE_trans⟩
  have hsort := h.holds.sort_eq (fun entry ↦ entry.line) NumberLE fun x y hle ↦
    hle.elim Nat.le_of_lt fun heq ↦ heq.1.le
  rw [getfilelines, hsort, h.doc_eq, List.map_map, List.map_map]
  rfl

/-- After calls that are harmless the file is written as the document. -/
theorem documented_of_allHarmless (fmt : Format ν) (text : List Char) (calls : List (Call ν))
    (hread : Readable fmt text)
    (hcalls : ∀ file, fmt.readfile text = .ok file → AllHarmless fmt text file calls) :
    Documented fmt text calls := by
  obtain ⟨file, hfile, hmirrors⟩ := exists_mirrors hread
  have hrun := hmirrors.run (hcalls file hfile)
  refine ⟨file, hfile, ?_⟩
  rw [writefile, Document.write, hrun.changed]
  split_ifs with hchanged
  · obtain ⟨rows, hstands⟩ := hrun.stands (hrun.distinct hchanged)
    rw [hstands.getfilelines_eq]
  · rfl

end Runs

/-- A group file with a comment, of which a group is set, one is added and one is removed. -/
theorem documented_groups :
    Documented (groupFile "2".toList) "root::0:\n+\nadm::4:root\n".toList
      [.setvalue [("groupname".toList, "adm".toList), ("gid".toList, "5".toList)],
        .setvalue [("groupname".toList, "new".toList)],
        .removevalue [("groupname".toList, "root".toList)]] := by
  have hdistinct : DistinctKeys (groupFile "2".toList) "root::0:\n+\nadm::4:root\n".toList := by
    unfold DistinctKeys
    decide
  exact documented_of_allHarmless _ _ _ (readable_iff.mp ⟨_, rfl⟩) fun _ _ ↦
    ⟨Or.inr ⟨hdistinct, nofun⟩, Or.inr ⟨hdistinct, nofun⟩, Or.inr ⟨hdistinct, nofun⟩, trivial⟩

/-- An existing record is not updated, a repeated one is lost with a change of another, and a file
with a blank line is not read. -/
theorem not_documented_groups :
    ¬ Documented (groupFile "2".toList) "root::0:\n".toList
        [.updatevalue [("groupname".toList, "root".toList), ("gid".toList, "1".toList)]] ∧
      ¬ Documented (groupFile "2".toList) "adm::4:\nadm::5:\nroot::0:\n".toList
        [.removevalue [("groupname".toList, "root".toList)]] ∧
      ¬ Documented (groupFile "2".toList) "root::0:\n\n".toList [] := by
  refine ⟨?_, ?_, ?_⟩
  · rintro ⟨file, hfile, hwrite⟩
    obtain rfl := Except.ok.inj (hfile.symm.trans rfl)
    exact absurd hwrite (by decide)
  · rintro ⟨file, hfile, hwrite⟩
    obtain rfl := Except.ok.inj (hfile.symm.trans rfl)
    exact absurd hwrite (by decide)
  · rintro ⟨file, hfile, -⟩
    cases hfile.symm.trans (rfl : Format.readfile _ _ = .error (.columns [] 1))

end Userland.Pkg.Cfg
