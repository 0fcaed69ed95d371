import Mathlib.Data.List.Sort
import Userland.Library.Dict
import Userland.Library.Program
import Userland.Pkg.Text

/-!
# Configuration files

`CfgFile` of `pkg/cfgfiles.py` reads a line-oriented file into a dictionary, where a record has the
values of its key columns as key and a comment its line number. The entries carry the line, the
columns and the line number, and the file is written in the order of these numbers.

A class of files is given by its `Format`: the columns with their defaults, the key columns, and the
methods that tell comments, split a line and print a record.

Scope. The template of a call belongs to the call: the caller does not change it afterwards. A
default is a value; none of the classes has one that is computed at each call.
-/

set_option autoImplicit false
set_option relaxedAutoImplicit false

namespace Userland.Pkg.Cfg

open Library Library.Program

/-- The exceptions, with what their texts name. -/
inductive Error
  | columns (line : List Char) (count : ℕ)
  | required (field : List Char)
  | noSuchGroup (groupname : List Char)
  | userNotInGroup (username groupname : List Char)
  | keyError
  | indexError
  | attributeError
  | typeError
  | stopIteration
deriving DecidableEq

/-- The values of columns by name. -/
abbrev Template (ν : Type) := List (List Char × ν)

/-- A class of files. -/
structure Format (ν : Type) where
  columnNames : List (List Char)
  defaultValues : List Char → Option ν
  keys : List (List Char)
  continuationLines : Bool
  iscommentline : List Char → Bool
  splitline : List Char → Except Error (List ν)
  valuetostr : List ν → List Char
  nodup : columnNames.Nodup
  keys_subset : ∀ key ∈ keys, key ∈ columnNames
  length_splitline : ∀ line cols, splitline line = .ok cols → cols.length = columnNames.length

/-- The keys of the dictionary: a line number, or the values of the key columns. -/
inductive Key (ν : Type)
  | line (lineno : ℕ)
  | record (values : List ν)
deriving DecidableEq

/-- A line of the file, with its columns if it is a record. -/
structure Row (ν : Type) where
  line : List Char
  dic : Option (Template ν)
deriving DecidableEq

/-- The values of the dictionary. -/
structure Entry (ν : Type) extends Row ν where
  lineno : ℕ
deriving DecidableEq

structure CfgFile (ν : Type) where
  index : List (Key ν × Entry ν)
  needswriting : Bool
deriving DecidableEq

/-! ### Reading -/

/-- The lines with their continuations, each with the number of lines it is made of, and whether the
last one goes on at the end of the file. -/
def joinLines (continuation : Bool) : List Char × ℕ → List (List Char) → List (List Char × ℕ) × Bool
  | pending, [] => ([], pending.2 != 0)
  | pending, physical :: rest =>
    let line := pending.1 ++ physical
    if continuation && ['\\', '\n'].isSuffixOf line then
      joinLines continuation (line, pending.2 + 1) rest
    else
      let others := joinLines continuation ([], 0) rest
      ((line, pending.2 + 1) :: others.1, others.2)

namespace Format

variable {ν : Type} (fmt : Format ν)

/-- `tuple(template[k] for k in self.keys)`. -/
def key (template : Template ν) : Option (List ν) :=
  fmt.keys.mapM fun k ↦ template.lookup k

/-- The lines of a file with their continuations. -/
def lines (text : List Char) : List (List Char × ℕ) × Bool :=
  joinLines fmt.continuationLines ([], 0) (Text.readlines text)

/-- A line without its end, as a comment or a record. -/
def row (line : List Char) : Except Error (Row ν) :=
  let line := line.rdropWhile (· == '\n')
  if fmt.iscommentline line then .ok ⟨line, none⟩
  else (fmt.splitline line).map fun cols ↦ ⟨line, some (fmt.columnNames.zip cols)⟩

/-- The key under which a line is entered. -/
def rowKey (row : Row ν) (lineno : ℕ) : Except Error (Key ν) :=
  match row.dic with
  | none => .ok (.line lineno)
  | some dic => (fmt.key dic).elim (.error .keyError) fun values ↦ .ok (.record values)

/-- The lines with their keys, from a line number on. -/
def entries : ℕ → List (List Char × ℕ) → Except Error (List (Key ν × Entry ν))
  | _, [] => .ok []
  | lineno, line :: rest => do
    let row ← fmt.row line.1
    let key ← fmt.rowKey row lineno
    let others ← entries (lineno + line.2) rest
    .ok ((key, ⟨row, lineno⟩) :: others)

/-- `readfile`, of a file that exists. -/
def readfile [DecidableEq ν] (text : List Char) : Except Error (CfgFile ν) := do
  let rows ← fmt.entries 1 (fmt.lines text).1
  if (fmt.lines text).2 then .error .stopIteration
  else .ok ⟨rows.foldl (fun index row ↦ Dict.set index row.1 row.2) [], false⟩

/-! ### Editing -/

/-- The template with the default of a field, if it lacks the field. -/
def fill (template : Template ν) (field : List Char) : Except Error (Template ν) :=
  if (template.lookup field).isSome then .ok template
  else (fmt.defaultValues field).elim (.error (.required field)) fun value ↦
    .ok (Dict.set template field value)

/-- The template with the defaults of the fields it lacks. -/
def complete (template : Template ν) : Except Error (Template ν) :=
  fmt.columnNames.foldlM fmt.fill template

/-- The values of the columns, in their order. -/
def columns (template : Template ν) : List ν :=
  fmt.columnNames.filterMap fun name ↦ template.lookup name

/-- The columns of a record with those that a template has. -/
def overwrite (orig template : Template ν) : Template ν :=
  fmt.columnNames.foldl (fun orig name ↦ (template.lookup name).elim orig (Dict.set orig name)) orig

end Format

variable {ν : Type} [DecidableEq ν] (fmt : Format ν)

/-- The line number of a new record. -/
def nextLineno (index : List (Key ν × Entry ν)) : ℕ :=
  (index.map fun entry ↦ entry.2.lineno).max?.elim 0 (· + 1)

/-- `del self.index[key]`. -/
def deleteKey (key : Key ν) : Program (CfgFile ν) Error Unit := do
  let file ← get
  if file.index.lookup key = none then throw .keyError
  else modify fun file ↦ ⟨Dict.erase file.index key, file.needswriting⟩

/-- `tuple(template[k] for k in self.keys)`, or its `KeyError`. -/
def keyOf (template : Template ν) : Program (CfgFile ν) Error (List ν) :=
  lift ((fmt.key template).elim (.error .keyError) .ok)

/-- The line number for a record; one that exists gives up its own. -/
def takeLineno (key : List ν) : Program (CfgFile ν) Error ℕ := do
  let file ← get
  match file.index.lookup (.record key) with
  | none => pure (nextLineno file.index)
  | some orig =>
    let dic ← lift (orig.dic.elim (.error .typeError) .ok)
    let origKey ← keyOf fmt dic
    deleteKey (.record origKey)
    pure orig.lineno

/-- `setvalue`. -/
def setvalue (template : Template ν) : Program (CfgFile ν) Error Unit := do
  let template ← lift (fmt.complete template)
  let key ← keyOf fmt template
  let lineno ← takeLineno fmt key
  let line := fmt.valuetostr (fmt.columns template)
  modify fun file ↦ ⟨Dict.set file.index (.record key) ⟨⟨line, some template⟩, lineno⟩, true⟩

/-- `updatevalue`. The entry of the dictionary is a tuple, which has no `copy`, so the lines behind
the first one are not reached. -/
def updatevalue (template : Template ν) : Program (CfgFile ν) Error Unit := do
  let key ← keyOf fmt template
  let file ← get
  if file.index.lookup (.record key) = none then throw .keyError
  else throw .attributeError

/-- `removevalue`. -/
def removevalue (template : Template ν) : Program (CfgFile ν) Error Unit := do
  let key ← keyOf fmt template
  deleteKey (.record key)
  modify fun file ↦ ⟨file.index, true⟩

/-- `getvalue`: the columns of a record, and nothing for a record that does not exist. -/
def getvalue (template : Template ν) : Program (CfgFile ν) Error (Option (Template ν)) := do
  let key ← keyOf fmt template
  let file ← get
  pure ((file.index.lookup (.record key)).bind fun entry ↦ entry.dic)

inductive Call (ν : Type)
  | setvalue (template : Template ν)
  | updatevalue (template : Template ν)
  | removevalue (template : Template ν)

/-- What a call runs. -/
def Call.program : Call ν → Program (CfgFile ν) Error Unit
  | .setvalue template => Cfg.setvalue fmt template
  | .updatevalue template => Cfg.updatevalue fmt template
  | .removevalue template => Cfg.removevalue fmt template

/-- The state after a call. -/
def perform (file : CfgFile ν) (call : Call ν) : CfgFile ν :=
  ((call.program fmt).exec file).2

/-- The state after a row of calls. -/
def run (file : CfgFile ν) (calls : List (Call ν)) : CfgFile ν :=
  calls.foldl (perform fmt) file

/-! ### Writing -/

/-- The order of the pairs of a line number and a line. -/
def NumberLE (x y : ℕ × List Char) : Prop :=
  x.1 < y.1 ∨ x.1 = y.1 ∧ List.le x.2 y.2

instance : DecidableRel NumberLE := fun x y ↦
  inferInstanceAs (Decidable (x.1 < y.1 ∨ x.1 = y.1 ∧ ¬ List.lt y.2 x.2))

/-- `getfilelines`. -/
def getfilelines (index : List (Key ν × Entry ν)) : List (List Char) :=
  ((index.map fun entry ↦ (entry.2.lineno, entry.2.line)).insertionSort NumberLE).map Prod.snd

/-- The lines, each with its end. -/
def printLines (lines : List (List Char)) : List Char :=
  lines.flatMap (· ++ ['\n'])

/-- The contents of the file after `writefile`. -/
def writefile (file : CfgFile ν) (text : List Char) : List Char :=
  if file.needswriting then printLines (getfilelines file.index) else text

/-! ### Classes of files -/

namespace Format

/-- `CfgFile.splitline`. -/
def splitColumns (separator : Char) (columnNames : List (List Char)) (line : List Char) :
    Except Error (List (List Char)) :=
  let cols := line.splitOn separator
  if cols.length ≠ columnNames.length then .error (.columns line cols.length) else .ok cols

theorem length_splitColumns {separator : Char} {columnNames : List (List Char)} (line : List Char)
    (cols : List (List Char)) (h : splitColumns separator columnNames line = .ok cols) :
    cols.length = columnNames.length := by
  unfold splitColumns at h
  dsimp only at h
  split_ifs at h with hlength
  cases h
  exact not_not.mp hlength

/-- A class with the methods of `CfgFile`, whose columns and keys are texts. Each column comes with
its default, and `None` stands for a required one. -/
def base (separator : Char) (columns : List (List Char × Option (List Char)))
    (keys : List (List Char))
    (comment : List Char → Bool) (continuation : Bool) (hnodup : (columns.map Prod.fst).Nodup)
    (hkeys : ∀ key ∈ keys, key ∈ columns.map Prod.fst) : Format (List Char) where
  columnNames := columns.map Prod.fst
  defaultValues := fun name ↦ (columns.lookup name).join
  keys := keys
  continuationLines := continuation
  iscommentline := comment
  splitline := splitColumns separator (columns.map Prod.fst)
  valuetostr := fun values ↦ [separator].intercalate values
  nodup := hnodup
  keys_subset := hkeys
  length_splitline := length_splitColumns

end Format

/-- The line starts with one of the characters. -/
def startsWithOneOf (chars line : List Char) : Bool :=
  line.head?.any fun c ↦ decide (c ∈ chars)

/-- The columns of `GroupFile`, where a group without a number gets the next one. -/
def groupColumns (nextgid : List Char) : List (List Char × Option (List Char)) :=
  [("groupname".toList, none), ("password".toList, some []), ("gid".toList, some nextgid),
    ("user-list".toList, some [])]

theorem nodup_groupColumns (nextgid : List Char) : ((groupColumns nextgid).map Prod.fst).Nodup := by
  show ["groupname".toList, "password".toList, "gid".toList, "user-list".toList].Nodup
  decide

theorem groupname_mem (nextgid : List Char) :
    ∀ key ∈ ["groupname".toList], key ∈ (groupColumns nextgid).map Prod.fst := by
  intro key hkey
  rw [List.mem_singleton.mp hkey]
  exact List.mem_cons_self

/-- `GroupFile`. -/
def groupFile (nextgid : List Char) : Format (List Char) :=
  .base ':' (groupColumns nextgid) ["groupname".toList] (startsWithOneOf ['+', '-']) false
    (nodup_groupColumns nextgid) (groupname_mem nextgid)

end Userland.Pkg.Cfg
