import Userland.Install.Mim.SchemaData
import Userland.Library.Ascent
import Userland.Library.Dict
import Userland.Library.Program
import Userland.Library.Queue

/-!
# Reading DTDs and finding parents

`SchemaData.__init__` reads a DTD and the files that it refers to, one after the other, and
`find_parent_path` goes from an element to its parent and on to the root. Neither keeps a record of
what it has seen. `constructorEnds_iff` says when the first one ends, and `findsParents_iff` when
the second one ends and finds a path.

Scope: lines are recognised, and the names of files are those that are opened.
-/

set_option autoImplicit false
set_option relaxedAutoImplicit false

namespace Userland.Install.Mim

open Userland.Library

/-! ### The constructor -/

inductive DtdError
  | ioError (filename : String)
  | keyError (fileref : String)
  | fmtError
  | expnError
deriving DecidableEq

/-- A line of a DTD: an `<!ELEMENT` line, `<!ENTITY % fileref SYSTEM "filename">`, or `%fileref;`.
-/
inductive DtdLine
  | element (name : String) (childList : List DDObj)
  | malformed (error : DtdError)
  | extFile (fileref filename : String)
  | useExtFile (fileref : String)
  | other

/-- The lines of a file, and whether its last comment is not ended. -/
structure DtdFile where
  lines : List DtdLine
  comInProg : Bool

/-- The elements and the references that were read. -/
structure DtdState where
  table : List (String × List DDObj)
  filerefs : List (String × String)

/-- The loop over the lines of a file, with the names that it puts into the list of files. -/
def readLines : DtdState → List DtdLine → Except DtdError (DtdState × List String)
  | state, [] => .ok (state, [])
  | state, .element name childList :: rest =>
    readLines { state with table := Dict.set state.table name childList } rest
  | _, .malformed error :: _ => .error error
  | state, .extFile fileref filename :: rest =>
    readLines { state with filerefs := Dict.set state.filerefs fileref filename } rest
  | state, .useExtFile fileref :: rest =>
    match state.filerefs.lookup fileref with
    | none => .error (.keyError fileref)
    | some filename => (readLines state rest).map fun read ↦ (read.1, filename :: read.2)
  | state, .other :: rest => readLines state rest

section

variable (files : String → Option DtdFile)

/-- Reads one file. -/
def readDtd (state : DtdState) (filename : String) : Except DtdError (DtdState × List String) :=
  match files filename with
  | none => .error (.ioError filename)
  | some file =>
    (readLines state file.lines).bind fun read ↦ if file.comInProg then .error .fmtError
      else .ok read

/-- `SchemaData(dtdname)`. -/
def schemaData (dtdname : String) (fuel : ℕ) : Option (Except DtdError SchemaData) :=
  (serve (readDtd files) fuel 0 ⟨[], []⟩ [dtdname]).map fun outcome ↦ outcome.map fun read ↦
    ⟨read.1.table⟩

variable (dtdname : String)

/-- The `i`-th file that is read includes the `j`-th one, by one of its references. -/
def Includes (i j : ℕ) : Prop :=
  Puts (readDtd files) ⟨[], []⟩ [dtdname] i j

/-- Files that are read include one another without end. -/
def Endless : Prop :=
  ∃ chain : ℕ → ℕ, chain 0 = 0 ∧ ∀ n, Includes files dtdname (chain n) (chain (n + 1))

/-- The constructor ends. -/
def ConstructorEnds : Prop :=
  ∃ fuel outcome, schemaData files dtdname fuel = some outcome

end

/-- The declarations in force behind some lines. -/
def inForce (filerefs : List (String × String)) (lines : List DtdLine) : List (String × String) :=
  lines.foldl (fun filerefs line ↦
    match line with
    | .extFile fileref filename => Dict.set filerefs fileref filename
    | _ => filerefs) filerefs

/-- A file that is read includes the files that its references name by the declarations in force at
their lines. -/
theorem mem_found_iff {state next : DtdState} {lines : List DtdLine} {found : List String}
    {other : String}
    (h : readLines state lines = .ok (next, found)) : other ∈ found ↔ ∃ before fileref after,
      lines = before ++ .useExtFile fileref :: after ∧
        (inForce state.filerefs before).lookup fileref = some other := by
  -- a line that is no reference only changes the declarations for the lines behind it
  have hskip : ∀ (line : DtdLine) (rest : List DtdLine) (filerefs : List (String × String)),
      (∀ fileref, .useExtFile fileref ≠ line) →
      ((∃ before fileref after, line :: rest = before ++ .useExtFile fileref :: after ∧
          (inForce filerefs before).lookup fileref = some other) ↔
        ∃ before fileref after, rest = before ++ .useExtFile fileref :: after ∧
          (inForce (inForce filerefs [line]) before).lookup fileref = some other) := by
    intro line rest filerefs hline
    constructor
    · rintro ⟨before, fileref, after, hsplit, hlookup⟩
      obtain ⟨heq, -⟩ | ⟨before, rfl, hrest⟩ := List.cons_eq_append_iff.mp hsplit
      · subst heq
        exact absurd (List.cons.inj hsplit).1.symm (hline fileref)
      · exact ⟨before, fileref, after, hrest, hlookup⟩
    · rintro ⟨before, fileref, after, rfl, hlookup⟩
      exact ⟨line :: before, fileref, after, rfl, hlookup⟩
  induction lines generalizing state found with
  | nil =>
    obtain ⟨-, rfl⟩ := Prod.mk.inj (Except.ok.inj h)
    simp
  | cons line rest ih =>
    cases line with
    | element name childList =>
      exact (ih h).trans (hskip (.element name childList) rest state.filerefs fun _ heq ↦ by
        cases heq).symm
    | other =>
      exact (ih h).trans (hskip .other rest state.filerefs fun _ heq ↦ by cases heq).symm
    | malformed error => cases h
    | extFile fileref filename =>
      exact (ih h).trans (hskip (.extFile fileref filename) rest state.filerefs fun _ heq ↦ by
        cases heq).symm
    | useExtFile fileref =>
      rw [readLines] at h
      cases hlookup : state.filerefs.lookup fileref with
      | none =>
        rw [hlookup] at h
        cases h
      | some filename =>
        rw [hlookup] at h
        obtain ⟨⟨after, more⟩, hread, heq⟩ := Program.map_eq_ok h
        obtain ⟨rfl, rfl⟩ := Prod.mk.inj heq
        refine List.mem_cons.trans ((or_congr_right (ih hread)).trans ?_)
        constructor
        · rintro (rfl | ⟨before, used, behind, rfl, hused⟩)
          · exact ⟨[], fileref, rest, rfl, hlookup⟩
          · exact ⟨.useExtFile fileref :: before, used, behind, rfl, hused⟩
        · rintro ⟨before, used, behind, hsplit, hused⟩
          obtain ⟨rfl, hsplit'⟩ | ⟨before, rfl, hrest⟩ := List.cons_eq_append_iff.mp hsplit
          · obtain ⟨heq, -⟩ := List.cons.inj hsplit'
            obtain rfl := DtdLine.useExtFile.inj heq
            exact Or.inl (Option.some.inj (hused.symm.trans hlookup))
          · exact Or.inr ⟨before, used, behind, hrest, hused⟩

/-- The constructor ends exactly if no files include one another without end. -/
theorem constructorEnds_iff (files : String → Option DtdFile) (dtdname : String) :
    ConstructorEnds files dtdname ↔ ¬ Endless files dtdname := by
  have hends := @ends_iff_not_endless _ _ _ (readDtd files) ⟨[], []⟩ [dtdname]
  simp only [EndlesslyPuts, List.length_singleton, Nat.lt_one_iff] at hends
  refine Iff.trans ?_ hends
  refine exists_congr fun fuel ↦ ⟨fun ⟨outcome, houtcome⟩ ↦ ?_, fun ⟨outcome, houtcome⟩ ↦ ?_⟩
  · obtain ⟨served, hserved, -⟩ := Option.map_eq_some_iff.mp houtcome
    exact ⟨served, hserved⟩
  · exact ⟨_, by rw [schemaData, houtcome, Option.map_some]⟩

/-! ### Parents -/

def errArgInvalid : MimError := .mimInvalidError "Argument is missing or invalid"

def errAmbigParentPath :
    MimError := .mimInvalidError "Ambiguity error: Parent path matches more than one element"

namespace SchemaData

variable (schema : SchemaData)

/-- The loop over the keys of the table: the parent that is found, where there is no second one. -/
def findParent (branch : String) : Option String → List String → Except MimError (Option String)
  | foundParent, [] => .ok foundParent
  | foundParent, parentTag :: rest =>
    match (schema.findElementInfo (.str parentTag) branch).1 with
    | none => findParent branch foundParent rest
    | some _ => if foundParent.isSome then .error errAmbigParentPath
      else findParent branch (some parentTag) rest

/-- The loop of `find_parent_path` from a branch to the root. -/
def climbToRoot (root : String) : ℕ → String → List String → Option (Except MimError (List String))
  | 0, _, _ => none
  | fuel + 1, branch, pathList =>
    if branch = root then some (.ok pathList.reverse)
    else
      match schema.findParent branch none (schema.table.map Prod.fst) with
      | .error e => some (.error e)
      | .ok none => some (.error errArgInvalid)
      | .ok (some parent) => climbToRoot root fuel parent (pathList ++ [parent])

/-- `find_parent_path(root, element_arg)`. -/
def findParentPath (root elementArg : String) (fuel : ℕ) : Option (Except MimError (List String)) :=
  if '/' ∈ elementArg.toList then some (.error errArgInvalid)
  else schema.climbToRoot root fuel elementArg [elementArg]

/-- An element is a possible child of another one. -/
def isParent (element parent : String) : Bool :=
  (schema.findElementInfo (.str parent) element).1.isSome

/-- The elements that an element is a possible child of. -/
def parents (element : String) : List String :=
  (schema.table.map Prod.fst).filter (schema.isParent element)

theorem findParent_eq (branch : String) (found : Option String) (keys : List String) :
    schema.findParent branch found keys =
      match found.toList ++ keys.filter (schema.isParent branch) with
      | [] => .ok none
      | [parent] => .ok (some parent)
      | _ :: _ :: _ => .error errAmbigParentPath := by
  induction keys generalizing found with
  | nil => cases found <;> rfl
  | cons key rest ih =>
    rw [findParent]
    cases hinfo : (schema.findElementInfo (.str key) branch).1 with
    | none =>
      have hnot : ¬ schema.isParent branch key = true := by
        rw [isParent, hinfo]
        exact Bool.false_ne_true
      rw [List.filter_cons_of_neg hnot]
      exact ih found
    | some childList =>
      have hyes : schema.isParent branch key = true := by
        rw [isParent, hinfo]
        rfl
      rw [List.filter_cons_of_pos hyes]
      cases found with
      | none => exact ih (some key)
      | some parent => rfl

/-- What `find_parent_path` raises where it gives up. -/
def errHalt : Halt → MimError
  | .orphan => errArgInvalid
  | .several => errAmbigParentPath

theorem climbToRoot_eq (root : String) (fuel : ℕ) (branch : String) (pathList : List String) :
    schema.climbToRoot root fuel branch pathList =
      (ascend schema.parents root fuel branch pathList.reverse).map (Except.mapError errHalt) := by
  induction fuel generalizing branch pathList with
  | zero => rfl
  | succ fuel ih =>
    rw [climbToRoot, ascend]
    by_cases hroot : branch = root
    · rw [if_pos hroot, if_pos hroot]
      rfl
    · rw [if_neg hroot, if_neg hroot]
      have hfind := schema.findParent_eq branch none (schema.table.map Prod.fst)
      rw [Option.toList_none, List.nil_append, ← parents] at hfind
      cases hparents : schema.parents branch with
      | nil =>
        rw [hparents] at hfind
        rw [hfind]
        rfl
      | cons parent others =>
        rw [hparents] at hfind
        cases others with
        | nil =>
          rw [hfind]
          show schema.climbToRoot root fuel parent (pathList ++ [parent]) = _
          rw [ih, List.reverse_append]
          rfl
        | cons other others =>
          rw [hfind]
          rfl

/-- The search for a path ends, and finds one where there is one. -/
def FindsParents (root element : String) : Prop :=
  (∃ fuel outcome, schema.findParentPath root element fuel = some outcome) ∧
    ((∃ path, IsWay schema.parents root element path) → ∃ fuel path,
      schema.findParentPath root element fuel = some (.ok path) ∧
        IsWay schema.parents root element path)

/-- Every element on the way up from an element has one parent, up to the root if a path leads
there, and up to an element without a parent or with several otherwise. -/
def OneWayUp (root element : String) : Prop :=
  if '/' ∈ element.toList then ¬ ∃ path, IsWay schema.parents root element path
  else ∃ top, Climbs schema.parents root element top ∧ StopsAt schema.parents root top ∧
    ((∃ path, IsWay schema.parents root element path) → top = root)

theorem findsParents_iff (root element : String) :
    schema.FindsParents root element ↔ schema.OneWayUp root element := by
  rw [FindsParents, OneWayUp]
  by_cases hslash : '/' ∈ element.toList
  · have hraises : ∀ fuel, schema.findParentPath root element fuel = some (.error errArgInvalid) :=
      fun _ ↦ if_pos hslash
    rw [if_pos hslash]
    constructor
    · rintro ⟨-, hfinds⟩ hway
      obtain ⟨fuel, path, hpath, -⟩ := hfinds hway
      cases Option.some.inj ((hraises fuel).symm.trans hpath)
    · exact fun hnone ↦ ⟨⟨0, _, hraises 0⟩, fun hway ↦ absurd hway hnone⟩
  · have hclimb : ∀ fuel, schema.findParentPath root element fuel =
        (ascend schema.parents root fuel element [element]).map (Except.mapError errHalt) := by
      intro fuel
      rw [findParentPath, if_neg hslash, climbToRoot_eq]
      rfl
    have hok : ∀ fuel path, schema.findParentPath root element fuel = some (.ok path) ↔
        ascend schema.parents root fuel element [element] = some (.ok path) := by
      intro fuel path
      rw [hclimb, Option.map_eq_some_iff]
      constructor
      · rintro ⟨outcome, houtcome, heq⟩
        cases outcome with
        | error halt => cases heq
        | ok found =>
          obtain rfl := Except.ok.inj heq
          exact houtcome
      · exact fun h ↦ ⟨_, h, rfl⟩
    have hends : ∀ fuel, (∃ outcome, schema.findParentPath root element fuel = some outcome) ↔
        ∃ outcome, ascend schema.parents root fuel element [element] = some outcome := by
      intro fuel
      rw [hclimb, ← Option.isSome_iff_exists, ← Option.isSome_iff_exists, Option.isSome_map]
    simp only [hends, hok]
    rw [if_neg hslash]
    exact ends_and_finds_iff

end SchemaData

/-- `<!ELEMENT top (#PCDATA)>` and `<!ELEMENT part (part?)>` -/
def ownParts : SchemaData :=
  ⟨[("top", [.elt "#PCDATA" .one]), ("part", [.elt "part" .opt])]⟩

end Userland.Install.Mim
