import Mathlib.Data.List.Nodup
import Userland.Pkg.Text
import Userland.Project.Entry

/-!
# The project file

`projf_read` reads a file line by line, `projf_write` writes the entries, and `projf_validate` and
`projent_validate_unique_id` look for ids that occur twice. They compare the texts of the ids;
`idsChecked_iff` says when that is a comparison of the numbers.

Scope: the text of a file is what the file handle delivers and takes; the checks of a single entry
(`projent_validate`), which see its fields only, are a parameter.
-/

set_option autoImplicit false
set_option relaxedAutoImplicit false

namespace Userland.Project

open Userland.Library Userland.Pkg

/-- An entry of a file, with the line that it was read from. -/
structure FileEntry extends Projent where
  line : Text
  modified : Bool
  linenum : ℕ

/-- The flags of the functions for files, and the checks that `projent_validate` makes of an entry.
-/
structure FileFlags where
  validate : Bool
  dup : Bool
  projentValidate : Projent → List ProjError

/-! ### Validation -/

/-- The error that a name or an id is seen a second time. -/
def duplicate (seen : List Text) (format : String) (text : Text) : List ProjError :=
  if 1 < seen.count text then [⟨4, format, [text]⟩] else []

/-- The number of a line as an argument of an error. -/
def lineArgument (linenum : ℕ) : Text :=
  Nat.toDigits 10 linenum

/-- The loop of `projf_validate`, with the names and ids that were seen. -/
def validateEach (flags : FileFlags) (seennames seenids : List Text) :
    List FileEntry → List ProjError
  | [] => []
  | projent :: rest =>
    let seennames := projent.name :: seennames
    let seenids := projent.projid :: seenids
    let lineerr := duplicate seennames "Duplicate project name \"%s\"" projent.name ++
      (if flags.dup then [] else duplicate seenids "Duplicate projid \"%s\"" projent.projid) ++
      flags.projentValidate projent.toProjent
    projfCombineErrors ⟨5, "Validation error on line %d", [lineArgument projent.linenum]⟩ lineerr ++
      validateEach flags seennames seenids rest

/-- `projf_validate`. -/
def projfValidate (flags : FileFlags) (projents : List FileEntry) :
    Except (List ProjError) (List FileEntry) :=
  let errors := validateEach flags [] [] projents
  if errors.isEmpty then .ok projents else .error errors

/-- `projent_validate_unique_id`. -/
def projentValidateUniqueId (projent : FileEntry) (projf : List FileEntry) :
    Except (List ProjError) Unit :=
  if 1 < (projf.filter fun other ↦ other.projid = projent.projid).length then
    .error [⟨4, "Duplicate projid \"%s\"", [projent.projid]⟩]
  else .ok ()

/-! ### Reading and writing -/

/-- `s/\\\n//g`. -/
def joinLines : Text → Text
  | '\\' :: '\n' :: rest => joinLines rest
  | c :: rest => c :: joinLines rest
  | [] => []

/-- `chomp`. -/
def chomp (line : Text) : Text :=
  if line.getLast? = some '\n' then line.dropLast else line

/-- The line that is parsed. -/
def parsedLine (line : Text) : Text :=
  chomp (joinLines line)

/-- The platform and `PROJECT_BUFSZ`. -/
structure Limits extends Platform where
  projectBufsz : ℕ

/-- The errors and the entry of a line. -/
def readLine (limits : Limits) (linenum : ℕ) (origline : Text) :
    List ProjError × Option FileEntry :=
  let line := parsedLine origline
  let long := if limits.projectBufsz < line.length + 2 then
    [⟨5, "Parse error on line %d, line too long", [lineArgument linenum]⟩] else []
  match projentParse limits.toPlatform ⟨false⟩ line with
  | .error errors =>
    (long ++ projfCombineErrors ⟨5, "Parse error on line %d", [lineArgument linenum]⟩ errors, none)
  | .ok projent => (long, some ⟨projent, origline, false, linenum⟩)

/-- The loop of `projf_read`. -/
def readEach (limits : Limits) : ℕ → List Text → List ProjError × List FileEntry
  | _, [] => ([], [])
  | linenum, line :: rest =>
    let first := readLine limits (linenum + 1) line
    let others := readEach limits (linenum + 1) rest
    (first.1 ++ others.1, first.2.toList ++ others.2)

/-- `projf_read`. -/
def projfRead (limits : Limits) (flags : FileFlags) (text : Text) :
    Except (List ProjError) (List FileEntry) :=
  let read := readEach limits 0 (Text.readlines text)
  let errors := read.1 ++ if flags.validate then errorsOf (projfValidate flags read.2) else []
  if errors.isEmpty then .ok read.2 else .error errors

/-- `projf_write`. -/
def projfWrite (projents : List FileEntry) : Text :=
  projents.flatMap fun projent ↦ if projent.modified then projent2string projent.toProjent ++ ['\n']
    else projent.line

/-! ### Ids that are numbers -/

/-- Of a file without a posted error the ids and the names are distinct, and an entry is reported
exactly if another one has its id. -/
structure IdsChecked (flags : FileFlags) (projents : List FileEntry) : Prop where
  validated : flags.dup = false → projfValidate flags projents = .ok projents →
    (projents.map fun projent ↦ numeric projent.projid).Nodup ∧
      (projents.map fun projent ↦ projent.name).Nodup
  reported : ∀ before projent after, projents = before ++ projent :: after →
    ((∃ errors, projentValidateUniqueId projent projents = .error errors) ↔
      ∃ other ∈ before ++ after, numeric other.projid = numeric projent.projid)

theorem duplicate_eq_nil_iff {seen : List Text} {format : String} {text : Text} :
    duplicate (text :: seen) format text = [] ↔ text ∉ seen := by
  rw [duplicate, List.count_cons_self]
  split_ifs with h
  · refine iff_of_false id fun hnot ↦ ?_
    rw [List.count_eq_zero.mpr hnot] at h
    exact absurd h (lt_irrefl 1)
  · refine iff_of_true rfl fun hmem ↦ h ?_
    have hpos := List.count_pos_iff.mpr hmem
    omega

theorem projfCombineErrors_eq_nil_iff {error : ProjError} {errors : List ProjError} :
    projfCombineErrors error errors = [] ↔ errors = [] :=
  List.map_eq_nil_iff

theorem fresh_cons_iff (key : Text) (keys seen : List Text) :
    (key :: keys).Nodup ∧ List.Disjoint (key :: keys) seen ↔
    key ∉ seen ∧ keys.Nodup ∧ List.Disjoint keys (key :: seen) := by
  rw [List.nodup_cons, List.disjoint_cons_left, List.disjoint_cons_right]
  tauto

/-- The loop posts nothing if the names and the ids are new and every entry is valid. -/
theorem validateEach_eq_nil_iff {flags : FileFlags} {projents : List FileEntry}
    {seennames seenids : List Text} :
    validateEach flags seennames seenids projents = [] ↔
      ((projents.map fun projent ↦ projent.name).Nodup ∧
        List.Disjoint (projents.map fun projent ↦ projent.name) seennames) ∧
      (flags.dup = false → (projents.map fun projent ↦ projent.projid).Nodup ∧
        List.Disjoint (projents.map fun projent ↦ projent.projid) seenids) ∧
      ∀ projent ∈ projents, flags.projentValidate projent.toProjent = [] := by
  induction projents generalizing seennames seenids with
  | nil =>
    refine iff_of_true rfl ⟨⟨List.nodup_nil, List.disjoint_nil_left _⟩,
      fun _ ↦ ⟨List.nodup_nil, List.disjoint_nil_left _⟩,
      fun projent hmem ↦ (nomatch hmem)⟩
  | cons projent rest ih =>
    have hids : (if flags.dup = true then []
        else duplicate (projent.projid :: seenids) "Duplicate projid \"%s\""
        projent.projid) = [] ↔ (flags.dup = false → projent.projid ∉ seenids) := by
      cases flags.dup with
      | false => exact duplicate_eq_nil_iff.trans ⟨fun h _ ↦ h, fun h ↦ h rfl⟩
      | true => exact iff_of_true rfl fun h ↦ (nomatch h)
    rw [validateEach, List.append_eq_nil_iff, projfCombineErrors_eq_nil_iff, List.append_eq_nil_iff,
      List.append_eq_nil_iff, duplicate_eq_nil_iff, hids, ih, List.map_cons, List.map_cons,
        fresh_cons_iff,
      fresh_cons_iff, List.forall_mem_cons]
    tauto

theorem validateEach_of_projfValidate {flags : FileFlags} {projents : List FileEntry}
    (h : projfValidate flags projents = .ok projents) : validateEach flags [] [] projents = [] := by
  rw [projfValidate] at h
  split_ifs at h with hempty
  exact List.isEmpty_iff.mp hempty

/-- An entry is reported exactly if another one has the text of its id. -/
theorem reported_iff (before after : List FileEntry) (projent : FileEntry) :
    (∃ errors, projentValidateUniqueId projent (before ++ projent :: after) = .error errors) ↔
      ∃ other ∈ before ++ after, other.projid = projent.projid := by
  have hfound : (∃ other ∈ before ++ after, other.projid = projent.projid) ↔
      0 < ((before ++ after).filter fun other ↦ other.projid = projent.projid).length := by
    rw [List.length_pos_iff_exists_mem]
    simp only [List.mem_filter, decide_eq_true_eq]
  have hlength : ((before ++ projent :: after).filter fun other ↦
      other.projid = projent.projid).length =
      ((before ++ after).filter fun other ↦ other.projid = projent.projid).length + 1 := by
    rw [List.filter_append, List.filter_append,
      List.filter_cons_of_pos (p := fun other : FileEntry ↦ decide (other.projid = projent.projid))
      (decide_eq_true rfl), List.length_append, List.length_append, List.length_cons]
    omega
  rw [hfound, projentValidateUniqueId, hlength]
  split_ifs with h
  · exact iff_of_true ⟨_, rfl⟩ (by omega)
  · exact iff_of_false (fun ⟨errors, herrors⟩ ↦ (nomatch herrors)) (by omega)

/-- The ids are checked as numbers exactly if every entry whose number another one has finds its own
text again. -/
theorem idsChecked_iff (flags : FileFlags) (projents : List FileEntry) : IdsChecked flags projents ↔
    ∀ before projent after, projents = before ++ projent :: after →
      (∃ other ∈ before ++ after, numeric other.projid = numeric projent.projid) →
        ∃ other ∈ before ++ after, other.projid = projent.projid := by
  constructor
  · intro h before projent after heq hother
    have hreported := (h.reported before projent after heq).mpr hother
    rw [heq] at hreported
    exact (reported_iff before after projent).mp hreported
  · intro h
    refine ⟨fun hdup hok ↦ ?_, fun before projent after heq ↦ ?_⟩
    · obtain ⟨⟨hnames, -⟩, hvalid, -⟩ :=
        validateEach_eq_nil_iff.mp (validateEach_of_projfValidate hok)
      have hids := (hvalid hdup).1
      refine ⟨List.Nodup.map_on (fun projent hmem other hother hnumber ↦
        ?_) (List.Nodup.of_map _ hids), hnames⟩
      by_contra hne
      obtain ⟨before, after, rfl⟩ := List.append_of_mem hmem
      have hrest : other ∈ before ++ after := by
        rcases List.mem_append.mp hother with hleft | hright
        · exact List.mem_append_left _ hleft
        · exact List.mem_append_right _ ((List.mem_cons.mp hright).resolve_left fun heq ↦
            hne heq.symm)
      obtain ⟨same, hsame, htext⟩ := h before projent after rfl ⟨other, hrest, hnumber.symm⟩
      rw [List.map_append, List.map_cons, List.nodup_middle, List.nodup_cons,
        ← List.map_append] at hids
      exact hids.1 (htext ▸ List.mem_map_of_mem hsame)
    · rw [heq, reported_iff before after projent]
      refine ⟨fun ⟨other, hmem, htext⟩ ↦ ⟨other, hmem, congrArg numeric htext⟩,
        h before projent after heq⟩

/-- The entries of two lines that spell one number differently. -/
theorem not_idsChecked_spelled : ∃ first second,
    projentParse posix ⟨false⟩ "a:7::::".toList = .ok first ∧
    projentParse posix ⟨false⟩ "b:07::::".toList = .ok second ∧
      ¬ IdsChecked ⟨true, false, fun _ ↦ []⟩ [⟨first, "a:7::::".toList, false, 1⟩,
        ⟨second, "b:07::::".toList, false, 2⟩] := by
  refine ⟨_, _, rfl, rfl, fun h ↦ ?_⟩
  have hnodup := (h.validated rfl rfl).1
  exact (List.nodup_cons.mp hnodup).1 List.mem_cons_self

end Userland.Project
