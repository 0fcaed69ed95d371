import Userland.Library.Separated
import Userland.Project.File

/-!
# Continued lines of the project file

`projf_read` takes a backslash before a newline out of each line that it reads, but reads no further
line in its place: a line that is continued is an entry of its own. `readsContinued_iff` says when a
file is read as the file with its continuations joined, and that what was read is written as it was.
-/

set_option autoImplicit false
set_option relaxedAutoImplicit false

namespace Userland.Project

open Userland.Library Userland.Pkg Userland.Pkg.Text

/-- A file is read as the file with its continuations joined, and written as it was. -/
structure ReadsContinued (limits : Limits) (flags : FileFlags) (text : Text) : Prop where
  succeeds : (∃ projents, projfRead limits flags text = .ok projents) ↔
    ∃ projents, projfRead limits flags (joinLines text) = .ok projents
  entries : ∀ projents joined, projfRead limits flags text = .ok projents →
    projfRead limits flags (joinLines text) = .ok joined →
      joined.map FileEntry.toProjent = projents.map FileEntry.toProjent
  written : ∀ projents, projfRead limits flags text = .ok projents → projfWrite projents = text

/-- The lines that are parsed. -/
def parsedLines (text : Text) : List Text :=
  (readlines text).map parsedLine

/-- The line of an entry. -/
def Parses (limits : Limits) (line : Text) (projent : Projent) : Prop :=
  projentParse limits.toPlatform ⟨false⟩ line = .ok projent

/-- Every line of a text is an entry that fits, and the entries are valid where they are checked. -/
structure Legible (limits : Limits) (flags : FileFlags) (text : Text) : Prop where
  fits : ∀ line ∈ parsedLines text, line.length + 2 ≤ limits.projectBufsz
  parsed : ∀ line ∈ parsedLines text, ∃ projent, Parses limits line projent
  valid : flags.validate = true → ∀ projents,
    List.Forall₂ (Parses limits) (parsedLines text) projents →
    (projents.map Projent.name).Nodup ∧ (flags.dup = false → (projents.map Projent.projid).Nodup) ∧
      ∀ projent ∈ projents, flags.projentValidate projent = []

/-! ### Lines and continuations -/

theorem joinLines_cons {c : Char} {rest : Text} (h : ∀ after, c = '\\' → rest ≠ '\n' :: after) :
    joinLines (c :: rest) = c :: joinLines rest := by
  rw [joinLines]
  exact h

theorem count_joinLines {c : Char} (hslash : c ≠ '\\') (hnewline : c ≠ '\n') (text : Text) :
    (joinLines text).count c = text.count c := by
  induction text using joinLines.induct with
  | case1 rest ih =>
    rw [joinLines, ih, List.count_cons_of_ne hslash.symm, List.count_cons_of_ne hnewline.symm]
  | case2 d rest hnot ih =>
    rw [joinLines_cons fun after hd hrest ↦ hnot after hd hrest, List.count_cons,
      List.count_cons, ih]
  | case3 => rfl

variable {text : Text}

theorem readlines_eq_nil_iff : readlines text = [] ↔ text = [] := by
  refine ⟨fun h ↦ ?_, fun h ↦ h ▸ rfl⟩
  rw [← flatten_readlines text, h]
  rfl

/-- A newline of a line is at its end. -/
theorem notMem_dropLast_of_mem_readlines {text line : Text} (h : line ∈ readlines text) :
    line ≠ [] ∧ '\n' ∉ line.dropLast := by
  induction text generalizing line with
  | nil => cases h
  | cons c rest ih =>
    rw [readlines] at h
    split_ifs at h with hc
    · rcases List.mem_cons.mp h with rfl | hrest
      · exact ⟨List.cons_ne_nil _ _, List.not_mem_nil⟩
      · exact ih hrest
    · split at h
      · obtain rfl := List.mem_singleton.mp h
        exact ⟨List.cons_ne_nil _ _, List.not_mem_nil⟩
      · next first more hmore =>
        rcases List.mem_cons.mp h with rfl | hrest
        · obtain ⟨hne, hinner⟩ := ih (hmore ▸ List.mem_cons_self)
          rw [List.dropLast_cons_of_ne_nil hne, List.mem_cons, not_or]
          exact ⟨List.cons_ne_nil _ _, Ne.symm hc, hinner⟩
        · exact ih (hmore ▸ List.mem_cons_of_mem _ hrest)

theorem joinLines_of_notMem (h : '\n' ∉ text.dropLast) :
    joinLines text = text ∨ '\n' ∉ joinLines text := by
  induction text using joinLines.induct with
  | case1 rest ih =>
    right
    cases rest with
    | nil => exact List.not_mem_nil
    | cons d rest => exact absurd (List.mem_cons_of_mem _ List.mem_cons_self) h
  | case2 d rest hnot ih =>
    rw [joinLines_cons fun after hd hrest ↦ hnot after hd hrest]
    by_cases hrest : rest = []
    · exact .inl (by rw [hrest]; rfl)
    · rw [List.dropLast_cons_of_ne_nil hrest, List.mem_cons, not_or] at h
      refine (ih h.2).imp (congrArg _) fun hinner ↦ ?_
      rw [List.mem_cons, not_or]
      exact ⟨h.1, hinner⟩
  | case3 => exact .inl rfl

theorem joinLines_eq_self (h : '\n' ∉ text) : joinLines text = text := by
  induction text using joinLines.induct with
  | case1 rest ih => exact absurd (List.mem_cons_of_mem _ List.mem_cons_self) h
  | case2 d rest hnot ih =>
    rw [joinLines_cons fun after hd hrest ↦ hnot after hd hrest,
      ih fun hmem ↦ h (List.mem_cons_of_mem _ hmem)]
  | case3 => rfl

/-- A line that was joined is parsed as it was before. -/
theorem parsedLine_joinLines {text line : Text} (h : line ∈ readlines text) :
    parsedLine (joinLines line) = parsedLine line := by
  rw [parsedLine, parsedLine]
  rcases joinLines_of_notMem (notMem_dropLast_of_mem_readlines h).2 with heq | hnot
  · rw [heq, heq]
  · rw [joinLines_eq_self hnot]

/-- Joined lines are no more than before, and each is the join of its own if they are as many. -/
theorem readlines_joinLines (text : Text) :
    (readlines (joinLines text)).length ≤ (readlines text).length ∧
    ((readlines (joinLines text)).length = (readlines text).length →
      readlines (joinLines text) = (readlines text).map joinLines) := by
  induction text using joinLines.induct with
  | case1 rest ih =>
    have hlines : readlines ('\\' :: '\n' :: rest) = ['\\', '\n'] :: readlines rest := rfl
    rw [joinLines, hlines, List.length_cons]
    have hle := ih.1
    exact ⟨by omega, fun heq ↦ by omega⟩
  | case2 c rest hnot ih =>
    have hjoin := joinLines_cons fun after hc hrest ↦ hnot after hc hrest
    rw [hjoin]
    by_cases hc : c = '\n'
    · rw [readlines, readlines, if_pos hc, if_pos hc, List.length_cons, List.length_cons,
        List.map_cons]
      refine ⟨Nat.succ_le_succ ih.1, fun heq ↦ ?_⟩
      rw [ih.2 (Nat.succ_injective heq), hc]
      rfl
    · rw [readlines, readlines, if_neg hc, if_neg hc]
      cases hinner : readlines (joinLines rest) with
      | nil =>
        have hrest : joinLines rest = [] := readlines_eq_nil_iff.mp hinner
        cases hlines : readlines rest with
        | nil =>
          obtain rfl := readlines_eq_nil_iff.mp hlines
          exact ⟨le_rfl, fun _ ↦ by rw [List.map_singleton, hjoin, hrest]⟩
        | cons first more =>
          refine ⟨Nat.succ_le_succ (Nat.zero_le _), fun heq ↦ ?_⟩
          obtain rfl : more = [] := List.length_eq_zero_iff.mp (Nat.succ_injective heq).symm
          have hfirst : first = rest := by
            rw [← flatten_readlines rest, hlines, List.flatten_singleton]
          rw [List.map_singleton, hfirst, hjoin, hrest]
      | cons first' more' =>
        cases hlines : readlines rest with
        | nil =>
          obtain rfl := readlines_eq_nil_iff.mp hlines
          cases hinner
        | cons first more =>
          rw [hinner, hlines] at ih
          refine ⟨ih.1, fun heq ↦ ?_⟩
          obtain ⟨hfirst, hmore⟩ := List.cons.inj (ih.2 heq)
          have hhead : joinLines (c :: first) = c :: joinLines first :=
              joinLines_cons fun after hslash heq ↦ by
            refine hnot (after ++ more.flatten) hslash ?_
            rw [← flatten_readlines rest, hlines, List.flatten_cons, heq]
            rfl
          rw [List.map_cons, hhead, hfirst, hmore]
  | case3 => exact ⟨le_rfl, fun _ ↦ rfl⟩

theorem parsedLines_joinLines (h : (readlines (joinLines text)).length = (readlines text).length) :
    parsedLines (joinLines text) = parsedLines text := by
  rw [parsedLines, parsedLines, (readlines_joinLines text).2 h, List.map_map]
  exact List.map_congr_left fun line hline ↦ parsedLine_joinLines hline

/-! ### Separators -/

theorem count_chomp {c : Char} (hnewline : c ≠ '\n') (line : Text) :
    (chomp line).count c = line.count c := by
  rw [chomp]
  split_ifs with h
  · obtain ⟨inner, rfl⟩ := List.getLast?_eq_some_iff.mp h
    rw [List.dropLast_concat, List.count_append, List.count_singleton, if_neg, Nat.add_zero]
    exact fun heq ↦ hnewline (beq_iff_eq.mp heq).symm
  · rfl

theorem count_parsedLine (line : Text) : (parsedLine line).count ':' = line.count ':' := by
  rw [parsedLine, count_chomp (by decide), count_joinLines (by decide) (by decide)]

theorem length_splitOn (c : Char) (text : Text) : (text.splitOn c).length = text.count c + 1 := by
  induction text with
  | nil => rfl
  | cons d rest ih =>
    rw [List.splitOn_cons_eq_if_modifyHead, List.count_cons]
    split_ifs with h
    · rw [List.length_cons, ih]
    · rw [List.length_modifyHead, ih, Nat.add_zero]

/-- An entry has five separators. -/
theorem count_of_projentParse {platform : Platform} {flags : Flags} {line : Text}
    {projent : Projent}
    (h : projentParse platform flags line = .ok projent) : line.count ':' = 5 := by
  have hlength := length_splitOn ':' line
  rw [(projentParse_eq_ok h).1] at hlength
  exact (Nat.succ_injective hlength).symm

variable {limits : Limits} {flags : FileFlags}

theorem Legible.count (h : Legible limits flags text) :
    text.count ':' = 5 * (readlines text).length := by
  have hline : ∀ line ∈ readlines text, line.count ':' = 5 := fun line hline ↦ by
    obtain ⟨projent, hprojent⟩ := h.parsed _ (List.mem_map_of_mem hline)
    rw [← count_parsedLine, count_of_projentParse hprojent]
  conv_lhs => rw [← flatten_readlines text]
  generalize readlines text = lines at hline ⊢
  clear h
  induction lines with
  | nil => rfl
  | cons line rest ih =>
    rw [List.forall_mem_cons] at hline
    rw [List.flatten_cons, List.count_append, hline.1, ih hline.2, List.length_cons]
    omega

/-! ### What is read -/

theorem readLine_eq_of_parses {line : Text} {projent : Projent}
    (hfits : (parsedLine line).length + 2 ≤ limits.projectBufsz)
    (h : Parses limits (parsedLine line) projent)
    (linenum : ℕ) : readLine limits linenum line = ([], some ⟨projent, line, false, linenum⟩) := by
  rw [readLine, h]
  dsimp only
  rw [if_neg (Nat.not_lt.mpr hfits)]

theorem parses_of_readLine {linenum : ℕ} {line : Text} (h : (readLine limits linenum line).1 = []) :
    (parsedLine line).length + 2 ≤ limits.projectBufsz ∧ ∃ projent,
    Parses limits (parsedLine line) projent := by
  have hposts := posts_projentParse limits.toPlatform ⟨false⟩ (parsedLine line)
  rw [readLine] at h
  cases hparse : projentParse limits.toPlatform ⟨false⟩ (parsedLine line) with
  | ok projent =>
    rw [hparse] at h
    refine ⟨Nat.not_lt.mp fun hlong ↦ ?_, projent, hparse⟩
    rw [if_pos hlong] at h
    cases h
  | error errors =>
    rw [hparse] at h hposts
    rw [List.append_eq_nil_iff, projfCombineErrors_eq_nil_iff] at h
    exact absurd (congrArg _ h.2) hposts

/-- An entry that was read from a line. -/
structure ReadFrom (limits : Limits) (line : Text) (projent : FileEntry) : Prop where
  parses : Parses limits (parsedLine line) projent.toProjent
  line : projent.line = line
  modified : projent.modified = false

variable {lines : List Text}

/-- Lines that fit and are parsed post no error, and each is an entry. -/
theorem readEach_of_parses (h : ∀ line ∈ lines, (parsedLine line).length + 2 ≤ limits.projectBufsz ∧
      ∃ projent, Parses limits (parsedLine line) projent) (linenum : ℕ) :
    (readEach limits linenum lines).1 = [] ∧
      List.Forall₂ (ReadFrom limits) lines (readEach limits linenum lines).2 := by
  induction lines generalizing linenum with
  | nil => exact ⟨rfl, .nil⟩
  | cons line rest ih =>
    rw [List.forall_mem_cons] at h
    obtain ⟨⟨hfits, projent, hprojent⟩, hrest⟩ := h
    obtain ⟨herrors, hentries⟩ := ih hrest (linenum + 1)
    rw [readEach]
    dsimp only
    rw [readLine_eq_of_parses hfits hprojent, herrors]
    exact ⟨rfl, .cons ⟨hprojent, rfl, rfl⟩ hentries⟩

theorem parses_of_readEach {linenum : ℕ} (h : (readEach limits linenum lines).1 = []) :
    ∀ line ∈ lines,
      (parsedLine line).length + 2 ≤ limits.projectBufsz ∧
      ∃ projent, Parses limits (parsedLine line) projent := by
  induction lines generalizing linenum with
  | nil => exact fun line hline ↦ (nomatch hline)
  | cons line rest ih =>
    rw [readEach] at h
    dsimp only at h
    rw [List.append_eq_nil_iff] at h
    exact List.forall_mem_cons.mpr ⟨parses_of_readLine h.1, ih h.2⟩

variable {projents : List FileEntry}

theorem ReadFrom.forall₂_parses (h : List.Forall₂ (ReadFrom limits) lines projents) :
    List.Forall₂ (Parses limits) (lines.map parsedLine) (projents.map FileEntry.toProjent) := by
  rw [List.forall₂_map_left_iff, List.forall₂_map_right_iff]
  exact h.imp fun line projent hread ↦ hread.parses

theorem parses_unique {projents others : List Projent}
    (h : List.Forall₂ (Parses limits) lines projents)
    (hothers : List.Forall₂ (Parses limits) lines others) :
    others = projents := by
  induction h generalizing others with
  | nil => exact List.forall₂_nil_left_iff.mp hothers
  | cons hfirst hrest ih =>
    obtain ⟨other, rest, hother, hrest', rfl⟩ := List.forall₂_cons_left_iff.mp hothers
    rw [ih hrest', Except.ok.inj (hother.symm.trans hfirst)]

/-- What a file is read as. -/
theorem projfRead_spec (h : projfRead limits flags text = .ok projents) :
    Legible limits flags text ∧ List.Forall₂ (ReadFrom limits) (readlines text) projents := by
  have hempty : ((readEach limits 0 (readlines text)).1 ++ if flags.validate then
      errorsOf (projfValidate flags (readEach limits 0 (readlines text)).2)
          else []).isEmpty = true := by
    by_contra hnot
    exact absurd ((if_neg hnot).symm.trans h) fun heq ↦ (nomatch heq)
  obtain rfl := Except.ok.inj ((if_pos hempty).symm.trans h)
  obtain ⟨hread, hvalid⟩ := List.append_eq_nil_iff.mp (List.isEmpty_iff.mp hempty)
  have hlines := parses_of_readEach hread
  have hentries := (readEach_of_parses hlines 0).2
  refine ⟨⟨List.forall_mem_map.mpr fun line hline ↦ (hlines line hline).1,
    List.forall_mem_map.mpr fun line hline ↦ (hlines line hline).2,
      fun hvalidate projents hprojents ↦ ?_⟩, hentries⟩
  rw [if_pos hvalidate, projfValidate] at hvalid
  split_ifs at hvalid with hnil
  · obtain ⟨⟨hnames, -⟩, hids, heach⟩ := validateEach_eq_nil_iff.mp (List.isEmpty_iff.mp hnil)
    rw [parses_unique (ReadFrom.forall₂_parses hentries) hprojents, List.map_map, List.map_map,
      List.forall_mem_map]
    exact ⟨hnames, fun hdup ↦ (hids hdup).1, heach⟩
  · exact absurd (List.isEmpty_iff.mpr hvalid) hnil

theorem Legible.read (h : Legible limits flags text) :
    ∃ projents, projfRead limits flags text = .ok projents := by
  have hparses : ∀ line ∈ readlines text, (parsedLine line).length + 2 ≤ limits.projectBufsz ∧
      ∃ projent, Parses limits (parsedLine line) projent := fun line hline ↦
    ⟨h.fits _ (List.mem_map_of_mem hline), h.parsed _ (List.mem_map_of_mem hline)⟩
  obtain ⟨herrors, hentries⟩ := readEach_of_parses hparses 0
  refine ⟨(readEach limits 0 (readlines text)).2, ?_⟩
  rw [projfRead]
  refine if_pos (List.isEmpty_iff.mpr (List.append_eq_nil_iff.mpr ⟨herrors, ?_⟩))
  split_ifs with hvalidate
  · obtain ⟨hnames, hids, heach⟩ := h.valid hvalidate _ (ReadFrom.forall₂_parses hentries)
    rw [List.map_map] at hnames hids
    rw [List.forall_mem_map] at heach
    have hvalid := validateEach_eq_nil_iff.mpr ⟨⟨hnames, List.disjoint_nil_right _⟩,
      fun hdup ↦ ⟨hids hdup, List.disjoint_nil_right _⟩, heach⟩
    rw [projfValidate, if_pos (List.isEmpty_iff.mpr hvalid)]
    rfl
  · rfl

theorem legible_iff_read :
    (∃ projents, projfRead limits flags text = .ok projents) ↔ Legible limits flags text :=
  ⟨fun ⟨_, h⟩ ↦ (projfRead_spec h).1, Legible.read⟩

/-- A file that was read is written as it was. -/
theorem projfWrite_of_read
    (h : List.Forall₂ (ReadFrom limits) lines projents) : projfWrite projents = lines.flatten := by
  induction h with
  | nil => rfl
  | cons hfirst hrest ih =>
    rw [projfWrite] at ih ⊢
    rw [List.flatMap_cons, ih, hfirst.modified, if_neg Bool.false_ne_true, hfirst.line,
      List.flatten_cons]

theorem legible_congr {text other : Text} (h : parsedLines other = parsedLines text) :
    Legible limits flags other ↔ Legible limits flags text :=
  ⟨fun hother ↦ ⟨h ▸ hother.fits, h ▸ hother.parsed, h ▸ hother.valid⟩,
    fun htext ↦ ⟨h.symm ▸ htext.fits, h.symm ▸ htext.parsed, h.symm ▸ htext.valid⟩⟩

/-- A file is read as the file with its continuations joined exactly if that file has as many lines,
or neither of them consists of entries. -/
theorem readsContinued_iff (limits : Limits) (flags : FileFlags) (text : Text) :
    ReadsContinued limits flags text ↔
    (readlines (joinLines text)).length = (readlines text).length ∨
      ¬ Legible limits flags text ∧ ¬ Legible limits flags (joinLines text) := by
  constructor
  · intro h
    by_contra hnot
    rw [not_or, not_and_or, not_not, not_not] at hnot
    obtain ⟨hlength, hlegible⟩ := hnot
    have hboth : Legible limits flags text ∧ Legible limits flags (joinLines text) := by
      have hiff : Legible limits flags text ↔ Legible limits flags (joinLines text) := by
        rw [← legible_iff_read, ← legible_iff_read]
        exact h.succeeds
      exact hlegible.elim (fun htext ↦ ⟨htext, hiff.mp htext⟩) fun hjoined ↦
        ⟨hiff.mpr hjoined, hjoined⟩
    refine hlength (Nat.eq_of_mul_eq_mul_left (Nat.succ_pos 4) ?_)
    rw [← hboth.1.count, ← hboth.2.count, count_joinLines (by decide) (by decide)]
  · intro h
    have hwritten : ∀ projents, projfRead limits flags text = .ok projents →
        projfWrite projents = text :=
      fun projents hok ↦ (projfWrite_of_read (projfRead_spec hok).2).trans (flatten_readlines text)
    rcases h with hlength | ⟨htext, hjoined⟩
    · have hlines := parsedLines_joinLines hlength
      refine ⟨?_, fun projents joined hok hjoined ↦ ?_, hwritten⟩
      · rw [legible_iff_read, legible_iff_read, legible_congr hlines]
      · have hparses := ReadFrom.forall₂_parses (projfRead_spec hjoined).2
        rw [← parsedLines, hlines] at hparses
        exact parses_unique (ReadFrom.forall₂_parses (projfRead_spec hok).2) hparses
    · refine ⟨?_, fun projents joined hok _ ↦ absurd (projfRead_spec hok).1 htext, hwritten⟩
      rw [legible_iff_read, legible_iff_read]
      exact iff_of_false htext hjoined

/-- An entry that is continued in the middle. -/
theorem not_readsContinued_split :
    ¬ ReadsContinued ⟨posix, 4096⟩ ⟨false, false, fun _ ↦ []⟩ "foo:1:::\\\n:\n".toList := by
  intro h
  have hjoined : ∃ projents, projfRead ⟨posix, 4096⟩ ⟨false, false,
      fun _ ↦ []⟩ (joinLines "foo:1:::\\\n:\n".toList) =
      .ok projents := ⟨_, rfl⟩
  obtain ⟨projents, hok⟩ := h.succeeds.mpr hjoined
  have hcount := (legible_iff_read.mp ⟨projents, hok⟩).count
  exact absurd hcount (by decide)

end Userland.Project
