import Mathlib.Data.List.Lex
import Mathlib.Data.Prod.Lex
import Mathlib.Data.String.Basic
import Mathlib.Order.WithBot
import Mathlib.Tactic.IntervalCases

/-!
# Package versions

`pkg/version.py`. A version is `release[,build_release]-branch:datetime`, three dot sequences and a
time string. The source compares versions in two ways: `__lt__`, `__gt__` and `__eq__` look at
release, branch and time only, and `__cmp__` breaks their ties by the build release. Both are the
order of a key (`Version.key`, `Version.fullKey`) in a lexicographic product, with an absent branch
or time below every present one (`Version.lt_iff`, `Version.eq_iff`, `Version.cmp_eq_eq_iff`).
`is_successor` is modelled for the two constraints the callers of this development pass,
`CONSTRAINT_NONE` and `CONSTRAINT_AUTO`.

The text of a version is canonical: the constructor reads back exactly the version that was printed
(`Version.ofString_str`), so two versions with the same text are equal (`Version.str_injective`).

Scope. Python's `int` also accepts blanks and a sign in a component or in the time; the parser here
takes the documented digits only. What it takes, the constructors of `Userland.Pkg.Versions` take
too, and they read the same version (`readVersion_of_ofString`). Wildcard versions
(`MatchingVersion`) are not modelled.
-/

set_option autoImplicit false
set_option relaxedAutoImplicit false

namespace Userland.Pkg

/-! ### Dot sequences -/

/-- `DotSequence`: the nonempty list of the numbers of an `x.y.z` text. -/
structure DotSequence where
  parts : List ℕ
  nonempty : parts ≠ []
deriving DecidableEq

namespace DotSequence

/-- `str(dotseq)`. -/
def str (sequence : DotSequence) : List Char :=
  ['.'].intercalate (sequence.parts.map (Nat.toDigits 10))

/-- `DotSequence.dotsequence_val`: a decimal number without a padding zero. -/
def dotsequenceVal (elem : List Char) : Option ℕ :=
  if elem = [] ∨ ¬ elem.all Char.isDigit then none
  else
    let x := Nat.ofDigitChars 10 elem 0
    if 0 < x ∧ elem.head? = some '0' then none else some x

/-- `DotSequence(dotstring)`; `none` is `IllegalDotSequence`. -/
def ofString (dotstring : List Char) : Option DotSequence :=
  match (dotstring.splitOn '.').mapM dotsequenceVal with
  | none => none
  | some [] => none
  | some (x :: xs) => some ⟨x :: xs, List.cons_ne_nil x xs⟩

/-- `self.is_subsequence(other)`: the components agree up to the length of `self`. -/
def isSubsequence (self other : DotSequence) : Bool :=
  self.parts.isPrefixOf other.parts

theorem toDigits_head_ne_zero {n : ℕ} (hn : 0 < n) : (Nat.toDigits 10 n).head? ≠ some '0' := by
  induction n using Nat.strongRecOn with
  | ind n ih =>
    rw [Nat.toDigits_eq_if (by decide)]
    split_ifs with hlt
    · interval_cases n <;> decide
    · have hquotient : 0 < n / 10 := by omega
      have hhead := ih (n / 10) (by omega) hquotient
      rw [List.head?_append]
      cases hfirst : (Nat.toDigits 10 (n / 10)).head? with
      | none => simp at hfirst
      | some c =>
        rw [hfirst] at hhead
        simpa using hhead

theorem dotsequenceVal_toDigits (n : ℕ) : dotsequenceVal (Nat.toDigits 10 n) = some n := by
  have hall : (Nat.toDigits 10 n).all Char.isDigit = true :=
    List.all_eq_true.mpr fun c hc ↦ Nat.isDigit_of_mem_toDigits (by decide) (by decide) hc
  unfold dotsequenceVal
  rw [if_neg (by simp [hall])]
  simp only [Nat.ofDigitChars_ten_toDigits]
  rw [if_neg]
  rintro ⟨hn, hzero⟩
  exact toDigits_head_ne_zero hn hzero

theorem mapM_dotsequenceVal_toDigits (parts : List ℕ) :
    (parts.map (Nat.toDigits 10)).mapM dotsequenceVal = some parts := by
  induction parts with
  | nil => rfl
  | cons n rest ih =>
    rw [List.map_cons, List.mapM_cons, dotsequenceVal_toDigits, ih]
    rfl

/-- The characters of a printed dot sequence are digits and dots. -/
theorem mem_str {sequence : DotSequence} {c : Char} (hc : c ∈ sequence.str) :
    c.isDigit ∨ c = '.' := by
  unfold str at hc
  generalize sequence.parts = parts at hc
  induction parts with
  | nil => simp [List.intercalate] at hc
  | cons n rest ih =>
    cases rest with
    | nil =>
      simp only [List.map_cons, List.map_nil, List.intercalate_singleton] at hc
      exact Or.inl (Nat.isDigit_of_mem_toDigits (by decide) (by decide) hc)
    | cons m rest =>
      rw [List.map_cons, List.intercalate_cons_of_ne_nil (by simp)] at hc
      simp only [List.mem_append, List.mem_singleton] at hc
      rcases hc with (hdigit | hdot) | hrest
      · exact Or.inl (Nat.isDigit_of_mem_toDigits (by decide) (by decide) hdigit)
      · exact Or.inr hdot
      · exact ih hrest

theorem ofString_str (sequence : DotSequence) : ofString sequence.str = some sequence := by
  have hsplit : sequence.str.splitOn '.' = sequence.parts.map (Nat.toDigits 10) := by
    refine List.splitOn_intercalate '.' ?_ (by simpa using sequence.nonempty)
    intro digits hdigits hdot
    obtain ⟨n, -, rfl⟩ := List.mem_map.mp hdigits
    have := Nat.isDigit_of_mem_toDigits (by decide) (by decide) hdot
    exact absurd this (by decide)
  unfold ofString
  rw [hsplit, mapM_dotsequenceVal_toDigits]
  obtain ⟨parts, hparts⟩ := sequence
  cases parts with
  | nil => exact absurd rfl hparts
  | cons x xs => rfl

end DotSequence

/-! ### Time strings -/

/-- The fields `datetime.datetime` accepts: a date of the Gregorian calendar from year one to year
9999, and a time of day without leap seconds. -/
def validDatetime (year month day hour minute second : ℕ) : Bool :=
  let leap := year % 4 == 0 && (year % 100 != 0 || year % 400 == 0)
  let monthLength :=
    if month = 2 then (if leap then 29 else 28)
    else if month ∈ [4, 6, 9, 11] then 30
    else 31
  (1 ≤ year && year ≤ 9999) && (1 ≤ month && month ≤ 12) && (1 ≤ day && day ≤ monthLength) &&
    hour < 24 && minute < 60 && second < 60

/-- The check the constructor of `Version` makes of a time string: `YYYYMMDDTHHMMSSZ`. -/
def validTimestr (timestr : List Char) : Bool :=
  let date := timestr.take 8
  let time := (timestr.drop 9).take 6
  let dateint := Nat.ofDigitChars 10 date 0
  let timeint := Nat.ofDigitChars 10 time 0
  timestr.length == 16 && timestr[8]? == some 'T' && timestr[15]? == some 'Z' &&
    date.all Char.isDigit && time.all Char.isDigit &&
    validDatetime (dateint / 10000) (dateint / 100 % 100) (dateint % 100)
      (timeint / 10000) (timeint / 100 % 100) (timeint % 100)

/-- A time string of a version. -/
structure Timestr where
  text : List Char
  valid : validTimestr text = true
deriving DecidableEq

/-! ### Versions -/

/-- `Version`. -/
structure Version where
  release : DotSequence
  buildRelease : DotSequence
  branch : Option DotSequence
  timestr : Option Timestr
deriving DecidableEq

namespace Version

/-- `str(version)`. -/
def str (version : Version) : List Char :=
  version.release.str ++ ',' :: version.buildRelease.str ++
    (match version.branch with | some branch => '-' :: branch.str | none => []) ++
    (match version.timestr with | some timestr => ':' :: timestr.text | none => [])

/-- The slice `text[start:stop]`, where a missing `stop` is the end of the text. -/
def slice (text : List Char) (start : ℕ) (stop : Option ℕ) : List Char :=
  (match stop with | some stop => text.take stop | none => text).drop start

/-- The time string of the constructor: absent, or a text that passes the check; `none` is
`IllegalVersion`. -/
def timestrOfString : Option (List Char) → Option (Option Timestr)
  | none => some none
  | some text => if h : validTimestr text = true then some (some ⟨text, h⟩) else none

/-- An optional dot sequence of the constructor; `none` is `IllegalVersion`. -/
def branchOfString : Option (List Char) → Option (Option DotSequence)
  | none => some none
  | some text => (DotSequence.ofString text).map some

/-- `Version(version_string, build_string)`; `none` is `IllegalVersion`. Each separator is looked
for in the whole text, and a missing one stands where the next one stands. -/
def ofString (versionString : List Char) (buildString : Option (List Char)) : Option Version := do
  if versionString = [] then none
  let timeidx := versionString.idxOf? ':'
  let timestr := timeidx.map fun idx ↦ slice versionString (idx + 1) none
  let found := versionString.idxOf? '-'
  let branch := found.map fun idx ↦ slice versionString (idx + 1) timeidx
  let branchidx := found.or timeidx
  let found := versionString.idxOf? ','
  let build := found.map fun idx ↦ slice versionString (idx + 1) branchidx
  let buildidx := found.or branchidx
  if buildidx = some 0 then none
  let release ← DotSequence.ofString (slice versionString 0 buildidx)
  let branch ← branchOfString branch
  let buildRelease ← DotSequence.ofString (← build.or buildString)
  let timestr ← timestrOfString timestr
  return ⟨release, buildRelease, branch, timestr⟩

/-! ### The text of a version -/

theorem notMem_str (sequence : DotSequence) {c : Char} (hdigit : c.isDigit = false)
    (hdot : c ≠ '.') :
    c ∉ sequence.str := by
  intro hmem
  rcases DotSequence.mem_str hmem with h | h
  · rw [hdigit] at h
    exact absurd h (by decide)
  · exact hdot h

/-- A time string holds no separator of a version. -/
theorem notMem_timestr (timestr : Timestr) {c : Char} (hdigit : c.isDigit = false) (hT : c ≠ 'T')
    (hZ : c ≠ 'Z') : c ∉ timestr.text := by
  obtain ⟨text, hvalid⟩ := timestr
  simp only [validTimestr, Bool.and_eq_true, beq_iff_eq, List.all_eq_true] at hvalid
  obtain ⟨⟨⟨⟨⟨hlength, heighth⟩, hlast⟩, hdate⟩, htime⟩, -⟩ := hvalid
  intro hmem
  obtain ⟨idx, hidx, rfl⟩ := List.mem_iff_getElem.mp hmem
  rcases lt_trichotomy idx 8 with hlt | rfl | hgt
  · have := hdate _ (List.mem_take_iff_getElem.mpr ⟨idx, by omega, rfl⟩)
    rw [hdigit] at this
    exact absurd this (by decide)
  · rw [List.getElem?_eq_getElem hidx, Option.some_inj] at heighth
    exact hT heighth
  · rcases Nat.lt_or_ge idx 15 with hlt | hge
    · have hshort : idx - 9 < (text.drop 9).length := by
        rw [List.length_drop]
        omega
      have hdrop : text[idx] = (text.drop 9)[idx - 9] := by
        rw [List.getElem_drop]
        congr 1
        omega
      rw [hdrop] at hdigit
      have := htime _ (List.mem_take_iff_getElem.mpr
        ⟨idx - 9, by rw [List.length_drop]; omega, rfl⟩)
      rw [hdigit] at this
      exact absurd this (by decide)
    · have hbound : idx < text.length := hidx
      obtain rfl : idx = 15 := by omega
      rw [List.getElem?_eq_getElem hidx, Option.some_inj] at hlast
      exact hZ hlast

/-- A printed version holds digits and separators only. -/
theorem notMem_str_of_ne (version : Version) {c : Char} (hdigit : c.isDigit = false)
    (h : c ∉ ['.', ',', '-', ':', 'T', 'Z']) : c ∉ version.str := by
  simp only [List.mem_cons, List.not_mem_nil, or_false, not_or] at h
  obtain ⟨hdot, hcomma, hdash, hcolon, hT, hZ⟩ := h
  have hsequence := fun sequence ↦ notMem_str sequence hdigit hdot
  have htimestr := fun timestr : Timestr ↦ notMem_timestr timestr hdigit hT hZ
  obtain ⟨release, build, branch, timestr⟩ := version
  cases branch <;> cases timestr <;> simp [str, hsequence, htimestr, hcomma, hdash, hcolon]

/-- The index of the first occurrence, behind a text without one. -/
theorem idxOf?_append_cons {c : Char} (before : List Char) (hbefore : c ∉ before)
    (after : List Char) : (before ++ c :: after).idxOf? c = some before.length := by
  induction before with
  | nil => simp [List.idxOf?_cons]
  | cons d rest ih =>
    simp only [List.mem_cons, not_or] at hbefore
    rw [List.cons_append, List.idxOf?_cons, if_neg (by simpa using Ne.symm hbefore.1),
      ih hbefore.2]
    rfl

theorem timestrOfString_text (timestr : Timestr) :
    timestrOfString (some timestr.text) = some (some timestr) := by
  simp [timestrOfString, timestr.valid]

theorem str_ne_nil (sequence : DotSequence) : sequence.str ≠ [] := by
  intro hnil
  have hread := DotSequence.ofString_str sequence
  rw [hnil, show DotSequence.ofString [] = none by decide] at hread
  exact absurd hread (by simp)

theorem slice_tail (before after : List Char) (c : Char) :
    slice (before ++ c :: after) (before.length + 1) none = after := by
  simp [slice, List.drop_append]

theorem slice_middle (before middle after : List Char) (c : Char) :
    slice (before ++ c :: (middle ++ after)) (before.length + 1)
      (some (before.length + 1 + middle.length)) = middle := by
  have htake : (before ++ c :: (middle ++ after)).take (before.length + 1 + middle.length) =
      before ++ c :: middle := by
    rw [show before ++ c :: (middle ++ after) = (before ++ c :: middle) ++ after by simp,
      List.take_left' (by simp; omega)]
  simp [slice, htake, List.drop_append]

theorem slice_head (before after : List Char) :
    slice (before ++ after) 0 (some before.length) = before := by
  simp [slice]

/-- The constructor reads a printed version back, whatever build release it is given as default. -/
theorem ofString_str (version : Version) (buildString : Option (List Char)) :
    ofString version.str buildString = some version := by
  obtain ⟨release, build, branch, timestr⟩ := version
  have hcomma := fun sequence ↦ notMem_str sequence (c := ',') (by decide) (by decide)
  have hdash := fun sequence ↦ notMem_str sequence (c := '-') (by decide) (by decide)
  have hcolon := fun sequence ↦ notMem_str sequence (c := ':') (by decide) (by decide)
  have htime := fun timestr : Timestr ↦ notMem_timestr timestr (c := '-') (by decide) (by decide)
    (by decide)
  have hrelease : release.str.length ≠ 0 := by simpa using str_ne_nil release
  have hread := fun rest ↦ idxOf?_append_cons release.str (hcomma release) rest
  have hbuild := fun rest : List Char ↦ slice_head release.str (',' :: rest)
  rcases branch with _ | branch <;> rcases timestr with _ | timestr
  · have hfirst : (release.str ++ ',' :: build.str).idxOf? ':' = none := by
      simp [hcolon]
    have hsecond : (release.str ++ ',' :: build.str).idxOf? '-' = none := by
      simp [hdash]
    simp [ofString, str, hfirst, hsecond, hread, hbuild, hrelease, slice_tail, branchOfString,
      timestrOfString, DotSequence.ofString_str]
  · have hfirst : (release.str ++ ',' :: (build.str ++ ':' :: timestr.text)).idxOf? ':' =
        some (release.str.length + 1 + build.str.length) := by
      have := idxOf?_append_cons (c := ':') (release.str ++ ',' :: build.str)
        (by simp [hcolon]) timestr.text
      simpa [Nat.add_assoc, Nat.add_comm 1] using this
    have hsecond : (release.str ++ ',' :: (build.str ++ ':' :: timestr.text)).idxOf? '-' =
        none := by
      simp [hdash, htime]
    have htimestr : slice (release.str ++ ',' :: (build.str ++ ':' :: timestr.text))
        (release.str.length + 1 + build.str.length + 1) none = timestr.text := by
      have := slice_tail (release.str ++ ',' :: build.str) timestr.text ':'
      simpa [Nat.add_assoc, Nat.add_comm 1] using this
    simp [ofString, str, hfirst, hsecond, hread, hbuild, hrelease, slice_middle, htimestr,
      branchOfString, timestrOfString_text, DotSequence.ofString_str]
  · have hfirst : (release.str ++ ',' :: (build.str ++ '-' :: branch.str)).idxOf? ':' = none := by
      simp [hcolon]
    have hsecond : (release.str ++ ',' :: (build.str ++ '-' :: branch.str)).idxOf? '-' =
        some (release.str.length + 1 + build.str.length) := by
      have := idxOf?_append_cons (c := '-') (release.str ++ ',' :: build.str)
        (by simp [hdash]) branch.str
      simpa [Nat.add_assoc, Nat.add_comm 1] using this
    have hbranch : slice (release.str ++ ',' :: (build.str ++ '-' :: branch.str))
        (release.str.length + 1 + build.str.length + 1) none = branch.str := by
      have := slice_tail (release.str ++ ',' :: build.str) branch.str '-'
      simpa [Nat.add_assoc, Nat.add_comm 1] using this
    simp [ofString, str, hfirst, hsecond, hread, hbuild, hrelease, slice_middle, hbranch,
      branchOfString, timestrOfString, DotSequence.ofString_str]
  · have hfirst : (release.str ++ ',' :: (build.str ++ '-' :: (branch.str ++ ':' ::
        timestr.text))).idxOf? ':' =
        some (release.str.length + 1 + build.str.length + 1 + branch.str.length) := by
      have := idxOf?_append_cons (c := ':') (release.str ++ ',' :: (build.str ++ '-' :: branch.str))
        (by simp [hcolon])
        timestr.text
      simpa [Nat.add_assoc, Nat.add_comm, Nat.add_left_comm] using this
    have hsecond : (release.str ++ ',' :: (build.str ++ '-' :: (branch.str ++ ':' ::
        timestr.text))).idxOf? '-' = some (release.str.length + 1 + build.str.length) := by
      have := idxOf?_append_cons (c := '-') (release.str ++ ',' :: build.str)
        (by simp [hdash]) (branch.str ++ ':' :: timestr.text)
      simpa [Nat.add_assoc, Nat.add_comm 1] using this
    have hbranch : slice (release.str ++ ',' :: (build.str ++ '-' :: (branch.str ++ ':' ::
        timestr.text))) (release.str.length + 1 + build.str.length + 1)
        (some (release.str.length + 1 + build.str.length + 1 + branch.str.length)) =
        branch.str := by
      have := slice_middle (release.str ++ ',' :: build.str) branch.str (':' :: timestr.text) '-'
      simpa [Nat.add_assoc, Nat.add_comm, Nat.add_left_comm] using this
    have htimestr : slice (release.str ++ ',' :: (build.str ++ '-' :: (branch.str ++ ':' ::
        timestr.text))) (release.str.length + 1 + build.str.length + 1 + branch.str.length + 1)
        none = timestr.text := by
      have := slice_tail (release.str ++ ',' :: (build.str ++ '-' :: branch.str)) timestr.text ':'
      simpa [Nat.add_assoc, Nat.add_comm, Nat.add_left_comm] using this
    simp [ofString, str, hfirst, hsecond, hread, hbuild, hrelease, slice_middle, hbranch, htimestr,
      branchOfString, timestrOfString_text, DotSequence.ofString_str]

/-- Two versions with the same text are equal. -/
theorem str_injective : Function.Injective str := by
  intro first second htext
  have := ofString_str first none
  rw [htext, ofString_str] at this
  exact (Option.some_inj.mp this).symm

/-! ### Comparisons -/

/-- The branch as the source compares it: `None` is below every dot sequence. -/
def branchKey (version : Version) : WithBot (List ℕ) :=
  version.branch.map DotSequence.parts

/-- The time string as the source compares it: `None` is below every text. -/
def timestrKey (version : Version) : WithBot (List Char) :=
  version.timestr.map Timestr.text

/-- `self < other`. -/
def lt (self other : Version) : Bool :=
  if self.release.parts < other.release.parts then true
  else if self.release.parts ≠ other.release.parts then false
  else if self.branchKey < other.branchKey then true
  else if self.branchKey ≠ other.branchKey then false
  else self.timestrKey < other.timestrKey

/-- `self > other`. -/
def gt (self other : Version) : Bool :=
  if self.release.parts > other.release.parts then true
  else if self.release.parts ≠ other.release.parts then false
  else if self.branchKey > other.branchKey then true
  else if self.branchKey ≠ other.branchKey then false
  else self.timestrKey > other.timestrKey

/-- `self == other`: the build release is not compared. -/
def eq (self other : Version) : Bool :=
  self.release.parts == other.release.parts && self.branchKey == other.branchKey &&
    self.timestrKey == other.timestrKey

/-- `cmp(self, other)`. -/
def cmp (self other : Version) : Ordering :=
  if self.lt other then .lt
  else if self.gt other then .gt
  else if self.buildRelease.parts < other.buildRelease.parts then .lt
  else if self.buildRelease.parts > other.buildRelease.parts then .gt
  else .eq

/-- What `<`, `>` and `==` compare. -/
def key (version : Version) : List ℕ ×ₗ WithBot (List ℕ) ×ₗ WithBot (List Char) :=
  toLex (version.release.parts, toLex (version.branchKey, version.timestrKey))

/-- What `cmp` compares. -/
def fullKey (version : Version) :
    (List ℕ ×ₗ WithBot (List ℕ) ×ₗ WithBot (List Char)) ×ₗ List ℕ :=
  toLex (version.key, version.buildRelease.parts)

variable {self other : Version}

theorem lt_iff : self.lt other ↔ self.key < other.key := by
  simp only [lt, key, Prod.Lex.toLex_lt_toLex]
  split_ifs with hrelease hrelease' hbranch hbranch'
  · simp [hrelease]
  · simp [hrelease, hrelease']
  · simp only [ne_eq, not_not] at hrelease'
    simp [hrelease', hbranch]
  · simp [hrelease, hbranch, hbranch']
  · simp only [ne_eq, not_not] at hrelease' hbranch'
    simp [hrelease', hbranch']

theorem gt_iff : self.gt other ↔ other.key < self.key := by
  simp only [gt, key, Prod.Lex.toLex_lt_toLex]
  split_ifs with hrelease hrelease' hbranch hbranch'
  · simp [show other.release.parts < self.release.parts from hrelease]
  · simp [show ¬ other.release.parts < self.release.parts from hrelease, Ne.symm hrelease']
  · simp only [ne_eq, not_not] at hrelease'
    simp [hrelease', show other.branchKey < self.branchKey from hbranch]
  · simp [show ¬ other.release.parts < self.release.parts from hrelease,
      show ¬ other.branchKey < self.branchKey from hbranch, Ne.symm hbranch']
  · simp only [ne_eq, not_not] at hrelease' hbranch'
    simp [hrelease', hbranch']

theorem eq_iff : self.eq other ↔ self.key = other.key := by
  simp [eq, key, and_assoc]

theorem cmp_eq_lt_iff : self.cmp other = .lt ↔ self.fullKey < other.fullKey := by
  simp only [cmp, fullKey, Prod.Lex.toLex_lt_toLex, lt_iff, gt_iff]
  split_ifs with hlt hgt hbuild hbuild'
  · simp [hlt]
  · simp [hlt, hgt.ne']
  · simp [le_antisymm (not_lt.mp hgt) (not_lt.mp hlt), hbuild]
  · simp [hlt, hbuild]
  · simp [hlt, hbuild]

theorem cmp_eq_gt_iff : self.cmp other = .gt ↔ other.fullKey < self.fullKey := by
  simp only [cmp, fullKey, Prod.Lex.toLex_lt_toLex, lt_iff, gt_iff]
  split_ifs with hlt hgt hbuild hbuild'
  · simp [hlt.ne', hlt.le]
  · simp [hgt]
  · simp [hgt, hbuild.le]
  · simp [le_antisymm (not_lt.mp hlt) (not_lt.mp hgt), show other.buildRelease.parts <
      self.buildRelease.parts from hbuild']
  · simp [hgt, show ¬ other.buildRelease.parts < self.buildRelease.parts from hbuild']

theorem fullKey_injective : Function.Injective fullKey := by
  intro first second hkey
  simp only [fullKey, key, toLex_inj, Prod.mk.injEq] at hkey
  obtain ⟨⟨hrelease, hbranch, htimestr⟩, hbuild⟩ := hkey
  have hparts : Function.Injective DotSequence.parts := fun ⟨_, _⟩ ⟨_, _⟩ h ↦ by cases h; rfl
  have htext : Function.Injective Timestr.text := fun ⟨_, _⟩ ⟨_, _⟩ h ↦ by cases h; rfl
  cases first
  cases second
  rw [mk.injEq]
  exact ⟨hparts hrelease, hparts hbuild, Option.map_injective hparts hbranch,
    Option.map_injective htext htimestr⟩

theorem cmp_eq_eq_iff : self.cmp other = .eq ↔ self = other := by
  constructor
  · intro heq
    refine fullKey_injective (le_antisymm (not_lt.mp ?_) (not_lt.mp ?_))
    · rw [← cmp_eq_gt_iff, heq]
      decide
    · rw [← cmp_eq_lt_iff, heq]
      decide
  · rintro rfl
    rcases hcmp : self.cmp self with _ | _ | _
    · exact absurd (cmp_eq_lt_iff.mp hcmp) (lt_irrefl _)
    · rfl
    · exact absurd (cmp_eq_gt_iff.mp hcmp) (lt_irrefl _)

/-! ### Successors -/

/-- The constraints of `is_successor` that the callers modelled here pass. -/
inductive Constraint
  | none
  | auto
deriving DecidableEq

/-- One component under `CONSTRAINT_AUTO`: an absent component of `other` is met by anything, and a
present one by a component that `agrees` with it. -/
def componentMeets {α : Type} (agrees : α → α → Bool) (self other : Option α) : Bool :=
  match other, self with
  | .none, _ => true
  | some other, some self => agrees other self
  | some _, .none => false

/-- `self.is_successor(other, constraint)`. -/
def isSuccessor (self other : Version) : Constraint → Bool
  | .none => self.gt other
  | .auto =>
    other.release.isSubsequence self.release &&
      componentMeets DotSequence.isSubsequence self.branch other.branch &&
      componentMeets (fun other self ↦ other.text == self.text) self.timestr other.timestr

end Version

end Userland.Pkg
