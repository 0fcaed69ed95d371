import Userland.Pkg.Versions.Grammar

/-!
# Printing and reading versions

A version without negative components is read back from its text (`PlainVersion.readVersion_str`),
and one that was read from a documented text is printed as that text (`printed_of_documented`). So
the constructor accepts the documented texts only, reads back what it printed and tells different
texts apart, exactly for the texts that are not of the form of a version with numbers or a time that
only `int` reads (`canonical_and_distinct_iff`).
-/

set_option autoImplicit false
set_option relaxedAutoImplicit false

namespace Userland.Pkg.Flyweight

variable {texts : VersionTexts} {versionString : List Char} {buildString : Option (List Char)}

/-! ### Reading what was printed -/

namespace PlainVersion

/-- No component of a sequence is negative. -/
structure Nonnegative (version : PlainVersion) : Prop where
  release : version.object.release.Nonnegative
  buildRelease : version.object.buildRelease.Nonnegative
  branch : ∀ branch, version.object.branch = some branch → branch.Nonnegative

/-- The pieces a version is printed as. -/
def printed (version : PlainVersion) : VersionTexts :=
  ⟨version.object.release.str, some version.object.buildRelease.str,
    version.object.branch.map DotObject.str, version.object.timestr⟩

theorem str_printed (version : PlainVersion) : version.object.str = version.printed.str := by
  rw [VersionObject.str, VersionTexts.str, printed]
  cases htimestr : version.object.timestr with
  | none => rfl
  | some timestr =>
    have hne := ne_nil_of_validTime (version.timestr timestr htimestr)
    rw [show (some timestr).filter (· ≠ []) = some timestr by simp [Option.filter, hne]]

variable {version : PlainVersion}

/-- A printed sequence holds digits, dots and signs. -/
theorem notMem_str {ds : DotObject} (hcls : ds.cls = .dotSequence) {c : Char}
    (hdigit : c.isDigit = false) (hdot : c ≠ '.') (hsign : c ≠ '-') : c ∉ ds.str := by
  obtain ⟨numbers, hparts⟩ := exists_numbers hcls
  intro hc
  rw [DotObject.str, hparts, List.map_map] at hc
  rcases Library.mem_intercalate hc with hsep | ⟨elem, helem, hc⟩
  · exact hdot (List.mem_singleton.mp hsep)
  · obtain ⟨n, -, rfl⟩ := List.mem_map.mp helem
    exact Text.notMem_strInt hdigit hsign n hc

/-- A branch may have negative components. -/
theorem located_printed (hrelease : version.object.release.Nonnegative)
    (hbuild : version.object.buildRelease.Nonnegative)
    (htimestr : version.object.branch = none → ∀ timestr, version.object.timestr = some timestr →
      '-' ∉ timestr) : version.printed.Located := by
  have hrelease := (init_str version.release hrelease).2
  have hbuild := (init_str version.buildRelease hbuild).2
  have hprinted : ∀ c, c.isDigit = false → c ≠ '.' → c ≠ ',' →
      c ∉ version.object.release.str ++ piece ',' (some version.object.buildRelease.str) := by
    intro c hdigit hdot hcomma
    rw [List.mem_append, not_or]
    refine ⟨notMem_dotted hrelease hdigit hdot, notMem_piece hcomma fun text htext ↦ ?_⟩
    exact Option.some.inj htext ▸ notMem_dotted hbuild hdigit hdot
  refine ⟨notMem_dotted hrelease (by decide) (by decide), fun hnone ↦ (nomatch hnone),
    hprinted '-' (by decide) (by decide) (by decide), fun hnone ↦ ?_, ?_⟩
  · exact notMem_piece (by decide) (htimestr (by simpa [printed] using hnone))
  · rw [List.mem_append, not_or]
    refine ⟨hprinted ':' (by decide) (by decide) (by decide),
      notMem_piece (by decide) fun text htext ↦ ?_⟩
    obtain ⟨branch, hpresent, rfl⟩ := Option.map_eq_some_iff.mp htext
    exact notMem_str (version.branch branch hpresent) (by decide) (by decide) (by decide)

theorem reads_printed (h : version.Nonnegative) (buildString : Option (List Char)) :
    Reads version.printed buildString version.object := by
  refine ⟨version.version, (init_str version.release h.release).1, ?_, ⟨_, rfl,
    (init_str version.buildRelease h.buildRelease).1⟩, rfl, ?_⟩
  · rw [printed]
    cases hbranch : version.object.branch with
    | none => rfl
    | some branch =>
      rw [Option.map_some, readOptional,
        (init_str (version.branch branch hbranch) (h.branch branch hbranch)).1]
      rfl
  · rw [printed]
    cases htimestr : version.object.timestr with
    | none => rfl
    | some timestr => exact version.timestr timestr htimestr

/-- A version without negative components is read back from its text, if the time cannot be taken
for a branch. -/
theorem readVersion_str (h : version.Nonnegative)
    (htimestr : version.object.branch = none → ∀ timestr, version.object.timestr = some timestr →
      '-' ∉ timestr) (buildString : Option (List Char)) :
    readVersion version.object.str buildString = some version.object := by
  rw [str_printed]
  exact readVersion_of_reads (located_printed h.release h.buildRelease htimestr)
    (reads_printed h buildString)

end PlainVersion

theorem readOptional_some {dotstring : Option (List Char)} {ds : DotObject}
    (h : readOptional dotstring = .ok (some ds)) :
    ∃ text, dotstring = some text ∧ DotObject.init .dotSequence text = .ok ds := by
  cases dotstring with
  | none => cases h
  | some text =>
    rw [readOptional] at h
    cases hread : DotObject.init .dotSequence text with
    | error error =>
      rw [hread] at h
      cases h
    | ok found =>
      rw [hread] at h
      cases h
      exact ⟨text, rfl, hread⟩

theorem readOptional_none {dotstring : Option (List Char)}
    (h : readOptional dotstring = .ok none) : dotstring = none := by
  cases dotstring with
  | none => rfl
  | some text =>
    rw [readOptional] at h
    cases hread : DotObject.init .dotSequence text <;> rw [hread] at h <;> cases h

/-- What the constructor makes of pieces is a plain version. -/
def PlainVersion.ofReads {version : VersionObject} (h : Reads texts buildString version) :
    PlainVersion where
  object := version
  version := h.cls
  release := DotObject.cls_of_init h.release
  buildRelease := by
    obtain ⟨build, -, hread⟩ := h.buildRelease
    exact DotObject.cls_of_init hread
  branch := by
    intro branch hbranch
    have hread := h.branch
    rw [show version.branch = some branch from hbranch] at hread
    obtain ⟨text, -, hinit⟩ := readOptional_some hread
    exact DotObject.cls_of_init hinit
  timestr := by
    intro timestr htimestr
    have hvalid := h.valid
    rw [← h.timestr, show version.timestr = some timestr from htimestr] at hvalid
    exact hvalid

/-! ### Documented texts are canonical -/

section Documented

variable {version : VersionObject}
  (hform : OfForm (Dotted Decimal) (fun timestr ↦ validTimestr timestr = true) texts buildString)
  (hreads : Reads texts buildString version)
include hform

/-- The sequences of a documented text are printed as they are written. -/
theorem printed_of_documented : (PlainVersion.ofReads hreads).Nonnegative ∧
    (PlainVersion.ofReads hreads).printed =
      { texts with buildRelease := texts.buildRelease.or buildString } := by
  obtain ⟨hrelease, ⟨build, hbuild, hdotted⟩, hbranch, -⟩ := hform
  obtain ⟨build', hbuild', hread⟩ := hreads.buildRelease
  obtain rfl : build = build' := Option.some.inj (hbuild.symm.trans hbuild')
  have hfirst := str_of_init hrelease hreads.release
  have hsecond := str_of_init hdotted hread
  have hthird : ∀ branch, version.branch = some branch →
      texts.branch = some branch.str ∧ branch.Nonnegative := by
    intro branch hpresent
    have hoptional := hreads.branch
    rw [hpresent] at hoptional
    obtain ⟨text, htext, hinit⟩ := readOptional_some hoptional
    obtain ⟨hstr, hnonnegative⟩ := str_of_init (hbranch text htext) hinit
    exact ⟨by rw [htext, hstr], hnonnegative⟩
  refine ⟨⟨hfirst.2, hsecond.2, fun branch hpresent ↦ (hthird branch hpresent).2⟩, ?_⟩
  rw [PlainVersion.printed, hbuild]
  have hbranches : version.branch.map DotObject.str = texts.branch := by
    cases hpresent : version.branch with
    | none =>
      have hoptional := hreads.branch
      rw [hpresent] at hoptional
      exact (readOptional_none hoptional).symm
    | some branch => exact (hthird branch hpresent).1.symm
  show VersionTexts.mk version.release.str (some version.buildRelease.str)
    (version.branch.map DotObject.str) version.timestr = _
  rw [hfirst.1, hsecond.1, hbranches, hreads.timestr]

include hreads in
/-- A version read from a documented text is read back from its own text. -/
theorem reread_of_documented (other : Option (List Char)) :
    readVersion version.str other = some version := by
  obtain ⟨hnonnegative, -⟩ := printed_of_documented hform hreads
  refine PlainVersion.readVersion_str hnonnegative ?_ other
  intro _ timestr htimestr
  have hpresent : texts.timestr = some timestr := hreads.timestr.symm.trans htimestr
  exact notMem_timestr (hform.2.2.2 timestr hpresent) (by decide) (by decide) (by decide)

end Documented

/-! ### Canonical texts -/

/-- The constructor accepts the documented texts only, and a version that was read is read back from
its text, with the same build release. -/
structure Canonical (versionString : List Char) (buildString : Option (List Char)) : Prop where
  accepts : (readVersion versionString buildString).isSome ↔ Documented versionString buildString
  reread : ∀ version, readVersion versionString buildString = some version →
    ∃ again, readVersion version.str none = some again ∧ again.eq version = true ∧
      again.buildRelease.eq version.buildRelease = true

/-- The text has every component. -/
def FullySpecified (versionString : List Char) : Prop :=
  ∃ texts : VersionTexts, versionTexts versionString = .ok texts ∧ texts.buildRelease.isSome ∧
    texts.branch.isSome ∧ texts.timestr.isSome

/-- Two texts with every component denote two versions, unless they are the same. -/
def Distinct (versionString versionString' : List Char)
    (buildString buildString' : Option (List Char)) : Prop :=
  ∀ version version', readVersion versionString buildString = some version →
    readVersion versionString' buildString' = some version' →
    FullySpecified versionString → FullySpecified versionString' → versionString ≠ versionString' →
    ¬ (version.eq version' = true ∧ version.buildRelease.eq version'.buildRelease = true)

/-- The pieces of a documented text are the ones that are read. -/
theorem reads_of_documented {version : VersionObject}
    (hform : OfForm (Dotted Decimal) (fun timestr ↦ validTimestr timestr = true) texts buildString)
    (h : readVersion texts.str buildString = some version) : Reads texts buildString version := by
  obtain ⟨found, hfound, hreads⟩ := readVersion_iff.mp h
  rw [versionTexts_str (located_of_documented hform) (ne_nil_of_dotted hform.1)] at hfound
  rwa [Except.ok.inj hfound]

theorem PlainVersion.eq_self (version : PlainVersion) :
    version.object.eq version.object = true ∧
      version.object.buildRelease.eq version.object.buildRelease = true :=
  ⟨eq_iff.mpr rfl, (eq_iff_key version.buildRelease version.buildRelease).mpr rfl⟩

/-- Versions that are equal, with the same build release, are printed alike. -/
theorem PlainVersion.printed_eq {a b : PlainVersion} (h : a.object.eq b.object = true)
    (hbuild : a.object.buildRelease.eq b.object.buildRelease = true) : a.printed = b.printed := by
  obtain ⟨hrelease, hbranch, htimestr⟩ := parts_of_key_eq (eq_iff.mp h)
  rw [eq_iff_key a.buildRelease b.buildRelease, DotObject.key_eq_iff] at hbuild
  have hstr : ∀ version : PlainVersion, version.object.branch.map DotObject.str =
      (version.object.branch.map DotObject.parts).map fun parts ↦
        ['.'].intercalate (parts.map Part.str) := fun version ↦ by
    rw [Option.map_map]
    rfl
  rw [printed, printed, hstr a, hstr b, hbranch, htimestr, DotObject.str, DotObject.str, hrelease,
    DotObject.str, DotObject.str, hbuild]

theorem canonical_iff :
    Canonical versionString buildString ↔
      (Readable versionString buildString → Documented versionString buildString) := by
  rw [← readVersion_isSome_iff, ← Option.isSome_iff_exists]
  constructor
  · exact fun h hreadable ↦ h.accepts.mp hreadable
  · intro h
    refine ⟨⟨h, fun hdocumented ↦ ?_⟩, fun version hversion ↦ ?_⟩
    · rw [Option.isSome_iff_exists, readVersion_isSome_iff]
      exact hdocumented.readable
    · obtain ⟨texts, rfl, hform⟩ := h (by rw [hversion]; rfl)
      have hreads := reads_of_documented hform hversion
      exact ⟨version, reread_of_documented hform hreads none, (PlainVersion.ofReads hreads).eq_self⟩

/-- Documented texts with every component denote different versions, unless they are the same. -/
theorem distinct_of_documented {versionString' : List Char} {buildString' : Option (List Char)}
    (h : Readable versionString buildString → Documented versionString buildString)
    (h' : Readable versionString' buildString' → Documented versionString' buildString') :
    Distinct versionString versionString' buildString buildString' := by
  intro version version' hversion hversion' hspecified hspecified' hne
  rintro ⟨heq, hbuild⟩
  obtain ⟨texts, rfl, hform⟩ := h (readVersion_isSome_iff.mp ⟨version, hversion⟩)
  obtain ⟨texts', rfl, hform'⟩ := h' (readVersion_isSome_iff.mp ⟨version', hversion'⟩)
  have hreads := reads_of_documented hform hversion
  have hreads' := reads_of_documented hform' hversion'
  have hprinted : ∀ {texts : VersionTexts} {buildString : Option (List Char)},
      OfForm (Dotted Decimal) (fun timestr ↦ validTimestr timestr = true) texts buildString →
      FullySpecified texts.str →
      ({ texts with buildRelease := texts.buildRelease.or buildString } :
          VersionTexts) = texts := by
    rintro texts buildString hform ⟨found, hfound, hbuild, -⟩
    rw [versionTexts_str (located_of_documented hform) (ne_nil_of_dotted hform.1)] at hfound
    obtain rfl := Except.ok.inj hfound
    obtain ⟨build, hpresent⟩ := Option.isSome_iff_exists.mp hbuild
    rw [hpresent, Option.some_or, ← hpresent]
  have hsame : (PlainVersion.ofReads hreads).printed = (PlainVersion.ofReads hreads').printed :=
    PlainVersion.printed_eq heq hbuild
  rw [(printed_of_documented hform hreads).2, (printed_of_documented hform' hreads').2,
    hprinted hform hspecified, hprinted hform' hspecified'] at hsame
  exact hne (by rw [hsame])

/-- Two texts are accepted, read back and told apart as documented exactly if neither of them has
the form of a version but for numbers or a time that only `int` reads. -/
theorem canonical_and_distinct_iff (versionString versionString' : List Char)
    (buildString buildString' : Option (List Char)) :
    (Canonical versionString buildString ∧ Canonical versionString' buildString' ∧
      Distinct versionString versionString' buildString buildString') ↔
    ((Readable versionString buildString → Documented versionString buildString) ∧
      (Readable versionString' buildString' → Documented versionString' buildString')) := by
  rw [canonical_iff, canonical_iff]
  exact ⟨fun h ↦ ⟨h.1, h.2.1⟩, fun h ↦ ⟨h.1, h.2, distinct_of_documented h.1 h.2⟩⟩

/-- A documented text holds digits and separators only. -/
theorem notMem_of_documented (h : Documented versionString buildString) {c : Char}
    (hdigit : c.isDigit = false) (hc : c ∉ ['.', ',', '-', ':', 'T', 'Z']) : c ∉ versionString := by
  obtain ⟨texts, rfl, hrelease, ⟨build, hbuild, hform⟩, hbranch, htimestr⟩ := h
  simp only [List.mem_cons, List.not_mem_nil, or_false, not_or] at hc
  obtain ⟨hdot, hcomma, hdash, hcolon, hT, hZ⟩ := hc
  rw [VersionTexts.str, List.mem_append, List.mem_append, List.mem_append, not_or, not_or, not_or]
  refine ⟨⟨⟨notMem_dotted hrelease hdigit hdot, notMem_piece hcomma fun text htext ↦ ?_⟩,
    notMem_piece hdash fun text htext ↦ notMem_dotted (hbranch text htext) hdigit hdot⟩,
    notMem_piece hcolon fun text htext ↦ notMem_timestr (htimestr text htext) hdigit hT hZ⟩
  rw [htext, Option.some_or] at hbuild
  rw [Option.some.inj hbuild]
  exact notMem_dotted hform hdigit hdot

/-! ### Versions that are read back -/

/-- A sequence that is read from a text without `-` has no negative components. -/
theorem nonnegative_of_init {dotstring : List Char} {ds : DotObject}
    (h : DotObject.init .dotSequence dotstring = .ok ds) (hsign : '-' ∉ dotstring) :
    ds.Nonnegative := by
  obtain ⟨-, numbers, hnumbers, hparts⟩ := init_iff.mp h
  intro n hn
  rw [hparts] at hn
  obtain ⟨m, hm, heq⟩ := List.mem_map.mp hn
  obtain rfl := Part.num.inj heq
  obtain ⟨elem, helem, hread⟩ := (Library.Traverse.mem_mapM hnumbers m).mp hm
  exact (int_spec (dotsequenceVal_iff.mp hread).1).2 fun hmem ↦
    hsign ((Library.of_mem_splitOn helem).2 hmem)

section Reread

variable {version : VersionObject} (hlocated : texts.Located)
  (hreads : Reads texts buildString version)
include hlocated hreads

/-- The release, and a build release in the text, have no negative components. -/
theorem nonnegative_of_located : version.release.Nonnegative ∧
    (texts.buildRelease.isSome → version.buildRelease.Nonnegative) := by
  have hdash := hlocated.dash
  rw [List.mem_append, not_or] at hdash
  refine ⟨nonnegative_of_init hreads.release hdash.1, fun hbuild ↦ ?_⟩
  obtain ⟨build, hpresent⟩ := Option.isSome_iff_exists.mp hbuild
  obtain ⟨found, hfound, hread⟩ := hreads.buildRelease
  rw [hpresent, Option.some_or, Option.some.injEq] at hfound
  subst hfound
  refine nonnegative_of_init hread fun hmem ↦ hdash.2 ?_
  rw [hpresent, piece]
  exact List.mem_cons_of_mem _ hmem

/-- A time that could be taken for a branch stands behind a branch. -/
theorem notMem_timestr_of_located (hbranch : version.branch = none) {timestr : List Char}
    (htimestr : version.timestr = some timestr) : '-' ∉ timestr := by
  have hread := hreads.branch
  rw [hbranch] at hread
  have hdash := hlocated.dash_after (readOptional_none hread)
  rw [← hreads.timestr, htimestr, piece] at hdash
  exact fun hmem ↦ hdash (List.mem_cons_of_mem _ hmem)

omit hlocated in
/-- A branch is read from its own text only without negative components. -/
theorem nonnegative_branch (hprinted : (PlainVersion.ofReads hreads).printed.Located)
    {again : VersionObject} (hagain : readVersion version.str none = some again)
    {branch : DotObject} (hbranch : version.branch = some branch) : branch.Nonnegative := by
  obtain ⟨found, hfound, hform⟩ := readVersion_iff.mp hagain
  have hstr : version.str = (PlainVersion.ofReads hreads).printed.str :=
    (PlainVersion.ofReads hreads).str_printed
  rw [hstr, versionTexts_str hprinted (str_ne_nil (PlainVersion.ofReads hreads).release)] at hfound
  obtain rfl := Except.ok.inj hfound
  refine nonnegative_of_str ((PlainVersion.ofReads hreads).branch branch hbranch) ?_
  exact readOptional_iff.mp ⟨_, hform.branch⟩ _ (by
    show version.branch.map DotObject.str = some branch.str
    rw [hbranch, Option.map_some])

/-- A version is read back from its text exactly if no component is negative. -/
theorem reread_iff :
    (∃ again, readVersion version.str none = some again ∧ again.cmp version = .eq) ↔
    (PlainVersion.ofReads hreads).Nonnegative := by
  constructor
  · rintro ⟨again, hagain, hcmp⟩
    obtain ⟨found, hstr, hfound, hform⟩ := reads_of_readVersion hagain
    have hbuild : found.buildRelease.isSome := by
      obtain ⟨build, hbuild, -⟩ := hform.buildRelease
      rw [Option.or_none] at hbuild
      rw [hbuild]
      rfl
    have hkey : (PlainVersion.ofReads hform).fullKey = (PlainVersion.ofReads hreads).fullKey :=
      PlainVersion.cmpEq_iff.mp hcmp
    simp only [PlainVersion.fullKey, toLex_inj, Prod.mk.injEq, DotObject.key_eq_iff] at hkey
    obtain ⟨hparts, hbuildParts⟩ := hkey
    have hrelease : version.release.Nonnegative := fun n hn ↦
      (nonnegative_of_located hfound hform).1 n (by
        rw [show again.release.parts = version.release.parts from
          (PlainVersion.parts_of_key_eq hparts).1]
        exact hn)
    have hbuildRelease : version.buildRelease.Nonnegative := fun n hn ↦
      (nonnegative_of_located hfound hform).2 hbuild n (by
        rw [show again.buildRelease.parts = version.buildRelease.parts from hbuildParts]
        exact hn)
    refine ⟨hrelease, hbuildRelease, fun branch hbranch ↦
      nonnegative_branch hreads ?_ hagain hbranch⟩
    exact PlainVersion.located_printed hrelease hbuildRelease fun hnone timestr htimestr ↦
      notMem_timestr_of_located hlocated hreads hnone htimestr
  · intro h
    refine ⟨version, PlainVersion.readVersion_str h (fun hnone timestr htimestr ↦
      notMem_timestr_of_located hlocated hreads hnone htimestr) none, ?_⟩
    have hself : (PlainVersion.ofReads hreads).object.cmp
        (PlainVersion.ofReads hreads).object = .eq :=
      PlainVersion.cmpEq_iff.mpr rfl
    exact hself

end Reread

/-- `+1,1` is accepted. -/
theorem not_canonical_sign :
    ¬ ∀ versionString buildString, Canonical versionString buildString := by
  intro h
  have hdocumented := (h "+1,1".toList none).accepts.mp (by decide +kernel)
  exact notMem_of_documented hdocumented (c := '+') (by decide) (by decide) (by decide)

end Userland.Pkg.Flyweight
