import Userland.Pkg.Fmri
import Userland.Pkg.Versions.Canonical

/-!
# Printing and reading FMRIs

`PkgFmri` of `pkg/fmri.py`, with versions as their constructor accepts them. Printing leaves out an
empty publisher and every publisher with the prefix of the preferred ones, and `copy` reads the
printed text.

An FMRI with a documented name is equal to what its text is read as exactly if its publisher is
printed and found again and its version has no negative component (`reread_iff_printed`). So an
accepted FMRI and its copies round-trip exactly if, besides, the name does not end in a line break
(`roundTrips_iff`).

Scope. Texts are byte strings.
-/

set_option autoImplicit false
set_option relaxedAutoImplicit false

namespace Userland.Pkg.Flyweight

open Version (slice)

/-- A `PkgFmri`. -/
structure FmriObject where
  publisher : Option (List Char)
  pkgName : List Char
  version : Option VersionObject
deriving DecidableEq

/-- `valid_pkg_name.match(name)`: the `$` of the expression also matches before a line break at the
end. -/
def matchesPkgName (name : List Char) : Bool :=
  PkgFmri.validPkgName name || (name.getLast? == some '\n' && PkgFmri.validPkgName name.dropLast)

/-- The part behind the `@`; `none` is `IllegalFmri`. -/
def readVersionPart (buildRelease : Option (List Char)) :
    Option (List Char) → Option (Option VersionObject)
  | none => some none
  | some text =>
    if text = "latest".toList then some none else (readVersion text buildRelease).map some

/-- `PREF_PUB_PFX`. -/
def prefPubPfx : List Char := ['_', 'P', 'R', 'E']

/-- `PkgFmri(fmri, build_release, publisher)`; `none` is `IllegalFmri`. -/
def readFmri (fmri : List Char) (buildRelease publisher : Option (List Char)) :
    Option FmriObject := do
  let fmri := fmri.rdropWhile isSpace
  let (veridx, nameidx) ← PkgFmri.genFmriIndexes fmri
  let version ← readVersionPart buildRelease (veridx.map fun veridx ↦ slice fmri (veridx + 1) none)
  let publisher :=
    if "pkg://".toList.isPrefixOf fmri then some (slice fmri 6 (some (nameidx - 1))) else publisher
  let name := slice fmri nameidx veridx
  if name = [] ∨ !matchesPkgName name then none else some ⟨publisher, name, version⟩

namespace FmriObject

/-- `str(fmri)`. -/
def str (fmri : FmriObject) : List Char :=
  let suffix := fmri.pkgName ++ piece '@' (fmri.version.map VersionObject.str)
  match fmri.publisher with
  | none => "pkg:/".toList ++ suffix
  | some publisher =>
    if publisher = [] ∨ prefPubPfx <+: publisher then "pkg:/".toList ++ suffix
    else "pkg://".toList ++ publisher ++ '/' :: suffix

/-- `copy()`. -/
def copy (fmri : FmriObject) : Option FmriObject :=
  readFmri fmri.str none none

/-- `set_publisher(publisher, preferred)`; `none` is `AttributeError`. -/
def setPublisher (fmri : FmriObject) (publisher : Option (List Char)) (preferred : Bool) :
    Option FmriObject :=
  match preferred, publisher with
  | false, publisher => some { fmri with publisher := publisher }
  | true, none => none
  | true, some publisher =>
    if prefPubPfx <+: publisher then some { fmri with publisher := some publisher }
    else some { fmri with publisher := some (prefPubPfx ++ '_' :: publisher) }

/-- `cmp` of texts that may be `None`. -/
def textCmp (self other : Option (List Char)) : Ordering :=
  if self = other then .eq else if timestrLt self other then .lt else .gt

/-- `cmp` of versions that may be `None`. -/
def versionCmp : Option VersionObject → Option VersionObject → Ordering
  | none, none => .eq
  | none, some _ => .lt
  | some _, none => .gt
  | some self, some other => self.cmp other

/-- `PkgFmri.__cmp__`. -/
def cmp (self other : FmriObject) : Ordering :=
  (textCmp self.publisher other.publisher).then <|
    (textCmp (some self.pkgName) (some other.pkgName)).then <| versionCmp self.version other.version

theorem textCmp_eq_iff {self other : Option (List Char)} :
    textCmp self other = .eq ↔ self = other := by
  unfold textCmp
  split_ifs with heq hlt <;> simp [heq]

theorem cmp_eq_iff {self other : FmriObject} : self.cmp other = .eq ↔
    self.publisher = other.publisher ∧ self.pkgName = other.pkgName ∧
      versionCmp self.version other.version = .eq := by
  rw [cmp, Ordering.then_eq_eq, Ordering.then_eq_eq, textCmp_eq_iff, textCmp_eq_iff,
    Option.some.injEq]

end FmriObject

/-! ### Reading a printed text -/

/-- The text does not end in a blank. -/
def Stripped (text : List Char) : Prop :=
  ∀ hne : text ≠ [], isSpace (text.getLast hne) = false

theorem Stripped.rdropWhile {text : List Char} (h : Stripped text) :
    text.rdropWhile isSpace = text :=
  List.rdropWhile_eq_self_iff.mpr fun hne ↦ by simp [h hne]

theorem Stripped.append {front back : List Char} (hne : back ≠ []) (h : Stripped back) :
    Stripped (front ++ back) := by
  intro hne'
  rw [List.getLast_append_of_ne_nil hne' hne]
  exact h hne

theorem stripped_of_forall {text : List Char} (h : ∀ c ∈ text, isSpace c = false) : Stripped text :=
  fun hne ↦ h _ (List.getLast_mem hne)

section Parts

variable {before name publisher : List Char} {version : Option (List Char)}

/-- The last `@` is the one of the version. -/
theorem veridx_eq (hnone : version = none → '@' ∉ before)
    (hsome : ∀ text, version = some text → '@' ∉ text) :
    ((before ++ piece '@' version).reverse.idxOf? '@').map
      (fun idx ↦ (before ++ piece '@' version).length - 1 - idx) =
        version.map fun _ ↦ before.length := by
  cases version with
  | none =>
    have habsent : (before ++ piece '@' none).reverse.idxOf? '@' = none := by
      rw [List.idxOf?_eq_none_iff]
      simpa [piece] using hnone rfl
    rw [habsent]
    rfl
  | some text =>
    have hreverse : (before ++ piece '@' (some text)).reverse = text.reverse ++ '@' ::
        before.reverse := by
      simp [piece]
    rw [hreverse, Version.idxOf?_append_cons _ (by simpa using hsome text rfl)]
    simp only [Option.map_some, piece, List.length_append, List.length_reverse, List.length_cons,
      Option.some.injEq]
    omega

theorem isPrefixOf_anonymous (hname : ∀ c, (name ++ piece '@' version).head? = some c → c ≠ '/') :
    "pkg://".toList.isPrefixOf ("pkg:/".toList ++ name ++ piece '@' version) = false := by
  rw [Bool.eq_false_iff, ne_eq, List.isPrefixOf_iff_prefix, List.append_assoc]
  rintro ⟨rest, hrest⟩
  refine hname '/' ?_ rfl
  have htail : '/' :: rest = name ++ piece '@' version := by simpa using hrest
  rw [← htail, List.head?_cons]

theorem isPrefixOf_named (after : List Char) :
    "pkg://".toList.isPrefixOf ("pkg://".toList ++ publisher ++ after) = true := by
  rw [List.isPrefixOf_iff_prefix, List.append_assoc]
  exact List.prefix_append _ _

theorem genFmriIndexes_anonymous (hname : ∀ c, (name ++ piece '@' version).head? = some c → c ≠ '/')
    (hnone : version = none → '@' ∉ name) (hsome : ∀ text, version = some text → '@' ∉ text) :
    PkgFmri.genFmriIndexes ("pkg:/".toList ++ name ++ piece '@' version) =
      some (version.map fun _ ↦ ("pkg:/".toList ++ name).length, 5) := by
  have hscheme : "pkg:/".toList.isPrefixOf ("pkg:/".toList ++ name ++ piece '@' version) =
      true := by
    rw [List.isPrefixOf_iff_prefix, List.append_assoc]
    exact List.prefix_append _ _
  unfold PkgFmri.genFmriIndexes
  rw [isPrefixOf_anonymous hname, hscheme, veridx_eq (fun h ↦ by simpa using hnone h) hsome]
  rfl

theorem genFmriIndexes_named {after : List Char} (hpublisher : '/' ∉ publisher)
    (hsplit : "pkg://".toList ++ publisher ++ '/' :: after = before ++ piece '@' version)
    (hnone : version = none → '@' ∉ before) (hsome : ∀ text, version = some text → '@' ∉ text) :
    PkgFmri.genFmriIndexes ("pkg://".toList ++ publisher ++ '/' :: after) =
      some (version.map fun _ ↦ before.length, publisher.length + 7) := by
  have hdrop : ("pkg://".toList ++ publisher ++ '/' :: after).drop 6 =
      publisher ++ '/' :: after := by
    rw [List.append_assoc]
    exact List.drop_left' rfl
  unfold PkgFmri.genFmriIndexes
  rw [isPrefixOf_named, hdrop, Version.idxOf?_append_cons _ hpublisher, hsplit,
    veridx_eq hnone hsome]
  rfl

theorem readFmri_of_indexes {fmri : List Char} {nameidx : ℕ}
    (hfmri : fmri = before ++ piece '@' version) (hstripped : Stripped fmri)
    (hidx : PkgFmri.genFmriIndexes fmri = some (version.map fun _ ↦ before.length, nameidx))
    (buildRelease argument : Option (List Char)) :
    readFmri fmri buildRelease argument = (readVersionPart buildRelease version).bind fun found ↦
      if before.drop nameidx = [] ∨ !matchesPkgName (before.drop nameidx) then none
      else some ⟨if "pkg://".toList.isPrefixOf fmri then some (slice fmri 6 (some (nameidx - 1)))
        else argument, before.drop nameidx, found⟩ := by
  have hversion : (version.map fun _ ↦ before.length).map
      (fun veridx ↦ slice fmri (veridx + 1) none) = version := by
    cases version with
    | none => rfl
    | some text =>
      rw [Option.map_some, Option.map_some, hfmri, piece, Version.slice_tail]
  have hname : slice fmri nameidx (version.map fun _ ↦ before.length) = before.drop nameidx := by
    rw [hfmri]
    refine slice_of_endsAt ?_ nameidx
    cases version with
    | none => exact Or.inr ⟨rfl, rfl⟩
    | some text => exact Or.inl rfl
  unfold readFmri
  simp only [hstripped.rdropWhile, hidx, Option.bind_eq_bind, Option.bind_some, hversion, hname]

/-- What is read from a text without publisher. -/
theorem readFmri_anonymous (hname : ∀ c, (name ++ piece '@' version).head? = some c → c ≠ '/')
    (hnone : version = none → '@' ∉ name) (hsome : ∀ text, version = some text → '@' ∉ text)
    (hstripped : Stripped ("pkg:/".toList ++ name ++ piece '@' version))
    (buildRelease argument : Option (List Char)) :
    readFmri ("pkg:/".toList ++ name ++ piece '@' version) buildRelease argument =
      (readVersionPart buildRelease version).bind fun found ↦
        if name = [] ∨ !matchesPkgName name then none else some ⟨argument, name, found⟩ := by
  rw [readFmri_of_indexes rfl hstripped (genFmriIndexes_anonymous hname hnone hsome),
    isPrefixOf_anonymous hname]
  rfl

theorem named_split (scheme : List Char) :
    scheme ++ publisher ++ '/' :: (name ++ piece '@' version) =
      scheme ++ publisher ++ '/' :: name ++ piece '@' version := by
  simp

/-- What is read from a text with a publisher. -/
theorem readFmri_named (hpublisher : '/' ∉ publisher)
    (hnone : version = none → '@' ∉ publisher ++ '/' :: name)
    (hsome : ∀ text, version = some text → '@' ∉ text)
    (hstripped : Stripped ("pkg://".toList ++ publisher ++ '/' :: (name ++ piece '@' version)))
    (buildRelease argument : Option (List Char)) :
    readFmri ("pkg://".toList ++ publisher ++ '/' :: (name ++ piece '@' version))
    buildRelease argument =
      (readVersionPart buildRelease version).bind fun found ↦
        if name = [] ∨ !matchesPkgName name then none else some ⟨some publisher, name, found⟩ := by
  have hslice : slice ("pkg://".toList ++ publisher ++ '/' :: (name ++ piece '@' version)) 6
      (some (publisher.length + 7 - 1)) = publisher := by
    refine (slice_of_endsAt (Or.inl ?_) 6).trans (List.drop_left' rfl)
    rw [List.length_append]
    show some (publisher.length + 6) = some (6 + publisher.length)
    rw [Nat.add_comm]
  have hdrop : ("pkg://".toList ++ publisher ++ '/' :: name).drop
      (publisher.length + 7) = name := by
    rw [show "pkg://".toList ++ publisher ++ '/' :: name =
      ("pkg://".toList ++ publisher ++ ['/']) ++ name by simp]
    refine List.drop_left' ?_
    rw [List.length_append, List.length_append]
    show 6 + publisher.length + 1 = publisher.length + 7
    omega
  have hidx := genFmriIndexes_named hpublisher (named_split "pkg://".toList) (fun h ↦ by
    rw [List.append_assoc, List.mem_append, not_or]
    exact ⟨by decide, hnone h⟩) hsome
  rw [readFmri_of_indexes (named_split "pkg://".toList) hstripped hidx, isPrefixOf_named,
    hslice, hdrop]
  rfl

end Parts

/-! ### The characters of versions -/

/-- The characters a version may have, in a text that is accepted or in one that is printed. -/
def VersionChar (c : Char) : Prop :=
  IntChar c ∨ c ∈ ['.', ',', ':', 'T', 'Z']

theorem not_versionChar {c : Char} (hspace : isSpace c = false) (hdigit : c.isDigit = false)
    (h : c ∉ ['+', '-', '.', ',', ':', 'T', 'Z']) : ¬ VersionChar c := by
  simp only [List.mem_cons, List.not_mem_nil, or_false, not_or] at h
  rintro ((hc | hc | hc | hc) | hc)
  · exact Bool.false_ne_true (hspace.symm.trans hc)
  · exact Bool.false_ne_true (hdigit.symm.trans hc)
  · exact h.1 hc
  · exact h.2.1 hc
  · simp [h] at hc

theorem validTime_split {timestr : List Char} (h : validTime timestr = true) :
    timestr = timestr.take 8 ++ 'T' :: ((timestr.drop 9).take 6 ++ ['Z']) ∧
      (∃ date, int (timestr.take 8) = some date) ∧ ∃ time,
      int ((timestr.drop 9).take 6) = some time := by
  simp only [validTime, Bool.and_eq_true, beq_iff_eq] at h
  obtain ⟨⟨⟨hlength, heighth⟩, hlast⟩, hfields⟩ := h
  refine ⟨?_, ?_, ?_⟩
  · have h8 : timestr.drop 8 = 'T' :: timestr.drop 9 := by
      obtain ⟨hlt, hget⟩ := List.getElem?_eq_some_iff.mp heighth
      rw [List.drop_eq_getElem_cons hlt, hget]
    have h15 : (timestr.drop 9).drop 6 = ['Z'] := by
      obtain ⟨hlt, hget⟩ := List.getElem?_eq_some_iff.mp hlast
      rw [List.drop_drop, List.drop_eq_getElem_cons hlt, hget,
        List.drop_eq_nil_of_le (by omega)]
    rw [← h15, List.take_append_drop, ← h8, List.take_append_drop]
  · cases hdate : int (timestr.take 8) with
    | none => simp [hdate] at hfields
    | some date => exact ⟨date, rfl⟩
  · cases hdate : int (timestr.take 8) with
    | none => simp [hdate] at hfields
    | some date =>
      cases htime : int ((timestr.drop 9).take 6) with
      | none => simp [hdate, htime] at hfields
      | some time => exact ⟨time, rfl⟩

theorem versionChar_of_validTime {timestr : List Char} (h : validTime timestr = true) {c : Char}
    (hc : c ∈ timestr) : VersionChar c := by
  obtain ⟨hsplit, ⟨date, hdate⟩, time, htime⟩ := validTime_split h
  rw [hsplit, List.mem_append, List.mem_cons, List.mem_append, List.mem_singleton] at hc
  rcases hc with hc | rfl | hc | rfl
  · exact Or.inl ((int_spec hdate).1 c hc)
  · exact Or.inr (by decide)
  · exact Or.inl ((int_spec htime).1 c hc)
  · exact Or.inr (by decide)

theorem stripped_of_validTime {timestr : List Char} (h : validTime timestr = true) :
    Stripped timestr := by
  obtain ⟨hsplit, -⟩ := validTime_split h
  rw [hsplit, ← List.cons_append, ← List.append_assoc]
  refine Stripped.append (by simp) (stripped_of_forall fun c hc ↦ ?_)
  rw [List.mem_singleton.mp hc]
  rfl

theorem versionChar_of_piece {separator : Char} {found : Option (List Char)}
    (hseparator : VersionChar separator) (h : ∀ text, found = some text → ∀ c ∈ text, VersionChar c)
    {c : Char} (hc : c ∈ piece separator found) : VersionChar c := by
  cases found with
  | none => cases hc
  | some text =>
    rcases List.mem_cons.mp hc with rfl | hc
    · exact hseparator
    · exact h text rfl c hc

theorem versionChar_of_tolerated {dotstring : List Char} (h : Dotted Tolerated dotstring) {c : Char}
    (hc : c ∈ dotstring) : VersionChar c := by
  have hjoin : ['.'].intercalate (dotstring.splitOn '.') = dotstring := List.intercalate_splitOn '.'
  rw [← hjoin] at hc
  rcases Library.mem_intercalate hc with hsep | ⟨elem, helem, hc⟩
  · exact Or.inr (by rw [List.mem_singleton.mp hsep]; decide)
  · obtain ⟨x, hx, -⟩ := h elem helem
    exact Or.inl ((int_spec hx).1 c hc)

/-- An accepted text has the characters of versions only. -/
theorem versionChar_of_readVersion {text : List Char} {buildString : Option (List Char)}
    {version : VersionObject} (h : readVersion text buildString = some version) {c : Char}
    (hc : c ∈ text) : VersionChar c := by
  obtain ⟨texts, rfl, -, hrelease, ⟨build, hbuild, hform⟩, hbranch, htimestr⟩ :=
    readVersion_isSome_iff.mp ⟨version, h⟩
  rw [VersionTexts.str, List.mem_append, List.mem_append, List.mem_append] at hc
  rcases hc with ((hc | hc) | hc) | hc
  · exact versionChar_of_tolerated hrelease hc
  · refine versionChar_of_piece (Or.inr (by decide)) (fun text htext c hc ↦ ?_) hc
    rw [htext, Option.some_or, Option.some.injEq] at hbuild
    exact versionChar_of_tolerated hform (hbuild ▸ hc)
  · exact versionChar_of_piece (Or.inl (by unfold IntChar; decide)) (fun text htext c hc ↦
      versionChar_of_tolerated (hbranch text htext) hc) hc
  · exact versionChar_of_piece (Or.inr (by decide)) (fun text htext c hc ↦
      versionChar_of_validTime (htimestr text htext) hc) hc

theorem mem_str {ds : DotObject} (hcls : ds.cls = .dotSequence) {c : Char} (hc : c ∈ ds.str) :
    isSpace c = false ∧ VersionChar c := by
  by_cases hdigit : c.isDigit = true
  · exact ⟨not_isSpace_of_isDigit hdigit, Or.inl (Or.inr (Or.inl hdigit))⟩
  · by_cases hdot : c = '.'
    · subst hdot
      exact ⟨by decide, Or.inr (by decide)⟩
    · by_cases hsign : c = '-'
      · subst hsign
        exact ⟨by decide, Or.inl (Or.inr (Or.inr (Or.inr rfl)))⟩
      · exact absurd hc (PlainVersion.notMem_str hcls (by simpa using hdigit) hdot hsign)

namespace PlainVersion

theorem versionChar_str (version : PlainVersion) {c : Char} (hc : c ∈ version.object.str) :
    VersionChar c := by
  rw [str_printed, VersionTexts.str, List.mem_append, List.mem_append, List.mem_append] at hc
  rcases hc with ((hc | hc) | hc) | hc
  · exact (mem_str version.release hc).2
  · refine versionChar_of_piece (Or.inr (by decide)) (fun text htext c hc ↦ ?_) hc
    exact (mem_str version.buildRelease (Option.some.inj htext ▸ hc)).2
  · refine versionChar_of_piece (Or.inl (Or.inr (Or.inr (Or.inr rfl))))
      (fun text htext c hc ↦ ?_) hc
    obtain ⟨branch, hbranch, rfl⟩ := Option.map_eq_some_iff.mp htext
    exact (mem_str (version.branch branch hbranch) hc).2
  · exact versionChar_of_piece (Or.inr (by decide)) (fun text htext c hc ↦
      versionChar_of_validTime (version.timestr text htext) hc) hc

theorem stripped_str (version : PlainVersion) : Stripped version.object.str := by
  have hsequence : ∀ {ds : DotObject} {separator : Char}, ds.cls = .dotSequence →
      isSpace separator = false → Stripped (separator :: ds.str) := by
    intro ds separator hcls hseparator
    refine stripped_of_forall fun c hc ↦ ?_
    rcases List.mem_cons.mp hc with rfl | hc
    · exact hseparator
    · exact (mem_str hcls hc).1
  rw [str_printed, VersionTexts.str, printed]
  cases htimestr : version.object.timestr with
  | some timestr =>
    have hstripped := stripped_of_validTime (version.timestr timestr htimestr)
    have hne := ne_nil_of_validTime (version.timestr timestr htimestr)
    refine Stripped.append (List.cons_ne_nil _ _) ?_
    have hlast : Stripped ([':'] ++ timestr) := Stripped.append hne hstripped
    exact hlast
  | none =>
    rw [piece, List.append_nil]
    cases hbranch : version.object.branch with
    | some branch =>
      exact Stripped.append (List.cons_ne_nil _ _)
        (hsequence (version.branch branch hbranch) (by decide))
    | none =>
      rw [Option.map_none, piece, List.append_nil]
      exact Stripped.append (List.cons_ne_nil _ _) (hsequence version.buildRelease (by decide))

theorem str_ne_latest (version : PlainVersion) : version.object.str ≠ "latest".toList := by
  intro h
  have hcomma : ',' ∈ version.object.str := by
    rw [str_printed, VersionTexts.str]
    simp [printed, piece]
  rw [h] at hcomma
  exact absurd hcomma (by decide)

end PlainVersion

/-! ### FMRIs that are read back -/

/-- What `PkgFmri` accepts. -/
structure AcceptedFmri where
  text : List Char
  buildRelease : Option (List Char)
  argument : Option (List Char)
  fmri : FmriObject
  accepted : readFmri text buildRelease argument = some fmri

/-- The publisher is printed and found again: it is absent, or neither empty nor preferred, without
a slash, and with an `@` in front of a version only. -/
def FmriObject.PublisherPrinted (fmri : FmriObject) : Prop :=
  ∀ publisher, fmri.publisher = some publisher →
    publisher ≠ [] ∧ ¬ prefPubPfx <+: publisher ∧ '/' ∉ publisher ∧
      ('@' ∈ publisher → fmri.version ≠ none)

/-- No component of the version is negative. -/
def FmriObject.VersionPrinted (fmri : FmriObject) : Prop :=
  ∀ version, fmri.version = some version → version.release.Nonnegative ∧
    version.buildRelease.Nonnegative ∧ ∀ branch, version.branch = some branch → branch.Nonnegative

/-- The FMRI that is read from the text of another one is equal to it. -/
def FmriObject.Reread (fmri : FmriObject) : Prop :=
  ∃ again, readFmri fmri.str none none = some again ∧ again.cmp fmri = .eq

/-- A version that the constructor gave. -/
def FmriObject.VersionRead (fmri : FmriObject) : Prop :=
  ∀ version, fmri.version = some version →
    ∃ text buildString, readVersion text buildString = some version

theorem readVersionPart_some {buildRelease part : Option (List Char)} {version : VersionObject}
    (h : readVersionPart buildRelease part = some (some version)) :
    ∃ text, part = some text ∧ readVersion text buildRelease = some version := by
  cases part with
  | none => cases h
  | some text =>
    rw [readVersionPart] at h
    split_ifs at h
    · cases h
    · obtain ⟨found, hfound, heq⟩ := Option.map_eq_some_iff.mp h
      cases heq
      exact ⟨text, rfl, hfound⟩

theorem AcceptedFmri.spec (accepted : AcceptedFmri) :
    matchesPkgName accepted.fmri.pkgName = true ∧ accepted.fmri.VersionRead := by
  obtain ⟨text, buildRelease, argument, fmri, h⟩ := accepted
  unfold readFmri at h
  obtain ⟨⟨veridx, nameidx⟩, -, h⟩ := Option.bind_eq_some_iff.mp h
  obtain ⟨version, hversion, h⟩ := Option.bind_eq_some_iff.mp h
  dsimp only at h
  split_ifs at h with hbad
  all_goals
    cases h
    simp only [not_or, Bool.not_eq_true', Bool.not_eq_false] at hbad
    refine ⟨hbad.2, fun found hfound ↦ ?_⟩
    subst hfound
    obtain ⟨part, -, hread⟩ := readVersionPart_some hversion
    exact ⟨part, buildRelease, hread⟩

variable {fmri : FmriObject}

theorem exists_plain (hread : fmri.VersionRead) {version : VersionObject}
    (hversion : fmri.version = some version) : ∃ plain : PlainVersion, plain.object = version := by
  obtain ⟨text, buildString, hread⟩ := hread version hversion
  obtain ⟨texts, -, -, hreads⟩ := reads_of_readVersion hread
  exact ⟨.ofReads hreads, rfl⟩

/-- The version is read back from its text exactly if no component is negative. -/
theorem reread_version_iff (hread : fmri.VersionRead) :
    (∃ found, readVersionPart none (fmri.version.map VersionObject.str) = some found ∧
      FmriObject.versionCmp found fmri.version = .eq) ↔ fmri.VersionPrinted := by
  unfold FmriObject.VersionPrinted
  cases hversion : fmri.version with
  | none => simp [readVersionPart, FmriObject.versionCmp]
  | some version =>
    obtain ⟨plain, hplain⟩ := exists_plain hread hversion
    obtain ⟨text, buildString, hread⟩ := hread version hversion
    obtain ⟨texts, -, hlocated, hreads⟩ := reads_of_readVersion hread
    have hlatest : version.str ≠ "latest".toList := hplain ▸ plain.str_ne_latest
    rw [Option.map_some, readVersionPart, if_neg hlatest]
    have hiff := reread_iff hlocated hreads
    constructor
    · rintro ⟨found, hfound, hcmp⟩ other hother
      cases hother
      obtain ⟨again, hagain, rfl⟩ := Option.map_eq_some_iff.mp hfound
      obtain ⟨hrelease, hbuild, hbranch⟩ := hiff.mp ⟨again, hagain, hcmp⟩
      exact ⟨hrelease, hbuild, hbranch⟩
    · intro h
      obtain ⟨hrelease, hbuild, hbranch⟩ := h version rfl
      obtain ⟨again, hagain, hcmp⟩ := hiff.mpr ⟨hrelease, hbuild, hbranch⟩
      exact ⟨some again, by rw [hagain]; rfl, hcmp⟩

section Name

variable (hname : PkgFmri.validPkgName fmri.pkgName = true)
include hname

theorem ne_nil_of_validPkgName : fmri.pkgName ≠ [] := by
  intro hnil
  rw [hnil] at hname
  exact absurd hname (by decide)

theorem accepts_name : ¬ (fmri.pkgName = [] ∨ (!matchesPkgName fmri.pkgName) = true) := by
  simp [ne_nil_of_validPkgName hname, matchesPkgName, hname]

theorem notMem_pkgName {c : Char} (hc : c.isAlphanum = false)
    (hother : c ∉ ['_', '-', '.', '+', '/']) :
    c ∉ fmri.pkgName :=
  PkgFmri.notMem_of_not_nameChar hname hc hother

/-- A name does not begin with a slash. -/
theorem head_ne_slash {after : List Char} {c : Char} (h : (fmri.pkgName ++ after).head? = some c) :
    c ≠ '/' := by
  rintro rfl
  obtain ⟨first, rest, hsplit⟩ := List.exists_cons_of_ne_nil (ne_nil_of_validPkgName hname)
  rw [hsplit, List.cons_append, List.head?_cons, Option.some.injEq] at h
  subst h
  rw [PkgFmri.validPkgName, hsplit, List.splitOn_cons_eq_if_modifyHead] at hname
  simp [PkgFmri.validNameSegment] at hname

theorem stripped_pkgName : Stripped fmri.pkgName := by
  refine stripped_of_forall fun c hc ↦ Bool.eq_false_iff.mpr fun hspace ↦ ?_
  simp only [isSpace, decide_eq_true_eq, List.mem_cons, List.not_mem_nil, or_false] at hspace
  rcases hspace with rfl | rfl | rfl | rfl | rfl | rfl <;>
    exact notMem_pkgName hname (by decide) (by decide) hc

/-- The printed text does not end in a blank. -/
theorem stripped_suffix (hread : fmri.VersionRead) (front : List Char) :
    Stripped (front ++ fmri.pkgName ++ piece '@' (fmri.version.map VersionObject.str)) := by
  cases hversion : fmri.version with
  | none =>
    rw [Option.map_none, piece, List.append_nil]
    exact Stripped.append (ne_nil_of_validPkgName hname) (stripped_pkgName hname)
  | some version =>
    obtain ⟨plain, rfl⟩ := exists_plain hread hversion
    refine Stripped.append (List.cons_ne_nil _ _) ?_
    have hlast : Stripped (['@'] ++ plain.object.str) :=
      Stripped.append (fun hnil ↦ by
        have hcomma : ',' ∈ plain.object.str := by
          rw [plain.str_printed, VersionTexts.str]
          simp [PlainVersion.printed, piece]
        rw [hnil] at hcomma
        cases hcomma) plain.stripped_str
    exact hlast

/-- What is read with a publisher is equal if the publisher and the version are. -/
theorem exists_equal_iff {publisher : Option (List Char)}
    {version : Option (Option VersionObject)} :
    (∃ again, (version.bind fun found ↦
        if fmri.pkgName = [] ∨ !matchesPkgName fmri.pkgName then none
        else some (FmriObject.mk publisher fmri.pkgName found)) = some again ∧
      again.cmp fmri = .eq) ↔
    publisher = fmri.publisher ∧ ∃ found, version = some found ∧
      FmriObject.versionCmp found fmri.version = .eq := by
  simp only [accepts_name hname, if_false, FmriObject.cmp_eq_iff]
  constructor
  · rintro ⟨again, hagain, hpublisher, -, hversion⟩
    obtain ⟨found, hfound, heq⟩ := Option.bind_eq_some_iff.mp hagain
    cases heq
    exact ⟨hpublisher, found, hfound, hversion⟩
  · rintro ⟨hpublisher, found, rfl, hversion⟩
    exact ⟨_, rfl, hpublisher, rfl, hversion⟩

end Name

theorem notMem_version (hread : fmri.VersionRead) {c : Char} (hc : ¬ VersionChar c)
    (text : List Char) (htext : fmri.version.map VersionObject.str = some text) : c ∉ text := by
  obtain ⟨version, hversion, rfl⟩ := Option.map_eq_some_iff.mp htext
  obtain ⟨plain, rfl⟩ := exists_plain hread hversion
  exact fun hmem ↦ hc (plain.versionChar_str hmem)

theorem not_versionChar_at : ¬ VersionChar '@' :=
  not_versionChar (by decide) (by decide) (by decide)

theorem not_versionChar_slash : ¬ VersionChar '/' :=
  not_versionChar (by decide) (by decide) (by decide)

/-- A publisher that is read has no slash. -/
theorem notMem_publisher {text publisher : List Char} {buildRelease argument : Option (List Char)}
    {found : FmriObject} (hstripped : Stripped text)
    (hscheme : "pkg://".toList.isPrefixOf text = true)
    (h : readFmri text buildRelease argument = some found)
    (hpublisher : found.publisher = some publisher) :
    '/' ∉ publisher := by
  unfold readFmri at h
  simp only [hstripped.rdropWhile, PkgFmri.genFmriIndexes, hscheme, if_true] at h
  obtain ⟨⟨veridx, nameidx⟩, hidx, h⟩ := Option.bind_eq_some_iff.mp h
  obtain ⟨idx, hfirst, heq⟩ := Option.map_eq_some_iff.mp hidx
  cases heq
  obtain ⟨version, -, h⟩ := Option.bind_eq_some_iff.mp h
  split_ifs at h
  cases h
  cases hpublisher
  have hmem : '/' ∈ text.drop 6 := by
    by_contra habsent
    rw [List.idxOf?_eq_none_iff.mpr habsent] at hfirst
    cases hfirst
  obtain ⟨front, back, hsplit, hfront⟩ := List.eq_append_cons_of_mem hmem
  rw [hsplit, Version.idxOf?_append_cons _ hfront, Option.some.injEq] at hfirst
  subst hfirst
  rw [show front.length + 7 - 1 = 6 + front.length by omega, slice, List.drop_take]
  simp [hsplit, hfront]

section Named

variable {publisher : List Char}

/-- The text of a name behind a publisher. -/
def namedStr (fmri : FmriObject) (publisher : List Char) : List Char :=
  "pkg://".toList ++ publisher ++ '/' :: (fmri.pkgName ++
    piece '@' (fmri.version.map VersionObject.str))

theorem stripped_namedStr (hname : PkgFmri.validPkgName fmri.pkgName = true)
    (hread : fmri.VersionRead) :
    Stripped (namedStr fmri publisher) := by
  have hsplit : namedStr fmri publisher = "pkg://".toList ++ publisher ++ ['/'] ++ fmri.pkgName ++
      piece '@' (fmri.version.map VersionObject.str) := by
    unfold namedStr
    generalize "pkg://".toList = scheme
    simp
  rw [hsplit]
  exact stripped_suffix hname hread _

theorem readFmri_namedStr (hname : PkgFmri.validPkgName fmri.pkgName = true)
    (hread : fmri.VersionRead) (hslash : '/' ∉ publisher)
    (hnone : fmri.version.map VersionObject.str = none → '@' ∉ publisher ++ '/' :: fmri.pkgName)
    (argument : Option (List Char)) :
    readFmri (namedStr fmri publisher) none argument =
      (readVersionPart none (fmri.version.map VersionObject.str)).bind fun found ↦
        if fmri.pkgName = [] ∨ !matchesPkgName fmri.pkgName then none
        else some ⟨some publisher, fmri.pkgName, found⟩ :=
  readFmri_named hslash hnone (notMem_version hread not_versionChar_at)
    (stripped_namedStr hname hread) none argument

/-- A publisher with an `@` in front of a name alone is taken for a version. -/
theorem readFmri_namedStr_eq_none (hslash : '/' ∉ publisher) (hat : '@' ∈ publisher)
    (hname : PkgFmri.validPkgName fmri.pkgName = true) (hread : fmri.VersionRead)
    (hversion : fmri.version = none) (buildRelease argument : Option (List Char)) :
    readFmri (namedStr fmri publisher) buildRelease argument = none := by
  obtain ⟨back, front, hreverse, hback⟩ := List.eq_append_cons_of_mem (List.mem_reverse.mpr hat)
  have hpublisher : publisher = front.reverse ++ '@' :: back.reverse := by
    have := congrArg List.reverse hreverse
    simpa using this
  have hsplit : namedStr fmri publisher = "pkg://".toList ++ front.reverse ++
      piece '@' (some (back.reverse ++ '/' :: fmri.pkgName)) := by
    unfold namedStr
    rw [hversion, hpublisher]
    generalize "pkg://".toList = scheme
    simp [piece]
  have hname' : '@' ∉ fmri.pkgName := notMem_pkgName hname (by decide) (by decide)
  have hpart : readVersionPart buildRelease (some (back.reverse ++ '/' :: fmri.pkgName)) =
      none := by
    have hmem : '/' ∈ back.reverse ++ '/' :: fmri.pkgName := by simp
    rw [readVersionPart, if_neg fun hlatest ↦ by
      rw [hlatest] at hmem
      exact absurd hmem (by decide), Option.map_eq_none_iff]
    by_contra hfound
    obtain ⟨found, hfound⟩ := Option.ne_none_iff_exists'.mp hfound
    exact not_versionChar_slash (versionChar_of_readVersion hfound hmem)
  have hidx := genFmriIndexes_named hslash hsplit (by simp) (fun text htext ↦ by
    rw [← Option.some.inj htext]
    simpa [hname'] using hback)
  rw [readFmri_of_indexes hsplit (stripped_namedStr hname hread) hidx, hpart]
  rfl

end Named

theorem reread_iff_printed (hname : PkgFmri.validPkgName fmri.pkgName = true)
    (hread : fmri.VersionRead) :
    fmri.Reread ↔ fmri.PublisherPrinted ∧ fmri.VersionPrinted := by
  rw [← reread_version_iff hread]
  have hsome := notMem_version hread not_versionChar_at
  have hat : '@' ∉ fmri.pkgName := notMem_pkgName hname (by decide) (by decide)
  have hanonymous : (∃ again, readFmri ("pkg:/".toList ++ (fmri.pkgName ++
      piece '@' (fmri.version.map VersionObject.str))) none none = some again ∧
        again.cmp fmri = .eq) ↔ none = fmri.publisher ∧
      ∃ found, readVersionPart none (fmri.version.map VersionObject.str) = some found ∧
        FmriObject.versionCmp found fmri.version = .eq := by
    rw [← List.append_assoc, readFmri_anonymous (fun c hc ↦ head_ne_slash hname hc)
      (fun _ ↦ hat) hsome
      (stripped_suffix hname hread _), exists_equal_iff hname]
  unfold FmriObject.Reread FmriObject.PublisherPrinted FmriObject.str
  cases hpublisher : fmri.publisher with
  | none =>
    dsimp only
    rw [hanonymous, hpublisher]
    simp
  | some publisher =>
    rw [hpublisher] at hanonymous
    dsimp only
    by_cases hdropped : publisher = [] ∨ prefPubPfx <+: publisher
    · rw [if_pos hdropped, hanonymous]
      refine iff_of_false (by simp) fun h ↦ ?_
      obtain ⟨hne, hbegins, -⟩ := h.1 publisher rfl
      exact hdropped.elim hne hbegins
    · rw [if_neg hdropped]
      rw [← namedStr]
      have hstripped : Stripped (namedStr fmri publisher) := stripped_namedStr hname hread
      have hscheme : "pkg://".toList.isPrefixOf (namedStr fmri publisher) = true := by
        exact isPrefixOf_named _
      by_cases hslash : '/' ∈ publisher
      · refine iff_of_false ?_ fun h ↦ (h.1 publisher rfl).2.2.1 hslash
        rintro ⟨again, hagain, hcmp⟩
        have hsame := (FmriObject.cmp_eq_iff.mp hcmp).1
        rw [hpublisher] at hsame
        exact notMem_publisher hstripped hscheme hagain hsame hslash
      · by_cases hlost : '@' ∈ publisher ∧ fmri.version = none
        · refine iff_of_false ?_ fun h ↦ (h.1 publisher rfl).2.2.2 hlost.1 hlost.2
          rw [readFmri_namedStr_eq_none hslash hlost.1 hname hread hlost.2]
          rintro ⟨again, hagain, -⟩
          cases hagain
        · have hnone : fmri.version.map VersionObject.str = none →
              '@' ∉ publisher ++ '/' :: fmri.pkgName := by
            intro hversion
            rw [Option.map_eq_none_iff] at hversion
            rw [List.mem_append, List.mem_cons, not_or, not_or]
            exact ⟨fun hmem ↦ hlost ⟨hmem, hversion⟩, by decide, hat⟩
          rw [readFmri_namedStr hname hread hslash hnone none]
          refine (exists_equal_iff hname).trans (and_congr_left fun _ ↦
            iff_of_true hpublisher.symm ?_)
          intro other hother
          cases hother
          exact ⟨fun hnil ↦ hdropped (Or.inl hnil), fun hbegins ↦ hdropped (Or.inr hbegins), hslash,
            fun hmem hversion ↦ hlost ⟨hmem, hversion⟩⟩

/-! ### Round trips -/

/-- The name is a documented one, and the FMRI and its copy under another publisher are equal to
what their texts are read as. -/
structure RoundTrips (fmri : FmriObject) (publisher : Option (List Char)) (preferred : Bool) :
    Prop where
  name : PkgFmri.validPkgName fmri.pkgName = true
  reread : fmri.Reread
  copy : ∀ stored, fmri.setPublisher publisher preferred = some stored →
    ∃ again, stored.copy = some again ∧ again.cmp stored = .eq

theorem setPublisher_spec {stored : FmriObject} {publisher : Option (List Char)} {preferred : Bool}
    (h : fmri.setPublisher publisher preferred = some stored) :
    stored.pkgName = fmri.pkgName ∧ stored.version = fmri.version := by
  unfold FmriObject.setPublisher at h
  split at h
  · cases h
    exact ⟨rfl, rfl⟩
  · cases h
  · split_ifs at h <;> cases h <;> exact ⟨rfl, rfl⟩

/-- A name that is accepted is a documented one, unless it ends in a line break. -/
theorem validPkgName_iff {name : List Char} (h : matchesPkgName name = true) :
    PkgFmri.validPkgName name = true ↔ name.getLast? ≠ some '\n' := by
  constructor
  · intro hvalid hlast
    exact PkgFmri.notMem_of_not_nameChar hvalid (by decide) (by decide) (List.mem_of_getLast? hlast)
  · intro hlast
    simpa [matchesPkgName, hlast] using h

/-- An accepted FMRI has a documented name, is read back from its text and is equal to its copy
under a publisher, exactly if its name does not end in a line break, its version has no negative
component, and both publishers are printed. -/
theorem roundTrips_iff (accepted : AcceptedFmri) (publisher : Option (List Char))
    (preferred : Bool) :
    RoundTrips accepted.fmri publisher preferred ↔
      accepted.fmri.pkgName.getLast? ≠ some '\n' ∧ accepted.fmri.VersionPrinted ∧
        accepted.fmri.PublisherPrinted ∧
        ∀ stored, accepted.fmri.setPublisher publisher preferred = some stored →
          stored.PublisherPrinted := by
  obtain ⟨hmatches, hread⟩ := accepted.spec
  rw [← validPkgName_iff hmatches]
  have hstored : ∀ stored, accepted.fmri.setPublisher publisher preferred = some stored →
      PkgFmri.validPkgName accepted.fmri.pkgName = true →
      (stored.Reread ↔ stored.PublisherPrinted ∧ accepted.fmri.VersionPrinted) := by
    intro stored hset hname
    obtain ⟨hsameName, hsameVersion⟩ := setPublisher_spec hset
    have hsame : stored.VersionRead ↔ accepted.fmri.VersionRead := by
      rw [FmriObject.VersionRead, FmriObject.VersionRead, hsameVersion]
    rw [reread_iff_printed (hsameName ▸ hname) (hsame.mpr hread), FmriObject.VersionPrinted,
      hsameVersion, FmriObject.VersionPrinted]
  constructor
  · rintro ⟨hname, hreread, hcopy⟩
    obtain ⟨hpublisher, hversion⟩ := (reread_iff_printed hname hread).mp hreread
    exact ⟨hname, hversion, hpublisher, fun stored hset ↦
      ((hstored stored hset hname).mp (hcopy stored hset)).1⟩
  · rintro ⟨hname, hversion, hpublisher, hstoredPublisher⟩
    exact ⟨hname, (reread_iff_printed hname hread).mpr ⟨hpublisher, hversion⟩, fun stored hset ↦
      (hstored stored hset hname).mpr ⟨hstoredPublisher stored hset, hversion⟩⟩

/-- The FMRI `pkg:/n`. -/
def acceptedName : AcceptedFmri :=
  ⟨['n'], none, none, ⟨none, ['n'], none⟩, by decide +kernel⟩

/-- The copy of an FMRI of a preferred publisher has no publisher. -/
theorem not_roundTrips_preferred : ¬ ∀ (accepted : AcceptedFmri) publisher preferred,
    RoundTrips accepted.fmri publisher preferred := by
  intro h
  obtain ⟨hname, -, hcopy⟩ := h acceptedName (some ['p']) true
  have hreread : FmriObject.Reread ⟨some (prefPubPfx ++ ['_', 'p']), ['n'], none⟩ :=
    hcopy _ (by decide)
  have hiff : FmriObject.Reread ⟨some (prefPubPfx ++ ['_', 'p']), ['n'], none⟩ ↔ _ :=
    reread_iff_printed hname fun _ hversion ↦ (nomatch hversion)
  exact ((hiff.mp hreread).1 _ rfl).2.1 (List.prefix_append _ _)

end Userland.Pkg.Flyweight
