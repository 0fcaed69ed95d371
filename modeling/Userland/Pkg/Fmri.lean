import Userland.Library.Separated
import Userland.Pkg.Text
import Userland.Pkg.Version

/-!
# Package names with a publisher and a version

`pkg/fmri.py`. An FMRI names a package, and optionally its publisher and its version. Its text is
`pkg://publisher/name@version`; `PkgFmri.ofString` is the constructor, and what it takes, the one of
`Userland.Pkg.Versions` takes too (`readFmri_of_ofString`). FMRIs compare by publisher, name and
version: `PkgFmri.cmp` is the order of `PkgFmri.sortKey` (`PkgFmri.cmp_eq_lt_iff`).

A missing version is below every version (`versionCmp`), as `None` is in the source.
-/

set_option autoImplicit false
set_option relaxedAutoImplicit false

namespace Userland.Pkg

/-- `PkgFmri`. -/
structure PkgFmri where
  publisher : Option String
  pkgName : String
  version : Option Version
deriving DecidableEq

namespace PkgFmri

/-- The package `pkg://publisher/name@release,5.11`. -/
def plain (publisher name : String) (release : ℕ) : PkgFmri :=
  ⟨some publisher, name, some ⟨⟨[release], List.cons_ne_nil _ _⟩,
    ⟨[5, 11], List.cons_ne_nil _ _⟩, none, none⟩⟩

/-! ### Reading a text -/

/-- One segment of a package name: a letter or a digit, then letters, digits and `_-.+`. -/
def validNameSegment : List Char → Bool
  | [] => false
  | first :: rest =>
    first.isAlphanum && rest.all fun c ↦ c.isAlphanum || c ∈ ['_', '-', '.', '+']

/-- `valid_pkg_name`: segments separated by slashes. -/
def validPkgName (name : List Char) : Bool :=
  (name.splitOn '/').all validNameSegment

/-- `gen_fmri_indexes(fmri)`: where the version separator is, and where the name starts; `none` if a
publisher is not followed by a slash. -/
def genFmriIndexes (fmri : List Char) : Option (Option ℕ × ℕ) :=
  let veridx := (fmri.reverse.idxOf? '@').map fun idx ↦ fmri.length - 1 - idx
  if "pkg://".toList.isPrefixOf fmri then
    ((fmri.drop 6).idxOf? '/').map fun idx ↦ (veridx, idx + 7)
  else if "pkg:/".toList.isPrefixOf fmri then some (veridx, 5)
  else some (veridx, 0)

/-- `PkgFmri(fmri, build_release, publisher)`; `none` is `IllegalFmri`. -/
def ofString (fmri : String) (buildRelease : Option String) (publisher : Option String) :
    Option PkgFmri := do
  let fmri := fmri.toList.rdropWhile Text.isSpace
  let (veridx, nameidx) ← genFmriIndexes fmri
  let version ← match veridx with
    | none => some none
    | some veridx =>
      let text := fmri.drop (veridx + 1)
      if text = "latest".toList then some none
      else (Version.ofString text (buildRelease.map String.toList)).map some
  let publisher :=
    if "pkg://".toList.isPrefixOf fmri then
      some (String.ofList (Version.slice fmri 6 (some (nameidx - 1))))
    else publisher
  let name := Version.slice fmri nameidx veridx
  if validPkgName name then some ⟨publisher, String.ofList name, version⟩ else none

/-! ### Publishers -/

/-- `get_publisher()`: the publisher without the prefix that marks the preferred one. -/
def getPublisher (fmri : PkgFmri) : Option String :=
  fmri.publisher.map fun publisher ↦
    if "_PRE".toList.isPrefixOf publisher.toList then
      String.ofList (publisher.toList.rtakeWhile (· ≠ '_'))
    else publisher

/-! ### Printing -/

/-- `get_fmri(anarchy=..., include_scheme=...)`: with `anarchy` the publisher is left out. -/
def getFmri (fmri : PkgFmri) (anarchy includeScheme : Bool) : String :=
  let suffix := match fmri.version with
    | none => fmri.pkgName.toList
    | some version => fmri.pkgName.toList ++ '@' :: version.str
  let anonymous := (if includeScheme then "pkg:/".toList else []) ++ suffix
  String.ofList <| match fmri.publisher with
    | none => anonymous
    | some publisher =>
      if publisher = "" ∨ "_PRE".toList.isPrefixOf publisher.toList ∨ anarchy then anonymous
      else (if includeScheme then "pkg://".toList else []) ++ publisher.toList ++ '/' :: suffix

/-- What follows the scheme in a text without publisher. -/
def suffix (fmri : PkgFmri) : List Char :=
  match fmri.version with
  | none => fmri.pkgName.toList
  | some version => fmri.pkgName.toList ++ '@' :: version.str

theorem getFmri_anarchy (fmri : PkgFmri) (includeScheme : Bool) :
    fmri.getFmri true includeScheme =
      String.ofList ((if includeScheme then "pkg:/".toList else []) ++ fmri.suffix) := by
  unfold getFmri suffix
  cases fmri.publisher <;> simp

/-- Without publisher, the texts with scheme are the same exactly when those without scheme are. -/
theorem getFmri_scheme_inj {first second : PkgFmri} :
    first.getFmri true true = second.getFmri true true ↔
      first.getFmri true false = second.getFmri true false := by
  simp [getFmri_anarchy]

variable {name : List Char}

/-- A valid name has only letters, digits and the characters of names. -/
theorem notMem_of_not_nameChar (hvalid : validPkgName name = true) {c : Char}
    (hc : c.isAlphanum = false) (hother : c ∉ ['_', '-', '.', '+', '/']) : c ∉ name := by
  simp only [List.mem_cons, List.not_mem_nil, or_false, not_or] at hother
  intro hmem
  have hsplit : ['/'].intercalate (name.splitOn '/') = name := List.intercalate_splitOn '/'
  rw [← hsplit] at hmem
  obtain ⟨segment, hsegment, hat⟩ :=
    (Library.mem_intercalate hmem).resolve_left fun hslash ↦
      hother.2.2.2.2 (List.mem_singleton.mp hslash)
  have hsegmentValid := List.all_eq_true.mp hvalid segment hsegment
  cases segment with
  | nil => exact absurd hat List.not_mem_nil
  | cons first rest =>
    simp only [validNameSegment, Bool.and_eq_true] at hsegmentValid
    rcases List.mem_cons.mp hat with rfl | hrest
    · rw [hc] at hsegmentValid
      exact absurd hsegmentValid.1 (by decide)
    · have hrestValid := List.all_eq_true.mp hsegmentValid.2 _ hrest
      simp [hc, hother] at hrestValid

/-- No valid name has a version separator in it. -/
theorem notMem_of_validPkgName (hvalid : validPkgName name = true) : '@' ∉ name :=
  notMem_of_not_nameChar hvalid (by decide) (by decide)

/-- A valid name is the part of the text before the version. -/
theorem takeWhile_suffix {fmri : PkgFmri} (hvalid : validPkgName fmri.pkgName.toList = true) :
    fmri.suffix.takeWhile (· ≠ '@') = fmri.pkgName.toList := by
  have hall : ∀ c ∈ fmri.pkgName.toList, decide (c ≠ '@') = true := by
    intro c hc
    exact decide_eq_true fun heq ↦ notMem_of_validPkgName hvalid (heq ▸ hc)
  unfold suffix
  cases fmri.version with
  | none => exact List.takeWhile_eq_self_iff.mpr hall
  | some version =>
    dsimp only
    rw [List.takeWhile_append_of_pos hall, List.takeWhile_cons_of_neg (by decide), List.append_nil]

theorem pkgName_eq_of_getFmri {first second : PkgFmri}
    (hfirst : validPkgName first.pkgName.toList = true)
    (hsecond : validPkgName second.pkgName.toList = true)
    (h : first.getFmri true false = second.getFmri true false) :
    first.pkgName = second.pkgName := by
  have hsuffix : first.suffix = second.suffix := by
    rw [getFmri_anarchy, getFmri_anarchy] at h
    exact String.ofList_injective h
  have hname := congrArg (List.takeWhile (· ≠ '@')) hsuffix
  rw [takeWhile_suffix hfirst, takeWhile_suffix hsecond] at hname
  exact String.toList_injective hname

/-! ### Reading a printed text -/

theorem isPrefixOf_suffix_eq_false (hname : validPkgName name = true)
    (version : List Char) {scheme : List Char} (hcolon : ':' ∈ scheme) (hat : '@' ∉ scheme) :
    scheme.isPrefixOf (name ++ '@' :: version) = false := by
  rw [Bool.eq_false_iff]
  intro hscheme
  obtain ⟨rest, hrest⟩ := List.isPrefixOf_iff_prefix.mp hscheme
  have hname' : ∀ c ∈ name, decide (c ≠ '@') = true := fun c hc ↦ decide_eq_true fun heq ↦
    notMem_of_validPkgName hname (heq ▸ hc)
  have hscheme' : ∀ c ∈ scheme, decide (c ≠ '@') = true := fun c hc ↦ decide_eq_true fun heq ↦
    hat (heq ▸ hc)
  have htake := congrArg (List.takeWhile fun c ↦ decide (c ≠ '@')) hrest
  rw [List.takeWhile_append_of_pos hscheme', List.takeWhile_append_of_pos hname',
    List.takeWhile_cons_of_neg (by decide), List.append_nil] at htake
  exact notMem_of_not_nameChar hname (by decide) (by decide) (htake ▸ List.mem_append_left _ hcolon)

theorem genFmriIndexes_suffix {name version : List Char} (hname : validPkgName name = true)
    (hversion : '@' ∉ version) :
    genFmriIndexes (name ++ '@' :: version) = some (some name.length, 0) := by
  unfold genFmriIndexes
  rw [isPrefixOf_suffix_eq_false hname version (by decide) (by decide),
    isPrefixOf_suffix_eq_false hname version (by decide) (by decide)]
  have hreverse : (name ++ '@' :: version).reverse = version.reverse ++ '@' :: name.reverse := by
    simp
  rw [hreverse, Version.idxOf?_append_cons _ (by simpa using hversion)]
  simp only [Option.map_some, List.length_append, List.length_reverse, List.length_cons,
    Bool.false_eq_true, if_false, Option.some.injEq, Prod.mk.injEq, and_true]
  omega

/-- The text of a name and a version is read as an FMRI of the publisher given beside it. -/
theorem ofString_suffix (hname : validPkgName name = true) (version : Version)
    (buildRelease publisher : Option String) :
    ofString (String.ofList (name ++ '@' :: version.str)) buildRelease publisher =
      some ⟨publisher, String.ofList name, some version⟩ := by
  have hat : '@' ∉ version.str := version.notMem_str_of_ne (by decide) (by decide)
  have hstrip : (name ++ '@' :: version.str).rdropWhile Text.isSpace =
      name ++ '@' :: version.str := by
    rw [List.rdropWhile_eq_self_iff]
    intro hne hlast
    have hmem := List.getLast_mem hne
    generalize (name ++ '@' :: version.str).getLast hne = c at hlast hmem
    have hspace : c ∈ [' ', '\t', '\n', '\r', Char.ofNat 11, Char.ofNat 12] :=
      of_decide_eq_true hlast
    have hboth : ∀ space ∈ [' ', '\t', '\n', '\r', Char.ofNat 11, Char.ofNat 12],
        space.isDigit = false ∧ space.isAlphanum = false ∧
          space ∉ ['.', ',', '-', ':', 'T', 'Z'] ∧ space ∉ ['_', '-', '.', '+', '/'] := by
      intro space hmem
      simp only [List.mem_cons, List.not_mem_nil, or_false] at hmem
      rcases hmem with rfl | rfl | rfl | rfl | rfl | rfl <;> decide
    obtain ⟨hdigit, halphanum, hother, hother'⟩ := hboth c hspace
    have hversion : c ∉ version.str := version.notMem_str_of_ne hdigit hother
    have hname' : c ∉ name := notMem_of_not_nameChar hname halphanum hother'
    rcases List.mem_append.mp hmem with h | h
    · exact hname' h
    · rcases List.mem_cons.mp h with rfl | h
      · exact absurd hlast (by decide)
      · exact hversion h
  have hlatest : version.str ≠ ['l', 'a', 't', 'e', 's', 't'] := by
    intro heq
    have hcomma : ',' ∈ version.str := by simp [Version.str]
    rw [heq] at hcomma
    exact absurd hcomma (by decide)
  have hslice : Version.slice (name ++ '@' :: version.str) 0 (some name.length) = name :=
    Version.slice_head name ('@' :: version.str)
  have hdrop : (name ++ '@' :: version.str).drop (name.length + 1) = version.str := by
    simp [List.drop_append]
  have hpublisher : ¬ ['p', 'k', 'g', ':', '/', '/'] <+: name ++ '@' :: version.str := by
    rw [← List.isPrefixOf_iff_prefix,
      isPrefixOf_suffix_eq_false hname version.str (by decide) (by decide)]
    decide
  simp [ofString, hstrip, genFmriIndexes_suffix hname hat, hdrop, hlatest, Version.ofString_str,
    hslice, hname, hpublisher]

/-! ### Comparisons -/

/-- `cmp(self, other)` on versions that may be `None`. -/
def versionCmp (self other : Option Version) : Ordering :=
  match self, other with
  | none, none => .eq
  | none, some _ => .lt
  | some _, none => .gt
  | some self, some other => self.cmp other

/-- The publisher as the source compares it: `None` is below every name. -/
def publisherKey (fmri : PkgFmri) : WithBot String :=
  fmri.publisher

/-- The version as the source compares it: `None` is below every version. -/
def versionKey (fmri : PkgFmri) :
    WithBot ((List ℕ ×ₗ WithBot (List ℕ) ×ₗ WithBot (List Char)) ×ₗ List ℕ) :=
  fmri.version.map Version.fullKey

/-- What `cmp` compares. -/
def sortKey (fmri : PkgFmri) : WithBot String ×ₗ String ×ₗ
    WithBot ((List ℕ ×ₗ WithBot (List ℕ) ×ₗ WithBot (List Char)) ×ₗ List ℕ) :=
  toLex (fmri.publisherKey, toLex (fmri.pkgName, fmri.versionKey))

/-- `cmp(self, other)`. -/
def cmp (self other : PkgFmri) : Ordering :=
  (compare self.publisherKey other.publisherKey).then <|
    (compare self.pkgName other.pkgName).then <| versionCmp self.version other.version

/-- What `<` compares of two versions that may be `None`. -/
def optionKey (version : Option Version) :
    WithBot (List ℕ ×ₗ WithBot (List ℕ) ×ₗ WithBot (List Char)) :=
  version.map Version.key

theorem versionCmp_eq_lt_iff {self other : PkgFmri} :
    versionCmp self.version other.version = .lt ↔ self.versionKey < other.versionKey := by
  unfold versionKey
  rcases self.version with _ | self <;> rcases other.version with _ | other
  · exact iff_of_false (by simp [versionCmp]) (lt_irrefl _)
  · exact iff_of_true rfl (WithBot.bot_lt_coe _)
  · exact iff_of_false (by simp [versionCmp]) not_lt_bot
  · exact Version.cmp_eq_lt_iff.trans WithBot.coe_lt_coe.symm

theorem cmp_eq_lt_iff {self other : PkgFmri} :
    self.cmp other = .lt ↔ self.sortKey < other.sortKey := by
  simp only [cmp, sortKey, Prod.Lex.toLex_lt_toLex, Ordering.then_eq_lt, compare_lt_iff_lt,
    compare_eq_iff_eq, versionCmp_eq_lt_iff]

end PkgFmri

end Userland.Pkg
