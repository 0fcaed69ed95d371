import Userland.Library.Separated
import Userland.Library.Traverse
import Userland.Pkg.Numeral
import Userland.Pkg.Versions.Pieces

/-!
# The grammar of versions

A version is documented as `release[,build_release][-branch][:time]` with sequences of decimal
numbers and a time `YYYYMMDDTHHMMSSZ`. The constructor reads the numbers and the time with `int`,
which takes blanks, a sign and padding too: it accepts exactly the texts that have the form with
what `int` reads in the place of decimal numbers (`readVersion_isSome_iff`), and every documented
text is one of them (`Documented.readable`).
-/

set_option autoImplicit false
set_option relaxedAutoImplicit false

namespace Userland.Pkg.Flyweight

/-! ### Printing -/

/-- `str` of a component of a sequence. -/
def Part.str : Part → List Char
  | .num n => Text.strInt n
  | .star => ['*']

/-- `DotSequence.__str__`. -/
def DotObject.str (ds : DotObject) : List Char :=
  ['.'].intercalate (ds.parts.map Part.str)

/-- `Version.__str__`; an empty time string counts as absent. -/
def VersionObject.str (version : VersionObject) : List Char :=
  version.release.str ++ piece ',' (some version.buildRelease.str) ++
    piece '-' (version.branch.map DotObject.str) ++ piece ':' (version.timestr.filter (· ≠ []))

/-! ### Sequences -/

/-- A decimal number without sign, blanks and leading zeros. -/
structure Decimal (elem : List Char) : Prop where
  ne_nil : elem ≠ []
  digits : ∀ c ∈ elem, c.isDigit = true
  unpadded : elem.head? = some '0' → elem = ['0']

/-- What `int` reads, unless it begins with `-`, or with a zero of a positive number. -/
def Tolerated (elem : List Char) : Prop :=
  ∃ x, int elem = some x ∧ elem.head? ≠ some '-' ∧ ¬ (0 < x ∧ elem.head? = some '0')

/-- The components of a sequence are of the form. -/
def Dotted (form : List Char → Prop) (dotstring : List Char) : Prop :=
  ∀ elem ∈ dotstring.splitOn '.', form elem

variable {elem : List Char}

theorem dotsequenceVal_iff {x : ℤ} : dotsequenceVal elem = some x ↔
    int elem = some x ∧ elem.head? ≠ some '-' ∧ ¬ (0 < x ∧ elem.head? = some '0') := by
  unfold dotsequenceVal
  cases int elem with
  | none => simp
  | some y =>
    by_cases hsign : elem.head? = some '-'
    · simp [hsign]
    · by_cases hpadded : 0 < y ∧ elem.head? = some '0'
      · simp [hpadded]
        intro hy
        omega
      · simp only [Option.bind_eq_bind, Option.bind_some, hsign, hpadded, if_false]
        constructor
        · rintro ⟨rfl⟩
          exact ⟨rfl, hsign, hpadded⟩
        · rintro ⟨⟨rfl⟩, -⟩
          rfl

/-! ### What `int` reads -/

/-- The characters `int` may find in a text. -/
def IntChar (c : Char) : Prop :=
  isSpace c = true ∨ c.isDigit = true ∨ c = '+' ∨ c = '-'

theorem strip_subset (text : List Char) : (text.dropWhile isSpace).rdropWhile isSpace ⊆ text :=
  fun _ hc ↦ (List.dropWhile_sublist _).mem ((List.rdropWhile_prefix _ _).mem hc)

theorem isSpace_or_mem_strip {text : List Char} {c : Char} (hc : c ∈ text) :
    isSpace c = true ∨ c ∈ (text.dropWhile isSpace).rdropWhile isSpace := by
  rw [← List.takeWhile_append_dropWhile (p := isSpace) (l := text), List.mem_append] at hc
  rcases hc with hfront | hrest
  · exact Or.inl (List.mem_takeWhile_imp hfront)
  · rw [← List.rdropWhile_append_rtakeWhile (p := isSpace) (l := text.dropWhile isSpace),
      List.mem_append] at hrest
    rcases hrest with hmiddle | hback
    · exact Or.inr hmiddle
    · exact Or.inl (List.mem_rtakeWhile_imp hback)

theorem isDigit_of_natural {digits : List Char} {n : ℕ} (h : natural digits = some n) {c : Char}
    (hc : c ∈ digits) : c.isDigit = true := by
  unfold natural at h
  split_ifs at h with hbad
  simp only [not_or, not_not] at hbad
  exact List.all_eq_true.mp hbad.2 c hc

/-- What `int` reads has digits, blanks and signs in it only, and is negative behind a `-` only. -/
theorem int_spec {text : List Char} {x : ℤ} (h : int text = some x) :
    (∀ c ∈ text, IntChar c) ∧ ('-' ∉ text → 0 ≤ x) := by
  have hchars : (∀ c ∈ (text.dropWhile isSpace).rdropWhile isSpace, IntChar c) →
      ∀ c ∈ text, IntChar c :=
    fun hstrip c hc ↦ (isSpace_or_mem_strip hc).elim Or.inl (hstrip c)
  have hsubset := strip_subset text
  unfold int at h
  generalize (text.dropWhile isSpace).rdropWhile isSpace = stripped at *
  split at h
  · obtain ⟨n, hn, -⟩ := Option.map_eq_some_iff.mp h
    obtain ⟨m, hm, -⟩ := Option.bind_eq_some_iff.mp hn
    refine ⟨hchars fun c hc ↦ ?_, fun hsign ↦ absurd (hsubset List.mem_cons_self) hsign⟩
    rcases List.mem_cons.mp hc with rfl | hc
    · exact Or.inr (Or.inr (Or.inr rfl))
    · exact Or.inr (Or.inl (isDigit_of_natural hm hc))
  · obtain ⟨n, hn, rfl⟩ := Option.map_eq_some_iff.mp h
    obtain ⟨m, hm, hcast⟩ := Option.bind_eq_some_iff.mp hn
    obtain rfl := Option.some.inj hcast
    refine ⟨hchars fun c hc ↦ ?_, fun _ ↦ Int.natCast_nonneg m⟩
    rcases List.mem_cons.mp hc with rfl | hc
    · exact Or.inr (Or.inr (Or.inl rfl))
    · exact Or.inr (Or.inl (isDigit_of_natural hm hc))
  · obtain ⟨n, hn, rfl⟩ := Option.map_eq_some_iff.mp h
    obtain ⟨m, hm, hcast⟩ := Option.bind_eq_some_iff.mp hn
    obtain rfl := Option.some.inj hcast
    exact ⟨hchars fun c hc ↦ Or.inr (Or.inl (isDigit_of_natural hm hc)),
      fun _ ↦ Int.natCast_nonneg m⟩

/-! ### Sequences as texts -/

variable {dotstring : List Char} {ds : DotObject}

theorem init_iff : DotObject.init .dotSequence dotstring = .ok ds ↔ ds.cls = .dotSequence ∧
      ∃ numbers, (dotstring.splitOn '.').mapM dotsequenceVal = some numbers ∧
        ds.parts = numbers.map Part.num := by
  obtain ⟨cls, parts, hnonempty, hfree⟩ := ds
  unfold DotObject.init
  dsimp only
  split
  · next x xs heq =>
    simp only [Except.ok.injEq, DotObject.mk.injEq, heq, Option.some.injEq, exists_eq_left']
    exact ⟨fun h ↦ ⟨h.1.symm, h.2.symm⟩, fun h ↦ ⟨h.1.symm, h.2.symm⟩⟩
  · next hother =>
    refine iff_of_false (by simp) ?_
    rintro ⟨-, numbers, hnumbers, hparts⟩
    cases numbers with
    | nil => exact hnonempty hparts
    | cons x xs => exact hother x xs hnumbers

theorem mapM_splitOn_ne_nil {numbers : List ℤ}
    (h : (dotstring.splitOn '.').mapM dotsequenceVal = some numbers) : numbers ≠ [] := by
  obtain ⟨first, rest, hsplit⟩ := List.exists_cons_of_ne_nil (List.splitOn_ne_nil '.' dotstring)
  rw [hsplit] at h
  obtain ⟨n, ns, -, -, rfl⟩ := Library.Traverse.mapM_cons_eq_some h
  exact List.cons_ne_nil n ns

/-- A text is a sequence exactly if its components are tolerated. -/
theorem exists_init_iff :
    (∃ ds, DotObject.init .dotSequence dotstring = .ok ds) ↔ Dotted Tolerated dotstring := by
  simp only [Dotted, Tolerated, ← dotsequenceVal_iff, ← Library.Traverse.exists_mapM_iff, init_iff]
  constructor
  · rintro ⟨ds, -, numbers, hnumbers, -⟩
    exact ⟨numbers, hnumbers⟩
  · rintro ⟨numbers, hnumbers⟩
    exact ⟨⟨.dotSequence, numbers.map .num, by simpa using mapM_splitOn_ne_nil hnumbers, by simp⟩,
      rfl, numbers, hnumbers, rfl⟩

/-! ### Decimal numbers -/

theorem Decimal.dotsequenceVal (h : Decimal elem) :
    Flyweight.dotsequenceVal elem = some ((Nat.ofDigitChars 10 elem 0 : ℕ) : ℤ) := by
  have hall : elem.all Char.isDigit = true := List.all_eq_true.mpr h.digits
  refine dotsequenceVal_of_digits ?_
  rw [DotSequence.dotsequenceVal, if_neg (by simp [h.ne_nil, hall])]
  refine if_neg ?_
  rintro ⟨hpos, hhead⟩
  rw [h.unpadded hhead] at hpos
  exact absurd hpos (by decide)

theorem strInt_natCast (n : ℕ) : Text.strInt (n : ℤ) = Nat.toDigits 10 n := by
  simp [Text.strInt]

/-- A decimal number is what its value is printed as. -/
theorem Decimal.strInt_of_dotsequenceVal (h : Decimal elem) {x : ℤ}
    (hx : Flyweight.dotsequenceVal elem = some x) : Text.strInt x = elem ∧ 0 ≤ x := by
  obtain rfl := Option.some.inj (h.dotsequenceVal.symm.trans hx)
  rw [strInt_natCast]
  exact ⟨Text.toDigits_ofDigitChars h.ne_nil h.digits h.unpadded, Int.natCast_nonneg _⟩

theorem decimal_toDigits (n : ℕ) : Decimal (Nat.toDigits 10 n) := by
  refine ⟨Nat.toDigits_ne_nil, fun c hc ↦ Text.isDigit_of_mem_toDigits hc, fun hhead ↦ ?_⟩
  rcases Nat.eq_zero_or_pos n with rfl | hpos
  · rfl
  · exact absurd hhead (DotSequence.toDigits_head_ne_zero hpos)

/-- A number that is not negative is read from what it is printed as. -/
theorem dotsequenceVal_strInt {n : ℤ} (h : 0 ≤ n) : dotsequenceVal (Text.strInt n) = some n := by
  obtain ⟨m, rfl⟩ := Int.eq_ofNat_of_zero_le h
  rw [strInt_natCast, (decimal_toDigits m).dotsequenceVal, Nat.ofDigitChars_ten_toDigits]

/-! ### Sequences of decimal numbers -/

/-- No component is negative. -/
def DotObject.Nonnegative (ds : DotObject) : Prop :=
  ∀ n, Part.num n ∈ ds.parts → 0 ≤ n

/-- A sequence of decimal numbers is what it is printed as. -/
theorem str_of_init (hdotted : Dotted Decimal dotstring)
    (h : DotObject.init .dotSequence dotstring = .ok ds) :
    ds.str = dotstring ∧ ds.Nonnegative := by
  obtain ⟨-, numbers, hnumbers, hparts⟩ := init_iff.mp h
  constructor
  · have hprinted : numbers.map Text.strInt = dotstring.splitOn '.' :=
      Library.Traverse.map_of_mapM hnumbers fun elem helem n hn ↦
        ((hdotted elem helem).strInt_of_dotsequenceVal hn).1
    have hmap : ds.parts.map Part.str = numbers.map Text.strInt := by
      rw [hparts, List.map_map]
      rfl
    rw [DotObject.str, hmap, hprinted, List.intercalate_splitOn]
  · intro n hn
    rw [hparts] at hn
    obtain ⟨m, hm, heq⟩ := List.mem_map.mp hn
    obtain rfl := Part.num.inj heq
    obtain ⟨elem, helem, hread⟩ := (Library.Traverse.mem_mapM hnumbers m).mp hm
    exact ((hdotted elem helem).strInt_of_dotsequenceVal hread).2

theorem exists_numbers (h : ds.cls = .dotSequence) : ∃ numbers :
    List ℤ, ds.parts = numbers.map Part.num := by
  have hfree := ds.wildcardFree h
  generalize ds.parts = parts at hfree
  induction parts with
  | nil => exact ⟨[], rfl⟩
  | cons part rest ih =>
    obtain ⟨numbers, rfl⟩ := ih fun hmem ↦ hfree (List.mem_cons_of_mem _ hmem)
    cases part with
    | star => exact absurd List.mem_cons_self hfree
    | num n => exact ⟨n :: numbers, rfl⟩

theorem splitOn_str {numbers : List ℤ} (hparts : ds.parts = numbers.map Part.num) :
    ds.str.splitOn '.' = numbers.map Text.strInt := by
  rw [DotObject.str, hparts, List.map_map]
  refine List.splitOn_intercalate '.' (fun elem helem hdot ↦ ?_) ?_
  · obtain ⟨n, -, rfl⟩ := List.mem_map.mp helem
    exact Text.notMem_strInt (by decide) (by decide) n hdot
  · have := ds.nonempty
    simpa [hparts] using this

theorem str_ne_nil (hcls : ds.cls = .dotSequence) : ds.str ≠ [] := by
  obtain ⟨numbers, hparts⟩ := exists_numbers hcls
  intro hnil
  have hsplit := splitOn_str hparts
  rw [hnil, List.splitOn_nil] at hsplit
  obtain ⟨n, -, hn⟩ := List.mem_map.mp (hsplit ▸ List.mem_singleton.mpr rfl)
  exact Text.strInt_ne_nil n hn

/-- A sequence without negative components is read from what it is printed as. -/
theorem init_str (hcls : ds.cls = .dotSequence) (h : ds.Nonnegative) :
    DotObject.init .dotSequence ds.str = .ok ds ∧ Dotted Decimal ds.str := by
  obtain ⟨numbers, hparts⟩ := exists_numbers hcls
  have hpos : ∀ n ∈ numbers, 0 ≤ n := fun n hn ↦ h n (hparts ▸ List.mem_map_of_mem hn)
  have hsplit := splitOn_str hparts
  refine ⟨init_iff.mpr ⟨hcls, numbers, ?_, hparts⟩, ?_⟩
  · rw [hsplit, Library.Traverse.mapM_map_eq_map fun n hn ↦ dotsequenceVal_strInt (hpos n hn),
      List.map_id']
  · rw [Dotted, hsplit]
    intro elem helem
    obtain ⟨n, hn, rfl⟩ := List.mem_map.mp helem
    obtain ⟨m, rfl⟩ := Int.eq_ofNat_of_zero_le (hpos n hn)
    rw [strInt_natCast]
    exact decimal_toDigits m

/-- A sequence whose own text is read has no negative components. -/
theorem nonnegative_of_str (hcls : ds.cls = .dotSequence) (h : Dotted Tolerated ds.str) :
    ds.Nonnegative := by
  obtain ⟨numbers, hparts⟩ := exists_numbers hcls
  intro n hn
  rw [hparts] at hn
  obtain ⟨m, hm, heq⟩ := List.mem_map.mp hn
  obtain rfl := Part.num.inj heq
  obtain ⟨x, -, hhead, -⟩ := h (Text.strInt m) (splitOn_str hparts ▸ List.mem_map_of_mem hm)
  by_contra hneg
  exact hhead (by rw [Text.strInt, if_pos (not_le.mp hneg), List.head?_cons])

/-- A text of decimal numbers holds digits and dots. -/
theorem notMem_dotted (h : Dotted Decimal dotstring) {c : Char}
    (hdigit : c.isDigit = false) (hdot : c ≠ '.') : c ∉ dotstring := by
  intro hc
  have hjoin : ['.'].intercalate (dotstring.splitOn '.') = dotstring := List.intercalate_splitOn '.'
  rw [← hjoin] at hc
  rcases Library.mem_intercalate hc with hsep | ⟨elem, helem, hc⟩
  · exact hdot (List.mem_singleton.mp hsep)
  · exact Bool.false_ne_true (hdigit.symm.trans ((h elem helem).digits c hc))

theorem ne_nil_of_dotted (h : Dotted Decimal dotstring) : dotstring ≠ [] := by
  rintro rfl
  exact (h [] (by simp)).ne_nil rfl

/-! ### The grammar -/

/-- `release[,build_release][-branch][:time]`, where the build release is the default one if it is
absent, with sequences and a time of some form. -/
def OfForm (sequence time : List Char → Prop) (texts : VersionTexts)
    (buildString : Option (List Char)) :
    Prop :=
  sequence texts.release ∧ (∃ build, texts.buildRelease.or buildString = some build ∧
    sequence build) ∧
    (∀ branch, texts.branch = some branch → sequence branch) ∧
    ∀ timestr, texts.timestr = some timestr → time timestr

/-- The documented form: decimal numbers, and an instant `YYYYMMDDTHHMMSSZ`. -/
def Documented (versionString : List Char) (buildString : Option (List Char)) : Prop :=
  ∃ texts : VersionTexts, versionString = texts.str ∧
    OfForm (Dotted Decimal) (fun timestr ↦ validTimestr timestr = true) texts buildString

/-- The form with numbers and times that `int` reads, between the first separators. -/
def Readable (versionString : List Char) (buildString : Option (List Char)) : Prop :=
  ∃ texts : VersionTexts, versionString = texts.str ∧ texts.Located ∧
    OfForm (Dotted Tolerated) (fun timestr ↦ validTime timestr = true) texts buildString

theorem ne_nil_of_tolerated (h : Dotted Tolerated dotstring) : dotstring ≠ [] := by
  rintro rfl
  obtain ⟨x, hx, -⟩ := h [] (by simp)
  rw [show int [] = none by decide] at hx
  cases hx

variable {texts : VersionTexts} {versionString : List Char} {buildString : Option (List Char)}

theorem nonempty_of_readable
    (h : OfForm (Dotted Tolerated) (fun timestr ↦ validTime timestr = true) texts buildString) :
    texts.Nonempty := by
  obtain ⟨hrelease, ⟨build, hbuild, hform⟩, hbranch, htimestr⟩ := h
  refine ⟨ne_nil_of_tolerated hrelease, fun hnil ↦ ?_,
    fun hnil ↦ ne_nil_of_tolerated (hbranch [] hnil) rfl,
    fun hnil ↦ absurd (htimestr [] hnil) (by decide)⟩
  rw [hnil, Option.some_or] at hbuild
  exact ne_nil_of_tolerated hform (Option.some.inj hbuild).symm

theorem readOptional_iff {dotstring : Option (List Char)} :
    (∃ branch, readOptional dotstring = .ok branch) ↔
      ∀ text, dotstring = some text → Dotted Tolerated text := by
  cases dotstring with
  | none => simp [readOptional]
  | some text =>
    rw [readOptional]
    simp only [Option.some.injEq, forall_eq', ← exists_init_iff]
    cases DotObject.init .dotSequence text <;> simp [Except.map]

/-- The pieces are read exactly if they have the form. -/
theorem exists_reads_iff : (∃ version, Reads texts buildString version) ↔
    OfForm (Dotted Tolerated) (fun timestr ↦ validTime timestr = true) texts buildString := by
  constructor
  · rintro ⟨version, h⟩
    obtain ⟨build, hbuild, hread⟩ := h.buildRelease
    refine ⟨exists_init_iff.mp ⟨_, h.release⟩, ⟨build, hbuild, exists_init_iff.mp ⟨_, hread⟩⟩,
      readOptional_iff.mp ⟨_, h.branch⟩, fun timestr htimestr ↦ ?_⟩
    simpa [htimestr] using h.valid
  · rintro ⟨hrelease, ⟨build, hbuild, hform⟩, hbranch, htimestr⟩
    obtain ⟨release, hrelease⟩ := exists_init_iff.mpr hrelease
    obtain ⟨buildRelease, hread⟩ := exists_init_iff.mpr hform
    obtain ⟨branch, hbranch⟩ := readOptional_iff.mpr hbranch
    refine ⟨⟨.version, release, buildRelease, branch, texts.timestr⟩, rfl, hrelease, hbranch,
      ⟨build, hbuild, hread⟩, rfl, ?_⟩
    cases hpresent : texts.timestr with
    | none => rfl
    | some timestr => exact htimestr timestr hpresent

/-- The pieces of an accepted text are readable, and its separators are the first ones. -/
theorem reads_of_readVersion {version : VersionObject}
    (h : readVersion versionString buildString = some version) :
    ∃ texts, versionString = texts.str ∧ texts.Located ∧ Reads texts buildString version := by
  obtain ⟨texts, htexts, hreads⟩ := readVersion_iff.mp h
  obtain ⟨hstr, hlocated⟩ := str_of_versionTexts htexts
    (nonempty_of_readable (exists_reads_iff.mp ⟨version, hreads⟩))
  exact ⟨texts, hstr, hlocated, hreads⟩

theorem readVersion_of_reads {version : VersionObject} (hlocated : texts.Located)
    (h : Reads texts buildString version) : readVersion texts.str buildString = some version :=
  readVersion_iff.mpr ⟨texts, versionTexts_str hlocated
    (nonempty_of_readable (exists_reads_iff.mp ⟨version, h⟩)).release, h⟩

/-- The constructor accepts exactly the texts of the form `int` reads. -/
theorem readVersion_isSome_iff :
    (∃ version, readVersion versionString buildString = some version) ↔
      Readable versionString buildString := by
  constructor
  · rintro ⟨version, h⟩
    obtain ⟨texts, hstr, hlocated, hreads⟩ := reads_of_readVersion h
    exact ⟨texts, hstr, hlocated, exists_reads_iff.mp ⟨version, hreads⟩⟩
  · rintro ⟨texts, rfl, hlocated, hform⟩
    obtain ⟨version, hreads⟩ := exists_reads_iff.mpr hform
    exact ⟨version, readVersion_of_reads hlocated hreads⟩

/-! ### Documented texts -/

theorem Decimal.tolerated (h : Decimal elem) : Tolerated elem :=
  ⟨_, dotsequenceVal_iff.mp h.dotsequenceVal⟩

theorem validTime_of_validTimestr {timestr : List Char} (h : validTimestr timestr = true) :
    validTime timestr = true := by
  simp only [validTimestr, Bool.and_eq_true, beq_iff_eq] at h
  obtain ⟨⟨⟨⟨⟨hlength, heighth⟩, hlast⟩, hdate⟩, htime⟩, hvalid⟩ := h
  have hdateint : int (timestr.take 8) = some ((Nat.ofDigitChars 10 (timestr.take 8) 0 : ℕ) : ℤ) :=
    int_of_digits (List.ne_nil_of_length_pos (by rw [List.length_take]; omega)) hdate
  have htimeint : int ((timestr.drop 9).take 6) =
      some ((Nat.ofDigitChars 10 ((timestr.drop 9).take 6) 0 : ℕ) : ℤ) :=
    int_of_digits (List.ne_nil_of_length_pos (by rw [List.length_take, List.length_drop]; omega))
      htime
  rw [validTime, hdateint, htimeint, hlength, heighth, hlast]
  simpa using hvalid

theorem notMem_timestr {timestr : List Char} (h : validTimestr timestr = true) {c : Char}
    (hdigit : c.isDigit = false) (hT : c ≠ 'T') (hZ : c ≠ 'Z') : c ∉ timestr :=
  Version.notMem_timestr ⟨timestr, h⟩ hdigit hT hZ

/-- The separators of a documented text are the first ones. -/
theorem located_of_documented
    (h : OfForm (Dotted Decimal) (fun timestr ↦ validTimestr timestr = true) texts buildString) :
    texts.Located := by
  obtain ⟨hrelease, ⟨build, hbuild, hform⟩, hbranch, htimestr⟩ := h
  have hreleasePlain := fun c hdigit hdot ↦ notMem_dotted (c := c) hrelease hdigit hdot
  have hbranchPlain := fun c hdigit hdot text htext ↦
    notMem_dotted (c := c) (hbranch text htext) hdigit hdot
  have hbuildPlain : ∀ c, c.isDigit = false → c ≠ '.' → ∀ text, texts.buildRelease = some text →
      c ∉ text := by
    intro c hdigit hdot text htext
    rw [htext, Option.some_or] at hbuild
    rw [Option.some.inj hbuild]
    exact notMem_dotted hform hdigit hdot
  have htimestrPlain := fun c hdigit hT hZ text htext ↦
    notMem_timestr (c := c) (htimestr text htext) hdigit hT hZ
  refine ⟨?_, fun _ ↦ ?_, ?_, fun _ ↦ ?_, ?_⟩
  · exact hreleasePlain ',' (by decide) (by decide)
  · rw [List.mem_append, not_or]
    exact ⟨notMem_piece (by decide) (hbranchPlain ',' (by decide) (by decide)),
      notMem_piece (by decide) (htimestrPlain ',' (by decide) (by decide) (by decide))⟩
  · rw [List.mem_append, not_or]
    exact ⟨hreleasePlain '-' (by decide) (by decide),
      notMem_piece (by decide) (hbuildPlain '-' (by decide) (by decide))⟩
  · exact notMem_piece (by decide) (htimestrPlain '-' (by decide) (by decide) (by decide))
  · rw [List.mem_append, List.mem_append, not_or, not_or]
    exact ⟨⟨hreleasePlain ':' (by decide) (by decide),
      notMem_piece (by decide) (hbuildPlain ':' (by decide) (by decide))⟩,
      notMem_piece (by decide) (hbranchPlain ':' (by decide) (by decide))⟩

theorem readable_of_documented
    (h : OfForm (Dotted Decimal) (fun timestr ↦ validTimestr timestr = true) texts buildString) :
    OfForm (Dotted Tolerated) (fun timestr ↦ validTime timestr = true) texts buildString := by
  obtain ⟨hrelease, ⟨build, hbuild, hform⟩, hbranch, htimestr⟩ := h
  exact ⟨fun elem helem ↦ (hrelease elem helem).tolerated,
    ⟨build, hbuild, fun elem helem ↦ (hform elem helem).tolerated⟩,
    fun branch hpresent elem helem ↦ (hbranch branch hpresent elem helem).tolerated,
    fun timestr hpresent ↦ validTime_of_validTimestr (htimestr timestr hpresent)⟩

theorem Documented.readable (h : Documented versionString buildString) :
    Readable versionString buildString := by
  obtain ⟨texts, hstr, hform⟩ := h
  exact ⟨texts, hstr, located_of_documented hform, readable_of_documented hform⟩

end Userland.Pkg.Flyweight
