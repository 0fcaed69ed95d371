import Mathlib.Data.List.DropRight
import Userland.Library.Program
import Userland.Pkg.Version

/-!
# The pool of dot sequences

`DotSequence` and `MatchingDotSequence` of `pkg/version.py` share one pool of live objects, keyed by
the text alone. A construction whose text is in the pool returns the live object, whatever its
class, and only an instance of the class asked for is initialised.

A construction that finds no object of the other class for its text is one of a fresh process
(`exec_construct`).
-/

set_option autoImplicit false
set_option relaxedAutoImplicit false

namespace Userland.Pkg.Flyweight

open Library Library.Program

/-! ### Components -/

/-- `str.isspace` of one character. -/
def isSpace (c : Char) : Bool :=
  c ∈ [' ', '\t', '\n', '\r', Char.ofNat 11, Char.ofNat 12]

/-- A nonempty row of decimal digits. -/
def natural (digits : List Char) : Option ℕ :=
  if digits = [] ∨ ¬ digits.all Char.isDigit then none else some (Nat.ofDigitChars 10 digits 0)

/-- `int(text)`: digits behind an optional sign, with white space around them. -/
def int (text : List Char) : Option ℤ :=
  match (text.dropWhile isSpace).rdropWhile isSpace with
  | '-' :: digits => (natural digits).map fun n ↦ -(n : ℤ)
  | '+' :: digits => (natural digits).map fun n ↦ (n : ℤ)
  | digits => (natural digits).map fun n ↦ (n : ℤ)

/-- `DotSequence.dotsequence_val`; `none` is `ValueError`. -/
def dotsequenceVal (elem : List Char) : Option ℤ := do
  let x ← int elem
  if elem.head? = some '-' then none
  if 0 < x ∧ elem.head? = some '0' then none
  return x

/-- A component of a dot sequence. -/
inductive Part
  | num (n : ℤ)
  | star
deriving DecidableEq

/-- `MatchingDotSequence.dotsequence_val`; `none` is `ValueError`. -/
def matchingDotsequenceVal (elem : List Char) : Option Part :=
  if elem = ['*'] then some .star else (dotsequenceVal elem).map .num

/-- A number is below every text. -/
def Part.lt : Part → Part → Bool
  | .num n, .num m => n < m
  | .num _, .star => true
  | .star, _ => false

/-- Lists compare by the first components that differ. -/
def partsLt : List Part → List Part → Bool
  | _, [] => false
  | [], _ :: _ => true
  | a :: as, b :: bs => if a = b then partsLt as bs else a.lt b

/-! ### Objects -/

inductive DotClass
  | dotSequence
  | matchingDotSequence
deriving DecidableEq

/-- An initialised object of one of the classes. A plain one holds no wildcard. -/
structure DotObject where
  cls : DotClass
  parts : List Part
  nonempty : parts ≠ []
  wildcardFree : cls = .dotSequence → Part.star ∉ parts
deriving DecidableEq

/-- `IllegalDotSequence`, and the reasons of `IllegalVersion`. -/
inductive VersionError
  | illegalDotSequence (dotstring : List Char)
  | emptyVersion
  | noRelease
  | noBuild
  | badVersion (dotstring : List Char)
  | badTime
deriving DecidableEq

namespace DotObject

/-- `__init__` of the class on a new object. -/
def init (cls : DotClass) (dotstring : List Char) : Except VersionError DotObject :=
  match cls with
  | .dotSequence =>
    match (dotstring.splitOn '.').mapM dotsequenceVal with
    | some (x :: xs) => .ok ⟨.dotSequence, (x :: xs).map .num, by simp, by simp⟩
    | _ => .error (.illegalDotSequence dotstring)
  | .matchingDotSequence =>
    match (dotstring.splitOn '.').mapM matchingDotsequenceVal with
    | some (x :: xs) => .ok ⟨.matchingDotSequence, x :: xs, List.cons_ne_nil x xs, by simp⟩
    | _ => .error (.illegalDotSequence dotstring)

theorem cls_of_init {cls : DotClass} {dotstring : List Char} {ds : DotObject}
    (h : init cls dotstring = .ok ds) : ds.cls = cls := by
  unfold init at h
  cases cls with
  | dotSequence =>
    dsimp only at h
    split at h
    · cases h
      rfl
    · cases h
  | matchingDotSequence =>
    dsimp only at h
    split at h
    · cases h
      rfl
    · cases h

/-- The loop of `MatchingDotSequence.__eq__`: behind the end of the shorter sequence its last
component has to be the wildcard, or the component of the longer one. -/
def matchingEq (self other : List Part) : Bool :=
  (List.range (max self.length other.length)).all fun i ↦
    match self[i]?, other[i]? with
    | some a, some b => a == b || a == .star || b == .star
    | none, some b => self.getLast? == some .star || b == .star
    | some a, none => a == .star || other.getLast? == some .star
    | none, none => true

/-- `self == other`. The operator asks the instance of the subclass first. -/
def eq (self other : DotObject) : Bool :=
  match self.cls, other.cls with
  | .matchingDotSequence, _ => matchingEq self.parts other.parts
  | .dotSequence, .matchingDotSequence => matchingEq other.parts self.parts
  | .dotSequence, .dotSequence => self.parts == other.parts

/-- `self < other`, as lists. -/
def lt (self other : DotObject) : Bool :=
  partsLt self.parts other.parts

/-- `self.is_subsequence(other)`. -/
def isSubsequence (self other : DotObject) : Bool :=
  match self.cls with
  | .dotSequence => self.parts.isPrefixOf other.parts
  | .matchingDotSequence =>
    self.parts == [.star] || other.parts == [.star] || self.parts.isPrefixOf other.parts

/-- `self.is_same_major(other)`. -/
def isSameMajor (self other : DotObject) : Bool :=
  match self.cls with
  | .dotSequence => self.parts.head? == other.parts.head?
  | .matchingDotSequence =>
    self.parts.head? == some .star || other.parts.head? == some .star ||
      self.parts.head? == other.parts.head?

/-- `self.is_same_minor(other)`; `none` is `IndexError`. -/
def isSameMinor (self other : DotObject) : Option Bool :=
  match self.cls with
  | .dotSequence =>
    if self.parts.head? = other.parts.head? then
      match self.parts[1]?, other.parts[1]? with
      | some a, some b => some (a == b)
      | _, _ => none
    else some false
  | .matchingDotSequence =>
    if self.parts.head? = some .star ∨ other.parts.head? = some .star then some true
    else match self.parts[1]? with
      | none => none
      | some a =>
        if a = .star then some true
        else match other.parts[1]? with
          | none => none
          | some b => some (b == .star || (self.parts.head? == other.parts.head? && a == b))

end DotObject

/-! ### Agreement with the model of versions -/

theorem not_isSpace_of_isDigit {c : Char} (h : c.isDigit = true) : isSpace c = false := by
  refine Bool.eq_false_iff.mpr fun hspace ↦ ?_
  simp only [isSpace, decide_eq_true_eq, List.mem_cons, List.not_mem_nil, or_false] at hspace
  rcases hspace with rfl | rfl | rfl | rfl | rfl | rfl <;> exact absurd h (by decide)

theorem int_of_digits {digits : List Char} (hne : digits ≠ [])
    (hall : digits.all Char.isDigit = true) :
    int digits = some (Nat.ofDigitChars 10 digits 0 : ℕ) := by
  have hdigit : ∀ c ∈ digits, c.isDigit = true := List.all_eq_true.mp hall
  obtain ⟨first, rest, rfl⟩ := List.exists_cons_of_ne_nil hne
  have hfirst : first.isDigit = true := hdigit first List.mem_cons_self
  have hstrip : ((first :: rest).dropWhile isSpace).rdropWhile isSpace = first :: rest := by
    rw [List.dropWhile_cons_of_neg (by simp [not_isSpace_of_isDigit hfirst]),
      List.rdropWhile_eq_self_iff]
    intro hnil
    simp [not_isSpace_of_isDigit (hdigit _ (List.getLast_mem hnil))]
  have hnatural : natural (first :: rest) = some (Nat.ofDigitChars 10 (first :: rest) 0) :=
    if_neg (by simp [hall])
  unfold int
  rw [hstrip]
  split
  · next heq =>
    cases heq
    exact absurd hfirst (by decide)
  · next heq =>
    cases heq
    exact absurd hfirst (by decide)
  · rw [hnatural]
    rfl

/-- What the model of versions takes for the number of a component is its value here. -/
theorem dotsequenceVal_of_digits {elem : List Char} {n : ℕ}
    (h : DotSequence.dotsequenceVal elem = some n) : dotsequenceVal elem = some (n : ℤ) := by
  unfold DotSequence.dotsequenceVal at h
  split at h
  · cases h
  · next hdigits =>
    simp only [not_or, not_not] at hdigits
    dsimp only at h
    split at h
    · cases h
    · next hpadded =>
      obtain rfl := Option.some.inj h
      have hsign : elem.head? ≠ some '-' := by
        intro hhead
        have := List.all_eq_true.mp hdigits.2 '-' (List.mem_of_mem_head? hhead)
        exact absurd this (by decide)
      simp [dotsequenceVal, int_of_digits hdigits.1 hdigits.2, hsign, hpadded]

/-! ### Comparisons of dot sequences -/

/-- What a comparison gives: a truth value, the sign of `__cmp__`, or an exception. -/
inductive Answer
  | truth (value : Bool)
  | sign (value : Ordering)
  | raised
deriving DecidableEq

def Answer.ofOption : Option Bool → Answer
  | some value => .truth value
  | none => .raised

/-- The comparisons of dot sequences. -/
inductive DotComparison
  | eq
  | ne
  | lt
  | gt
  | le
  | ge
  | isSubsequence
  | isSameMajor
  | isSameMinor
deriving DecidableEq

def DotComparison.apply (self other : DotObject) : DotComparison → Answer
  | .eq => .truth (self.eq other)
  | .ne => .truth (!self.eq other)
  | .lt => .truth (self.lt other)
  | .gt => .truth (other.lt self)
  | .le => .truth (!other.lt self)
  | .ge => .truth (!self.lt other)
  | .isSubsequence => .truth (self.isSubsequence other)
  | .isSameMajor => .truth (self.isSameMajor other)
  | .isSameMinor => .ofOption (self.isSameMinor other)

/-! ### The pool -/

/-- The live objects, by the text they were constructed from. -/
abbrev Pool := List (List Char × DotObject)

/-- An object that has just been initialised is found under its text. -/
def store (dotstring : List Char) (ds : DotObject) : Program Pool VersionError DotObject := do
  modify fun pool ↦ (dotstring, ds) :: pool
  return ds

/-- `DotSequence(dotstring)` and `MatchingDotSequence(dotstring)`. A live plain object is returned
as it is: `DotSequence.__init__` has nothing to do, and `MatchingDotSequence` does not initialise
what is no instance of it. A live matching object is an instance of both classes, and its own
`__init__` reads the text again. -/
def construct (cls : DotClass) (dotstring : List Char) : Program Pool VersionError DotObject := do
  match (← get).lookup dotstring with
  | some ds =>
    match ds.cls with
    | .dotSequence => return ds
    | .matchingDotSequence =>
      store dotstring (← lift (DotObject.init .matchingDotSequence dotstring))
  | none => store dotstring (← lift (DotObject.init cls dotstring))

/-- Every live object is what its class makes of the text. -/
def Consistent (pool : Pool) : Prop :=
  ∀ dotstring ds, pool.lookup dotstring = some ds → DotObject.init ds.cls dotstring = .ok ds

/-- A live object of a text, if there is one, is of the class. -/
def Held (cls : DotClass) (pool : Pool) (dotstring : List Char) : Prop :=
  ∀ ds ∈ pool.lookup dotstring, ds.cls = cls

theorem consistent_nil : Consistent [] := by
  intro dotstring ds h
  cases h

theorem Consistent.cons {pool : Pool} {cls : DotClass} {dotstring : List Char} {ds : DotObject}
    (h : Consistent pool) (hinit : DotObject.init cls dotstring = .ok ds) :
    Consistent ((dotstring, ds) :: pool) := by
  intro other found hlookup
  rw [List.lookup_cons] at hlookup
  split at hlookup
  · next heq =>
    obtain rfl := Option.some.inj hlookup
    rw [beq_iff_eq.mp heq, DotObject.cls_of_init hinit, hinit]
  · exact h other found hlookup

theorem Held.cons {pool : Pool} {cls : DotClass} {dotstring other : List Char} {ds : DotObject}
    (h : Held cls pool other) (hcls : ds.cls = cls) : Held cls ((dotstring, ds) :: pool) other := by
  intro found hlookup
  rw [List.lookup_cons] at hlookup
  split at hlookup
  · obtain rfl := Option.some.inj hlookup
    exact hcls
  · exact h found hlookup

theorem exec_store (dotstring : List Char) (ds : DotObject) (pool : Pool) :
    exec (store dotstring ds) pool = (.ok ds, (dotstring, ds) :: pool) := rfl

/-- A construction that finds no object of the other class is one of a fresh process. -/
theorem exec_construct {pool : Pool} {cls : DotClass} {dotstring : List Char}
    (hpool : Consistent pool) (hheld : Held cls pool dotstring) :
    ∃ pool', exec (construct cls dotstring) pool = (DotObject.init cls dotstring, pool') ∧
      Consistent pool' ∧ ∀ other, Held cls pool other → Held cls pool' other := by
  have hstore : ∀ ds, DotObject.init cls dotstring = .ok ds →
      Consistent ((dotstring, ds) :: pool) ∧
        ∀ other, Held cls pool other → Held cls ((dotstring, ds) :: pool) other :=
    fun ds hinit ↦ ⟨hpool.cons hinit, fun _ h ↦ h.cons (DotObject.cls_of_init hinit)⟩
  unfold construct
  rw [exec_bind, exec_get]
  dsimp only
  cases hlookup : pool.lookup dotstring with
  | none =>
    dsimp only
    rw [exec_bind, exec_lift]
    cases hinit : DotObject.init cls dotstring with
    | error error => exact ⟨pool, rfl, hpool, fun _ h ↦ h⟩
    | ok ds => exact ⟨_, exec_store dotstring ds pool, hstore ds hinit⟩
  | some ds =>
    have hinit := hpool dotstring ds hlookup
    have hcls := hheld ds hlookup
    dsimp only
    rw [hcls] at hinit ⊢
    cases cls with
    | dotSequence => exact ⟨pool, by rw [hinit]; rfl, hpool, fun _ h ↦ h⟩
    | matchingDotSequence =>
      dsimp only
      rw [exec_bind, exec_lift, hinit]
      exact ⟨_, exec_store dotstring ds pool, hstore ds hinit⟩

theorem consistent_store {dotstring : List Char} {cls : DotClass} {ds : DotObject}
    (hinit : DotObject.init cls dotstring = .ok ds) :
    Triple Consistent (store dotstring ds) (fun _ ↦ Consistent) fun _ ↦ Consistent :=
  fun _ hpool ↦ hpool.cons hinit

/-- A construction in any consistent pool leaves a consistent one. -/
theorem consistent_construct (cls : DotClass) (dotstring : List Char) :
    Triple Consistent (construct cls dotstring) (fun _ ↦ Consistent) fun _ ↦ Consistent := by
  have hnew : ∀ cls, Triple Consistent
      (lift (DotObject.init cls dotstring) >>= store dotstring :
        Program Pool VersionError DotObject)
      (fun _ ↦ Consistent) fun _ ↦ Consistent := by
    intro cls
    refine Triple.bind (M := fun ds pool ↦ DotObject.init cls dotstring = .ok ds ∧ Consistent pool)
      (Triple.lift (fun ds _ hinit hpool ↦ ⟨hinit, hpool⟩) fun _ _ _ hpool ↦ hpool) fun ds ↦ ?_
    exact Triple.assume fun hinit ↦ consistent_store hinit
  unfold construct
  refine Triple.bind (Triple.get (Q := fun pool current ↦ current = pool ∧ Consistent pool)
    fun _ hpool ↦ ⟨rfl, hpool⟩) fun pool ↦ ?_
  refine Triple.weaken ?_ (fun _ h ↦ h.1 ▸ h.2) (fun _ _ h ↦ h) fun _ _ h ↦ h
  split
  · split
    · exact Triple.pure fun _ h ↦ h
    · exact hnew _
  · exact hnew _

/-! ### What a live object of the other class changes -/

/-- The sequence `*`. -/
def wildcard : DotObject :=
  ⟨.matchingDotSequence, [.star], by decide, by decide⟩

end Userland.Pkg.Flyweight
