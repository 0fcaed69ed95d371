import Userland.Install.DataObject.Descendants
import Userland.Library.PercentCoding
import Userland.Library.Program
import Userland.Pkg.Numeral

/-!
# Paths of data objects

`object_path` joins the names of an object and its ancestors by slashes, and `find_path` goes down a
path. A point in a name is not encoded and separates the name of an attribute where the path is
read: `findsItself_iff` says which objects are found by their paths, and nothing else is.

Scope. Names are byte strings. Values of attributes are no objects of the tree. The classes that a
path can name are a parameter.
-/

set_option autoImplicit false
set_option relaxedAutoImplicit false

namespace Userland.Install.DataObject

open Library Userland.Pkg

/-- What paths raise, beside the errors of the search. -/
inductive PathError
  | invalidPath (path : List Char)
  | invalidClass (name : List Char)
  | keyError
  | valueError
  | attributeError (attr : List Char)
  | search (error : DocError)
deriving DecidableEq

/-! ### The path of an object -/

/-- `always_safe` of `urllib`. -/
def isAlwaysSafe (c : Char) : Bool :=
  c.isAlphanum || c = '_' || c = '.' || c = '-'

/-- `quote(name, "")`, which has no entry for a character that is no byte. -/
def quote (name : List Char) : Except PathError (List Char) :=
  if name.all fun c ↦ c.toNat < 256 then .ok (PercentCoding.quote isAlwaysSafe name)
  else .error .keyError

/-- `object_path`, for the names of the object and of its ancestors below the root, from there on.
-/
def objectPath (names : List (List Char)) : Except PathError (List Char) :=
  (names.mapM quote).map fun quoted ↦ List.intercalate ['/'] ([] :: quoted)

/-! ### The regular expressions -/

/-- `\w`. -/
def isWordChar (c : Char) : Bool :=
  c.isAlphanum || c = '_'

/-- `__NAME_RE`. -/
def nameGroup (element : List Char) : Option (List Char) :=
  let group := element.takeWhile fun c ↦ !(c = '[' || c = ']' || c = '.')
  if group.isEmpty then none else some group

/-- The text after each place of a mark that comes after an opening bracket. -/
def afterMarks (mark : Char) : Bool → List Char → List (List Char)
  | _, [] => []
  | opened, c :: rest =>
    (if opened ∧ c = mark then [rest] else []) ++ afterMarks mark (opened || c = '[') rest

/-- What follows the last mark between brackets at which a group is found. The brackets are on the
first line. -/
def bracketed (mark : Char) (group : List Char → Option (List Char)) (element : List Char) :
    Option (List Char) :=
  ((afterMarks mark false (element.takeWhile (· ≠ '\n'))).filterMap fun rest ↦
    match group rest with
    | none => none
    | some found => if (rest.drop found.length).contains ']' then some found else none).getLast?

/-- `(\w|\.)+`. -/
def classGroup (rest : List Char) : Option (List Char) :=
  let group := rest.takeWhile fun c ↦ isWordChar c || c = '.'
  if group.isEmpty then none else some group

/-- `-*\d+`. -/
def numberGroup (rest : List Char) : Option (List Char) :=
  let digits := (rest.dropWhile (· = '-')).takeWhile Char.isDigit
  if digits.isEmpty then none else some (rest.takeWhile (· = '-') ++ digits)

/-- `__ATTR_RE`. A newline may follow the attribute. -/
def attributeGroup (element : List Char) : Option (List Char) :=
  let line := if element.getLast? = some '\n' then element.dropLast else element
  let group := line.rtakeWhile isWordChar
  if line.contains '\n' ∨ group.isEmpty ∨ (line.rdropWhile isWordChar).getLast? ≠ some '.' then none
  else some group

/-! ### Searching by a path -/

/-- What is found: an object, or the value of an attribute. -/
inductive Found (T V : Type)
  | object (node : Node T)
  | value (v : V)

/-- The part of a path up to the next slash, after two slashes or one. -/
structure Step where
  deep : Bool
  element : List Char
deriving DecidableEq

/-- The steps for what follows the first slash, or the slash after a step. -/
def laterSteps : List (List Char) → List Step
  | [] => []
  | [[]] => []
  | [] :: element :: rest => ⟨true, element⟩ :: laterSteps rest
  | element :: rest => ⟨false, element⟩ :: laterSteps rest

/-- The steps of a path, of which there is one at least. -/
def stepsOf (path : List Char) : Option (Step × List Step) :=
  match path.splitOn '/' with
  | [] :: [] :: element :: rest => some (⟨true, element⟩, laterSteps rest)
  | [] :: element :: rest => some (⟨false, element⟩, laterSteps rest)
  | _ => none

variable {T V : Type}

section Search

variable (classes : Classes T) (locate : List Char → Option classes.Class)
  (getattr : Found T V → List Char → Option V)

/-- The arguments that an element of a path stands for. -/
structure Kwargs where
  name : Option (List Char)
  classType : Option classes.Class
  maxCount : Option ℤ
  maxDepth : Option ℤ
  attr : Option (List Char)

/-- `int` of a group, if there is one. -/
def intGroup : Option (List Char) → Except PathError (Option ℤ)
  | none => .ok none
  | some group =>
    match Text.parseInt group with
    | none => .error .valueError
    | some n => .ok (some n)

/-- The class of a group, if there is one. -/
def locateGroup : Option (List Char) → Except PathError (Option classes.Class)
  | none => .ok none
  | some group =>
    match locate group with
    | none => .error (.invalidClass group)
    | some classType => .ok (some classType)

/-- `__convert_to_kwargs`. -/
def convertToKwargs (element : List Char) : Except PathError (Kwargs classes) := do
  let name := (nameGroup element).map PercentCoding.unquote
  let classType ← locateGroup classes locate (bracketed '@' classGroup element)
  let classType := if name.isNone && classType.isNone then some classes.dataObjectBase
    else classType
  let maxCount ← intGroup (bracketed '#' numberGroup element)
  let maxDepth ← intGroup (bracketed '?' numberGroup element)
  pure ⟨name, classType, maxCount, maxDepth, attributeGroup element⟩

/-- What is found below each child, without those that raise `ObjectNotFoundError`. -/
def findEach (find : Node T → Except PathError (List (Found T V))) : List (Node T) →
    Except PathError (List (Found T V))
  | [] => .ok []
  | child :: rest =>
    match find child with
    | .error (.search .objectNotFoundError) => findEach find rest
    | .error error => .error error
    | .ok found => (findEach find rest).map (found ++ ·)

/-- The values of an attribute of what was found, if one is asked for. -/
def attributesOf (attr : Option (List Char)) (matched : List (Found T V)) :
    Except PathError (List (Found T V)) :=
  match attr with
  | none => .ok matched
  | some attr => matched.mapM fun found ↦
    match getattr found attr with
    | none => .error (.attributeError attr)
    | some v => .ok (.value v)

/-- An attribute that may be asked for. -/
def checkAttribute : Option (List Char) → Except PathError Unit
  | some ('_' :: rest) => .error (.attributeError ('_' :: rest))
  | _ => .ok ()

/-- One step of `find_path`, with the search for the rest of the path below a child. -/
def findStep (find : Node T → Except PathError (List (Found T V))) (step : Step) (node : Node T) :
    Except PathError (List (Found T V)) := do
  let kwargs ← convertToKwargs classes locate step.element
  checkAttribute kwargs.attr
  let children ← (getDescendants classes kwargs.name kwargs.classType
    (if step.deep then kwargs.maxDepth else some 1)
    kwargs.maxCount false node).mapError PathError.search
  let matched ← findEach find children
  attributesOf getattr kwargs.attr matched

/-- The steps of `find_path` from an object on. -/
def findSteps (step : Step) : List Step → Node T → Except PathError (List (Found T V))
  | [], node => findStep classes locate getattr (fun child ↦ .ok [.object child]) step node
  | next :: rest, node => findStep classes locate getattr (findSteps next rest) step node

/-- `find_path`. -/
def findPath (node : Node T) (path : List Char) (notFoundIsErr : Bool) :
    Except PathError (List (Found T V)) :=
  match stepsOf path with
  | none => .error (.invalidPath path)
  | some (step, rest) =>
    (findSteps classes locate getattr step rest node).bind fun found ↦
      if found.isEmpty ∧ notFoundIsErr then .error (.search .objectNotFoundError) else .ok found

end Search

/-! ### What is asked of the path of an object -/

/-- The names from an object down to one below it. -/
inductive Chain : Node T → List (Option (List Char)) → Node T → Prop
  | nil (node : Node T) : Chain node [] node
  | cons {node child below : Node T} {names : List (Option (List Char))} : child ∈ node.children →
      Chain child names below → Chain node (child.name :: names) below

/-- An object is found by its path, with nothing but objects with the same chain of names. -/
def FindsItself (classes : Classes T) (locate : List Char → Option classes.Class)
    (getattr : Found T V → List Char → Option V) (root : Node T) (names : List (List Char))
    (node : Node T) : Prop :=
  ∃ path found, objectPath names = .ok path ∧
    findPath classes locate getattr root path false = .ok found ∧
    .object node ∈ found ∧ ∀ result ∈ found, ∃ other, result = .object other ∧
      Chain root (names.map some) other

/-- A name that is encoded and read back: it has no point in it, or it begins with one and does not
end in one and a word. -/
def IsReadBack (name : List Char) : Prop :=
  (∀ c ∈ name, c.toNat < 256) ∧ ('.' ∉ name ∨
    name.head? = some '.' ∧ attributeGroup (PercentCoding.quote isAlwaysSafe name) = none)

/-- The names that are searched for with the encoded name, which are all if it begins with a point.
-/
def SearchedBy (name : List Char) (found : Option (List Char)) : Prop :=
  name.head? = some '.' ∨ found = some name

/-! ### Encoded names -/

section Encoded

variable {name : List Char}

theorem notMem_quoted (hbytes : ∀ c ∈ name, c.toNat < 256) {c : Char}
    (hsafe : isAlwaysSafe c = false)
    (hhex : c ∉ "%0123456789ABCDEF".toList) : c ∉ PercentCoding.quote isAlwaysSafe name := by
  intro hmem
  rcases PercentCoding.mem_quote hbytes hmem with ⟨-, h⟩ | h
  · exact Bool.false_ne_true (hsafe.symm.trans h)
  · exact hhex h

theorem point_mem_quoted_iff (hbytes : ∀ c ∈ name, c.toNat < 256) :
    '.' ∈ PercentCoding.quote isAlwaysSafe name ↔ '.' ∈ name := by
  constructor
  · intro hmem
    rcases PercentCoding.mem_quote hbytes hmem with ⟨h, -⟩ | h
    · exact h
    · exact absurd h (by decide)
  · exact fun hmem ↦ PercentCoding.mem_quote_of_safe hmem (by decide)

theorem quoted_ne_nil (h : name ≠ []) : PercentCoding.quote isAlwaysSafe name ≠ [] := by
  obtain ⟨c, rest, rfl⟩ := List.exists_cons_of_ne_nil h
  intro hnil
  have hfirst := (List.append_eq_nil_iff.mp (PercentCoding.quote_append [c] rest ▸ hnil)).1
  rw [PercentCoding.quote, List.flatMap_singleton, PercentCoding.quoteChar] at hfirst
  split_ifs at hfirst

theorem afterMarks_of_notMem (mark : Char) {line : List Char} (h : '[' ∉ line) :
    afterMarks mark false line = [] := by
  induction line with
  | nil => rfl
  | cons c rest ih =>
    obtain ⟨hc, hrest⟩ := not_or.mp (mt List.mem_cons.mpr h)
    rw [afterMarks, if_neg (fun hboth ↦ Bool.false_ne_true hboth.1), Bool.false_or,
      decide_eq_false (Ne.symm hc), List.nil_append, ih hrest]

theorem bracketed_of_notMem (mark : Char) (group : List Char → Option (List Char))
    {element : List Char} (h : '[' ∉ element) : bracketed mark group element = none := by
  rw [bracketed, afterMarks_of_notMem mark fun hmem ↦ h ((List.takeWhile_sublist _).subset hmem)]
  rfl

/-- The name that is searched for. -/
def wantedName (name : List Char) : Option (List Char) :=
  (nameGroup (PercentCoding.quote isAlwaysSafe name)).map PercentCoding.unquote

theorem quote_eq_append_of_mem (h : '.' ∈ name) : PercentCoding.quote isAlwaysSafe name =
    PercentCoding.quote isAlwaysSafe (name.takeWhile (· ≠ '.')) ++ '.' ::
      PercentCoding.quote isAlwaysSafe (name.dropWhile (· ≠ '.')).tail := by
  have hne : name.dropWhile (· ≠ '.') ≠ [] := fun hnil ↦
    Bool.false_ne_true ((decide_eq_false (not_not.mpr rfl)).symm.trans
      (List.dropWhile_eq_nil_iff.mp hnil '.' h))
  have hhead : (name.dropWhile (· ≠ '.')).head hne = '.' := by
    have hnot := List.head_dropWhile_not (fun c ↦ decide (c ≠ '.')) hne
    exact not_not.mp (of_decide_eq_false hnot)
  conv_lhs => rw [← List.takeWhile_append_dropWhile (p := (· ≠ '.')) (l := name),
    ← List.cons_head_tail hne, hhead, PercentCoding.quote_append]
  rfl

/-- A name without a point is searched for, and of another one what is before the point. -/
theorem wantedName_eq (hbytes : ∀ c ∈ name, c.toNat < 256) :
    wantedName name = if name.takeWhile (· ≠ '.') = [] then none
    else some (name.takeWhile (· ≠ '.')) := by
  have hbefore : ∀ c ∈ name.takeWhile (· ≠ '.'), c.toNat < 256 :=
    fun c hc ↦ hbytes c ((List.takeWhile_sublist _).subset hc)
  have hpoint : '.' ∉ name.takeWhile (· ≠ '.') := by
    intro hmem
    have hnot := List.mem_takeWhile_imp hmem
    exact of_decide_eq_true hnot rfl
  have hgroup : (PercentCoding.quote isAlwaysSafe name).takeWhile (fun c ↦
      !(c = '[' || c = ']' || c = '.')) =
      PercentCoding.quote isAlwaysSafe (name.takeWhile (· ≠ '.')) := by
    have hall : ∀ c ∈ PercentCoding.quote isAlwaysSafe (name.takeWhile (· ≠ '.')),
        (!(decide (c = '[') || decide (c = ']') || decide (c = '.'))) = true := by
      intro c hc
      have hopen : c ≠ '[' := fun heq ↦ notMem_quoted hbefore (by decide) (by decide) (heq ▸ hc)
      have hclose : c ≠ ']' := fun heq ↦ notMem_quoted hbefore (by decide) (by decide) (heq ▸ hc)
      have hdot : c ≠ '.' := fun heq ↦ hpoint ((point_mem_quoted_iff hbefore).mp (heq ▸ hc))
      simp [hopen, hclose, hdot]
    by_cases hmem : '.' ∈ name
    · rw [quote_eq_append_of_mem hmem, List.takeWhile_append_of_pos hall]
      simp
    · have heq : name.takeWhile (· ≠ '.') = name :=
        List.takeWhile_eq_self_iff.mpr fun c hc ↦ decide_eq_true fun heq ↦ hmem (heq ▸ hc)
      rw [heq] at hall ⊢
      exact List.takeWhile_eq_self_iff.mpr hall
  rw [wantedName, nameGroup, hgroup]
  by_cases hnil : name.takeWhile (· ≠ '.') = []
  · rw [if_pos hnil, hnil]
    rfl
  · rw [if_neg hnil, if_neg (by rw [List.isEmpty_iff]; exact quoted_ne_nil hnil), Option.map_some,
      PercentCoding.unquote_quote (by decide) hbefore]

end Encoded

/-! ### One step -/

section Steps

variable {classes : Classes T} {locate : List Char → Option classes.Class}
  {getattr : Found T V → List Char → Option V}

/-- The names that the encoded name is read as. -/
def Wanted (name : List Char) (found : Option (List Char)) : Prop :=
  wantedName name = none ∨ found = wantedName name

variable {name : List Char}

theorem convertToKwargs_quoted (hbytes : ∀ c ∈ name, c.toNat < 256) :
    convertToKwargs classes locate (PercentCoding.quote isAlwaysSafe name) =
      .ok ⟨wantedName name, if (wantedName name).isNone then some classes.dataObjectBase
        else none, none, none, attributeGroup (PercentCoding.quote isAlwaysSafe name)⟩ := by
  have hopen : '[' ∉ PercentCoding.quote isAlwaysSafe name :=
    notMem_quoted hbytes (by decide) (by decide)
  rw [convertToKwargs, bracketed_of_notMem _ _ hopen, bracketed_of_notMem _ _ hopen,
    bracketed_of_notMem _ _ hopen]
  show Except.ok (Kwargs.mk (wantedName name) _ none none _) = _
  rw [Option.isNone_none, Bool.and_true]
  rfl

theorem listing_children (name : Option (List Char)) (classType : Option classes.Class)
    (node : Node T) :
    listing name classType (some 1) node = node.children.filter (meets name classType) := by
  obtain ⟨own, type, children⟩ := node
  rw [listing, preorder, Node.children]
  induction children with
  | nil => rfl
  | cons child rest ih =>
    have hdeep : ((preorder 1 child).filter fun entry ↦
        within (some 1) entry.1 && meets name classType entry.2) = [] := by
      refine List.filter_eq_nil_iff.mpr fun entry hentry hboth ↦ ?_
      have hlt := lt_of_mem_preorder hentry
      have hwithin := (Bool.and_eq_true_iff.mp hboth).1
      rw [within, Option.all_some, Bool.or_eq_true, decide_eq_true_iff,
        decide_eq_true_iff] at hwithin
      omega
    rw [preorderEach, List.filter_cons, List.filter_append, hdeep, List.nil_append]
    have hone : within (some 1) (0 + 1) = true := rfl
    rw [hone, Bool.true_and, List.filter_cons]
    split_ifs
    · rw [List.map_cons, ih]
    · exact ih

theorem getDescendants_wanted (name : List Char) (node : Node T) :
    getDescendants classes (wantedName name)
    (if (wantedName name).isNone then some classes.dataObjectBase else none)
      (some 1) none false node =
      .ok (node.children.filter fun child ↦ (wantedName name).all fun wanted ↦
        child.name = some wanted) := by
  have hcheck : checkArguments classes (wantedName name)
      (if (wantedName name).isNone then some classes.dataObjectBase
          else none) (some 1) none = .ok () := by
    cases wantedName name <;> rfl
  rw [getDescendants_of_checked node _ _ _ _ _ hcheck rfl fun _ hcount ↦
    absurd hcount.symm (Option.some_ne_none _),
    Bool.false_and, if_neg Bool.false_ne_true, takeAtMost, listing_children]
  · refine congrArg _ (List.filter_congr fun child hchild ↦ ?_)
    cases wantedName name with
    | none => exact (Bool.true_and _).trans (classes.isinstance_dataObjectBase _)
    | some wanted => exact Bool.and_true _

variable {find : Node T → Except PathError (List (Found T V))}

theorem findEach_of_ok {result : Node T → List (Found T V)}
    {children : List (Node T)} (h : ∀ child ∈ children, find child = .ok (result child)) :
    findEach find children = .ok (children.flatMap result) := by
  induction children with
  | nil => rfl
  | cons child rest ih =>
    rw [List.forall_mem_cons] at h
    rw [findEach, h.1, ih h.2]
    rfl

/-- The step for a name. -/
def stepFor (name : List Char) : Step :=
  ⟨false, PercentCoding.quote isAlwaysSafe name⟩

/-- The objects that are reached by names from an object on. -/
def reached : List (List Char) → Node T → List (Node T)
  | [], node => [node]
  | name :: rest, node =>
    (node.children.filter fun child ↦ (wantedName name).all fun wanted ↦
      child.name = some wanted).flatMap (reached rest)

theorem wanted_iff {found : Option (List Char)} :
    ((wantedName name).all fun wanted ↦ found = some wanted) = true ↔ Wanted name found := by
  rw [Wanted]
  cases wantedName name with
  | none => exact iff_of_true rfl (.inl rfl)
  | some wanted => exact decide_eq_true_iff.trans (or_iff_right (Option.some_ne_none wanted)).symm

theorem mem_reached_iff {names : List (List Char)} {node other : Node T} :
    other ∈ reached names node ↔ ∃ names', Chain node names' other ∧
    List.Forall₂ Wanted names names' := by
  induction names generalizing node with
  | nil =>
    constructor
    · intro h
      obtain rfl := List.mem_singleton.mp h
      exact ⟨[], .nil _, .nil⟩
    · rintro ⟨names', hchain, hwanted⟩
      obtain rfl := List.forall₂_nil_left_iff.mp hwanted
      cases hchain
      exact List.mem_singleton_self _
  | cons name rest ih =>
    rw [reached, List.mem_flatMap]
    constructor
    · rintro ⟨child, hchild, hother⟩
      obtain ⟨hmem, hwanted⟩ := List.mem_filter.mp hchild
      obtain ⟨names', hchain, hrest⟩ := ih.mp hother
      exact ⟨child.name :: names', .cons hmem hchain, .cons (wanted_iff.mp hwanted) hrest⟩
    · rintro ⟨names', hchain, hwanted⟩
      cases hwanted with
      | cons hfirst hrest =>
        cases hchain with
        | cons hmem hbelow => exact ⟨_, List.mem_filter.mpr ⟨hmem, wanted_iff.mpr hfirst⟩,
          ih.mpr ⟨_, hbelow, hrest⟩⟩

theorem findStep_eq (hbytes : ∀ c ∈ name, c.toNat < 256) (node : Node T) :
    findStep classes locate getattr find (stepFor name) node =
      (checkAttribute (attributeGroup (PercentCoding.quote isAlwaysSafe name))).bind fun _ ↦
        (findEach find (node.children.filter fun child ↦ (wantedName name).all fun wanted ↦
          child.name = some wanted)).bind
            (attributesOf getattr (attributeGroup (PercentCoding.quote isAlwaysSafe name))) := by
  rw [findStep, stepFor, convertToKwargs_quoted hbytes]
  show (checkAttribute _).bind (fun _ ↦
    Except.bind (Except.mapError PathError.search (getDescendants classes
    (wantedName name) (if (wantedName name).isNone then some classes.dataObjectBase
      else none) (some 1) none false node))
    fun children ↦ _) = _
  rw [getDescendants_wanted]
  rfl

variable {rest : List (List Char)}

/-- Without attributes the objects are found that are reached. -/
theorem findSteps_of_none (hbytes : ∀ name' ∈ name :: rest, ∀ c ∈ name', c.toNat < 256)
    (hnone : ∀ name' ∈ name :: rest, attributeGroup (PercentCoding.quote isAlwaysSafe name') = none)
    (node : Node T) :
    findSteps classes locate getattr (stepFor name) (rest.map stepFor) node =
      .ok ((reached (name :: rest) node).map .object) := by
  induction rest generalizing name node with
  | nil =>
    rw [List.map_nil, findSteps, findStep_eq (hbytes name List.mem_cons_self),
      hnone name List.mem_cons_self,
      findEach_of_ok fun child _ ↦ (rfl : _ = Except.ok ((fun child ↦ [Found.object child]) child))]
    show Except.ok _ = _
    rw [reached, List.map_flatMap]
    rfl
  | cons next rest ih =>
    rw [List.map_cons, findSteps, findStep_eq (hbytes name List.mem_cons_self),
      hnone name List.mem_cons_self,
      findEach_of_ok fun child hchild ↦ ih (fun name' h ↦ hbytes name' (List.mem_cons_of_mem _ h))
        (fun name' h ↦ hnone name' (List.mem_cons_of_mem _ h)) child]
    show Except.ok _ = _
    rw [reached, List.map_flatMap]

/-- A search finds no objects. -/
def FindsNoObject (result : Except PathError (List (Found T V))) : Prop :=
  ∀ found, result = .ok found → ∀ other, .object other ∉ found

theorem findsNoObject_findEach (h : ∀ node, FindsNoObject (find node))
    (children : List (Node T)) : FindsNoObject (findEach find children) := by
  induction children with
  | nil =>
    intro found hok other hmem
    cases hok
    cases hmem
  | cons child rest ih =>
    intro found hok other hmem
    rw [findEach] at hok
    split at hok
    · exact ih found hok other hmem
    · cases hok
    · next first hfirst =>
      cases hrest : findEach find rest with
      | error error =>
        rw [hrest] at hok
        cases hok
      | ok found' =>
        rw [hrest] at hok
        obtain rfl := Except.ok.inj hok
        rcases List.mem_append.mp hmem with hleft | hright
        · exact h child first hfirst other hleft
        · exact ih found' hrest other hright

theorem findsNoObject_attributesOf {attr : Option (List Char)} {matched : List (Found T V)}
    (h : attr ≠ none ∨ ∀ other, .object other ∉ matched) :
    FindsNoObject (attributesOf getattr attr matched) := by
  intro found hok other hmem
  cases attr with
  | none =>
    cases hok
    exact h.resolve_left (fun hne ↦ hne rfl) other hmem
  | some attr =>
    have hmap := Library.Program.mapM_eq_ok_iff.mp hok
    have hobject : (.ok (.object other) : Except PathError (Found T V)) ∈ found.map .ok :=
      List.mem_map_of_mem hmem
    rw [← hmap] at hobject
    obtain ⟨source, -, hsource⟩ := List.mem_map.mp hobject
    split at hsource <;> cases hsource

theorem findsNoObject_findStep (hbytes : ∀ c ∈ name, c.toNat < 256) (node : Node T)
    (h : attributeGroup (PercentCoding.quote isAlwaysSafe name) ≠ none ∨ ∀ node,
      FindsNoObject (find node)) :
    FindsNoObject (findStep classes locate getattr find (stepFor name) node) := by
  intro found hok
  rw [findStep_eq hbytes] at hok
  obtain ⟨-, -, hok⟩ := Library.Program.bind_eq_ok hok
  obtain ⟨matched, hmatched, hok⟩ := Library.Program.bind_eq_ok hok
  exact findsNoObject_attributesOf (h.imp_right fun hnone ↦
    findsNoObject_findEach hnone _ matched hmatched) found hok

/-- With an attribute at one of the names no objects are found. -/
theorem findsNoObject_findSteps (hbytes : ∀ name' ∈ name :: rest, ∀ c ∈ name', c.toNat < 256)
    (h : ∃ name' ∈ name :: rest, attributeGroup (PercentCoding.quote isAlwaysSafe name') ≠ none)
    (node : Node T) :
    FindsNoObject (findSteps classes locate getattr (stepFor name) (rest.map stepFor) node) := by
  induction rest generalizing name node with
  | nil =>
    obtain ⟨name', hname', hattr⟩ := h
    obtain rfl := List.mem_singleton.mp hname'
    exact findsNoObject_findStep (hbytes name' List.mem_cons_self) node (.inl hattr)
  | cons next rest ih =>
    refine findsNoObject_findStep (hbytes name List.mem_cons_self) node ?_
    obtain ⟨name', hname', hattr⟩ := h
    rcases List.mem_cons.mp hname' with rfl | hrest
    · exact .inl hattr
    · exact .inr fun child ↦ ih (fun name' h ↦ hbytes name' (List.mem_cons_of_mem _ h)) ⟨name',
        hrest, hattr⟩ child

theorem laterSteps_of_ne_nil {pieces : List (List Char)} (h : ∀ piece ∈ pieces, piece ≠ []) :
    laterSteps pieces = pieces.map fun piece ↦ ⟨false, piece⟩ := by
  induction pieces with
  | nil => rfl
  | cons piece rest ih =>
    obtain ⟨hpiece, hrest⟩ := List.forall_mem_cons.mp h
    obtain ⟨c, tail, rfl⟩ := List.exists_cons_of_ne_nil hpiece
    rw [List.map_cons, ← ih hrest]
    cases rest <;> rfl

/-- The path of an object has a step for each name. -/
theorem stepsOf_joined (hne : ∀ name' ∈ name :: rest, name' ≠ [])
    (hbytes : ∀ name' ∈ name :: rest, ∀ c ∈ name', c.toNat < 256) :
    stepsOf (['/'].intercalate ([] :: (name :: rest).map (PercentCoding.quote isAlwaysSafe))) =
      some (stepFor name, rest.map stepFor) := by
  have hslash : ∀ piece ∈ [] :: (name :: rest).map (PercentCoding.quote isAlwaysSafe),
      '/' ∉ piece := by
    rw [List.forall_mem_cons, List.forall_mem_map]
    exact ⟨List.not_mem_nil, fun name' hname' ↦
      notMem_quoted (hbytes name' hname') (by decide) (by decide)⟩
  rw [stepsOf, List.splitOn_intercalate '/' hslash (List.cons_ne_nil _ _), List.map_cons]
  obtain ⟨c, tail, heq⟩ := List.exists_cons_of_ne_nil (quoted_ne_nil (hne name List.mem_cons_self))
  rw [heq]
  dsimp only
  rw [laterSteps_of_ne_nil, List.map_map, ← heq]
  · rfl
  · rw [List.forall_mem_map]
    exact fun name' hname' ↦ quoted_ne_nil (hne name' (List.mem_cons_of_mem _ hname'))

theorem objectPath_eq_ok_iff {names : List (List Char)} {path : List Char} :
    objectPath names = .ok path ↔
    (∀ name ∈ names, ∀ c ∈ name, c.toNat < 256) ∧
      path = ['/'].intercalate ([] :: names.map (PercentCoding.quote isAlwaysSafe)) := by
  have hmap : ∀ quoted, names.mapM quote = .ok quoted ↔
      (∀ name ∈ names, ∀ c ∈ name, c.toNat < 256) ∧
          quoted = names.map (PercentCoding.quote isAlwaysSafe) := by
    intro quoted
    rw [Library.Program.mapM_eq_ok_iff]
    induction names generalizing quoted with
    | nil =>
      rw [List.map_nil, eq_comm, List.map_eq_nil_iff]
      exact (and_iff_right fun name h ↦ absurd h List.not_mem_nil).symm
    | cons name rest ih =>
      rw [List.map_cons, List.forall_mem_cons, quote]
      cases quoted with
      | nil => exact iff_of_false (List.cons_ne_nil _ _) fun h ↦ List.cons_ne_nil _ _ h.2.symm
      | cons first others =>
        rw [List.map_cons, List.map_cons, List.cons.injEq, List.cons.injEq, ih]
        split_ifs with hall
        · rw [List.all_eq_true] at hall
          simp only [decide_eq_true_eq] at hall
          rw [Except.ok.injEq, eq_comm (a := PercentCoding.quote _ _)]
          tauto
        · rw [List.all_eq_true] at hall
          simp only [decide_eq_true_eq] at hall
          exact iff_of_false (fun h ↦ nomatch h.1) fun h ↦ hall h.1.1
  rw [objectPath]
  cases hok : names.mapM quote with
  | error error =>
    refine iff_of_false (fun h ↦ nomatch h) fun h ↦ ?_
    have hquoted := (hmap _).mpr ⟨h.1, rfl⟩
    rw [hok] at hquoted
    cases hquoted
  | ok quoted =>
    obtain ⟨hbytes, rfl⟩ := (hmap quoted).mp hok
    show Except.ok _ = _ ↔ _
    rw [Except.ok.injEq, eq_comm]
    exact (and_iff_right hbytes).symm

/-! ### Objects are found by their paths -/

/-- The search for the path of an object. -/
theorem findPath_objectPath {path : List Char} {root : Node T}
    (hne : ∀ name' ∈ name :: rest, name' ≠ []) (hpath : objectPath (name :: rest) = .ok path) :
    findPath classes locate getattr root path false =
      findSteps classes locate getattr (stepFor name) (rest.map stepFor) root := by
  obtain ⟨hbytes, rfl⟩ := objectPath_eq_ok_iff.mp hpath
  rw [findPath, stepsOf_joined hne hbytes]
  dsimp only
  cases findSteps classes locate getattr (stepFor name) (rest.map stepFor) root with
  | error error => rfl
  | ok found => exact if_neg fun h ↦ Bool.false_ne_true h.2

theorem attributeGroup_of_notMem {element : List Char} (h : '.' ∉ element) :
    attributeGroup element = none := by
  rw [attributeGroup]
  refine if_pos (.inr (.inr fun hlast ↦ h ?_))
  have hmem := List.mem_of_getLast? hlast
  have hline := (List.rdropWhile_prefix isWordChar _).subset hmem
  split_ifs at hline
  · exact (List.dropLast_sublist _).subset hline
  · exact hline

end Steps

variable {name : List Char}

theorem wantedName_eq_none_iff (hne : name ≠ []) (hbytes : ∀ c ∈ name, c.toNat < 256) :
    wantedName name = none ↔ name.head? = some '.' := by
  rw [wantedName_eq hbytes]
  obtain ⟨c, rest, rfl⟩ := List.exists_cons_of_ne_nil hne
  rw [List.head?_cons, Option.some.injEq, List.takeWhile_cons]
  by_cases hc : c = '.'
  · subst hc
    exact iff_of_true rfl rfl
  · rw [if_pos (decide_eq_true hc), if_neg (List.cons_ne_nil _ _)]
    exact iff_of_false (Option.some_ne_none _) hc

theorem wantedName_eq_self_iff (hne : name ≠ []) (hbytes : ∀ c ∈ name, c.toNat < 256) :
    wantedName name = some name ↔ '.' ∉ name := by
  rw [wantedName_eq hbytes]
  constructor
  · intro h hmem
    have hself : name.takeWhile (· ≠ '.') = name := by
      split_ifs at h
      exact Option.some.inj h
    exact of_decide_eq_true (List.takeWhile_eq_self_iff.mp hself '.' hmem) rfl
  · intro h
    have hself : name.takeWhile (· ≠ '.') = name :=
      List.takeWhile_eq_self_iff.mpr fun c hc ↦ decide_eq_true fun heq ↦ h (heq ▸ hc)
    rw [hself, if_neg hne]

/-- A name that is read back is searched for by itself, or by no name. -/
theorem wanted_iff_searchedBy (hne : name ≠ []) (h : IsReadBack name) (found : Option (List Char)) :
    Wanted name found ↔ SearchedBy name found := by
  obtain ⟨hbytes, hpoint⟩ := h
  rw [Wanted, SearchedBy, wantedName_eq_none_iff hne hbytes]
  rcases hpoint with hpoint | ⟨hhead, -⟩
  · rw [(wantedName_eq_self_iff hne hbytes).mpr hpoint]
  · exact iff_of_true (.inl hhead) (.inl hhead)

theorem forall₂_wanted_iff {names : List (List Char)} {names' : List (Option (List Char))}
    (hne : ∀ name ∈ names, name ≠ []) (hback : ∀ name ∈ names, IsReadBack name) :
    List.Forall₂ Wanted names names' ↔ List.Forall₂ SearchedBy names names' := by
  induction names generalizing names' with
  | nil => rw [List.forall₂_nil_left_iff, List.forall₂_nil_left_iff]
  | cons name rest ih =>
    rw [List.forall_mem_cons] at hne hback
    cases names' with
    | nil => exact iff_of_false (fun h ↦ nomatch h) fun h ↦ nomatch h
    | cons found others =>
      rw [List.forall₂_cons, List.forall₂_cons, wanted_iff_searchedBy hne.1 hback.1,
        ih hne.2 hback.2]

theorem attributeGroup_of_isReadBack (h : IsReadBack name) :
    attributeGroup (PercentCoding.quote isAlwaysSafe name) = none := by
  obtain ⟨hbytes, hpoint | ⟨-, hattr⟩⟩ := h
  · exact attributeGroup_of_notMem (mt (point_mem_quoted_iff hbytes).mp hpoint)
  · exact hattr

/-- An object is found by its path, and nothing else is, exactly if the names are read back, and the
objects that names with a point at the front let in have the same names. -/
theorem findsItself_iff (classes : Classes T) (locate : List Char → Option classes.Class)
    (getattr : Found T V → List Char → Option V) (root node : Node T) (names : List (List Char))
    (hnames : names ≠ [])
    (hne : ∀ name ∈ names, name ≠ []) (hchain : Chain root (names.map some) node)
    (hone : ∀ names', Chain root names' node → names' = names.map some) :
    FindsItself classes locate getattr root names node ↔ (∀ name ∈ names, IsReadBack name) ∧
      ∀ names' other, Chain root names' other → List.Forall₂ SearchedBy names names' →
        Chain root (names.map some) other := by
  obtain ⟨first, rest, rfl⟩ := List.exists_cons_of_ne_nil hnames
  constructor
  · rintro ⟨path, found, hpath, hfind, hmem, hall⟩
    have hbytes := (objectPath_eq_ok_iff.mp hpath).1
    rw [findPath_objectPath hne hpath] at hfind
    have hattr : ∀ name ∈ first :: rest,
        attributeGroup (PercentCoding.quote isAlwaysSafe name) = none := by
      by_contra hnot
      rw [not_forall] at hnot
      obtain ⟨name, hnot⟩ := hnot
      rw [Classical.not_imp] at hnot
      exact findsNoObject_findSteps hbytes ⟨name, hnot⟩ root found hfind node hmem
    rw [findSteps_of_none hbytes hattr] at hfind
    obtain rfl := Except.ok.inj hfind
    have hback : ∀ name ∈ first :: rest, IsReadBack name := by
      obtain ⟨node', hnode', heq⟩ := List.mem_map.mp hmem
      obtain rfl := Found.object.inj heq
      obtain ⟨names', hchain', hwanted⟩ := mem_reached_iff.mp hnode'
      rw [hone names' hchain', List.forall₂_map_right_iff, List.forall₂_same] at hwanted
      refine fun name hname ↦ ⟨hbytes name hname, ?_⟩
      rcases hwanted name hname with hnone | hself
      · exact .inr ⟨(wantedName_eq_none_iff (hne name hname) (hbytes name hname)).mp hnone,
          hattr name hname⟩
      · exact .inl ((wantedName_eq_self_iff (hne name hname) (hbytes name hname)).mp hself.symm)
    refine ⟨hback, fun names' other hother hsearched ↦ ?_⟩
    have hreached : other ∈ reached (first :: rest) root :=
      mem_reached_iff.mpr ⟨names', hother, (forall₂_wanted_iff hne hback).mpr hsearched⟩
    obtain ⟨other', heq, hother'⟩ := hall _ (List.mem_map_of_mem hreached)
    obtain rfl := Found.object.inj heq
    exact hother'
  · rintro ⟨hback, hsame⟩
    have hbytes : ∀ name ∈ first :: rest, ∀ c ∈ name, c.toNat < 256 := fun name hname ↦
      (hback name hname).1
    have hpath := objectPath_eq_ok_iff.mpr ⟨hbytes, rfl⟩
    have hattr := fun name hname ↦ attributeGroup_of_isReadBack (hback name hname)
    refine ⟨_, _, hpath, (findPath_objectPath hne hpath).trans
      (findSteps_of_none hbytes hattr root), ?_, ?_⟩
    · refine List.mem_map_of_mem (mem_reached_iff.mpr ⟨_, hchain, ?_⟩)
      rw [List.forall₂_map_right_iff, List.forall₂_same]
      exact fun name hname ↦
        (wanted_iff_searchedBy (hne name hname) (hback name hname) _).mpr (.inr rfl)
    · rw [List.forall_mem_map]
      intro other hother
      obtain ⟨names', hchain', hwanted⟩ := mem_reached_iff.mp hother
      exact ⟨other, rfl, hsame names' other hchain' ((forall₂_wanted_iff hne hback).mp hwanted)⟩

/-- The objects of one class. -/
def plainClasses : Classes Unit where
  Class := Unit
  isinstance _ _ := true
  dataObjectBase := ()
  isinstance_dataObjectBase _ := rfl

/-- A root with one child. -/
def parentOf (name : List Char) : Node Unit :=
  .object none () [.object (some name) () []]

theorem parentOf_chain (name : List Char) :
    Chain (parentOf name) [some name] (.object (some name) () []) := by
  have hmem : .object (some name) () [] ∈ (parentOf name).children := List.mem_cons_self
  exact Chain.cons hmem (.nil _)

/-- The child has one chain of names. -/
theorem chain_parentOf {name : List Char} {names' : List (Option (List Char))}
    (h : Chain (parentOf name) names' (.object (some name) () [])) : names' = [some name] := by
  cases h with
  | cons hchild hbelow =>
    obtain rfl := List.mem_singleton.mp hchild
    cases hbelow with
    | nil => rfl
    | cons hnone hbelow => cases hnone

/-- A name with a slash and brackets. -/
theorem findsItself_brackets :
    FindsItself plainClasses (fun _ ↦ some ()) (fun _ _ ↦ (none : Option Unit))
    (parentOf "a/b[@c]".toList) ["a/b[@c]".toList] (.object (some "a/b[@c]".toList) () []) := by
  refine (findsItself_iff plainClasses _ _ _ _ _ (List.cons_ne_nil _ _) (by decide)
    (parentOf_chain _) fun names' ↦ chain_parentOf).mpr ⟨?_, ?_⟩
  · rw [List.forall_mem_singleton]
    have hbytes : ("a/b[@c]".toList.all fun c ↦ decide (c.toNat < 256)) = true := by decide
    exact ⟨fun c hc ↦ of_decide_eq_true (List.all_eq_true.mp hbytes c hc), .inl (by decide)⟩
  · intro names' other hchain hsearched
    obtain ⟨found, rest, hfound, hrest, rfl⟩ := List.forall₂_cons_left_iff.mp hsearched
    obtain rfl := List.forall₂_nil_left_iff.mp hrest
    obtain rfl := hfound.resolve_left (by decide)
    exact hchain

/-- A name with a point is read as the name before the point, with an attribute. -/
theorem not_findsItself_point :
    Chain (parentOf "a.b".toList) [some "a.b".toList] (.object (some "a.b".toList) () []) ∧
    ¬ FindsItself plainClasses (fun _ ↦ some ()) (fun _ _ ↦ (none : Option Unit))
      (parentOf "a.b".toList) ["a.b".toList] (.object (some "a.b".toList) () []) := by
  refine ⟨parentOf_chain _, ?_⟩
  rintro ⟨path, found, hpath, hfind, hmem, -⟩
  obtain ⟨hbytes, rfl⟩ := objectPath_eq_ok_iff.mp hpath
  have hnone : findPath plainClasses (fun _ ↦ some ()) (fun _ _ ↦ (none : Option Unit))
      (parentOf "a.b".toList)
      "/a.b".toList false = .ok [] := rfl
  obtain rfl := Except.ok.inj (hnone.symm.trans hfind)
  cases hmem

end Userland.Install.DataObject
