import Userland.Install.DataObject.FindPath
import Userland.Library.Substitution

/-!
# References to paths in texts

`str_replace_paths_refs` finds the references of a text, and replaces the first place of each by the
values that are found at its path. `strReplacePathsRefs_of_undisturbed` says when every reference is
replaced at its own place.

Scope: `str`, `repr` and `isinstance(value, basestring)` are parameters.
-/

set_option autoImplicit false
set_option relaxedAutoImplicit false

namespace Userland.Install.DataObject

open Userland.Library.Substitution

/-! ### The references of a text -/

/-- The path of `%{([^}]+)}` at the front of a text. -/
def referenceAt : List Char → Option (List Char)
  | '%' :: '{' :: rest =>
    let path := rest.takeWhile (· ≠ '}')
    if path ≠ [] ∧ path.length < rest.length then some path else none
  | _ => none

/-- The scan of `re.finditer` over a text, of which some characters still belong to a match. -/
def piecesFrom : ℕ → List Char → List (Piece Char (List Char))
  | _, [] => []
  | skip + 1, _ :: rest => piecesFrom skip rest
  | 0, c :: rest =>
    match referenceAt (c :: rest) with
    | some path => .reference path :: piecesFrom (path.length + 2) rest
    | none => .char c :: piecesFrom 0 rest

/-- The parts of a text for `__STRING_REPLACEMENT_RE`. -/
def finditer (text : List Char) : List (Piece Char (List Char)) :=
  piecesFrom 0 text

/-- `matches.group(0)` for a path. -/
def group (path : List Char) : List Char :=
  '%' :: '{' :: path ++ ['}']

variable {T V : Type}

section Replace

variable (classes : Classes T) (locate : List Char → Option classes.Class)
  (getattr : Found T V → List Char → Option V)

/-- `str`, `repr` and the test for strings. -/
structure Values (T V : Type) where
  str : Found T V → List Char
  repr : Found T V → List Char
  isString : Found T V → Bool

/-- The text of a value. -/
def newValStr (values : Values T V) (quote : Bool) (value : Found T V) : List Char :=
  let quoteStr := if quote then ['\''] else []
  if quote && values.isString value then values.repr value
  else quoteStr ++ values.str value ++ quoteStr

/-- The text of the values that were found. -/
def valueStr (values : Values T V) (valueSeparator : List Char) (quote : Bool)
    (foundList : List (Found T V)) :
    List Char :=
  foundList.foldl (fun valueStr value ↦
    if valueStr = [] then newValStr values quote value
    else valueStr ++ (valueSeparator ++ newValStr values quote value)) []

/-- The text for a reference. -/
def resolve (values : Values T V) (valueSeparator : List Char) (quote : Bool) (node : Node T)
    (path : List Char) :
    Except PathError (List Char) :=
  (findPath classes locate getattr node path true).map (valueStr values valueSeparator quote)

/-- `str_replace_paths_refs`. -/
def strReplacePathsRefs (values : Values T V) (node : Node T)
    (origString valueSeparator : List Char) (quote : Bool) :
    Except PathError (List Char) :=
  (references (finditer origString)).foldlM (fun newString path ↦ do
    let valueStr ← resolve classes locate getattr values valueSeparator quote node path
    pure (replaceFirst (group path) valueStr newString)) origString

end Replace

/-! ### References are replaced at their places -/

theorem referenceAt_eq_some {text path : List Char} (h : referenceAt text = some path) :
    '}' ∉ path ∧ ∃ rest, text = group path ++ rest := by
  unfold referenceAt at h
  split at h
  · next rest =>
    dsimp only at h
    split_ifs at h with hpath
    obtain rfl := Option.some.inj h
    refine ⟨fun hmem ↦ ?_, ?_⟩
    · have hnot := List.mem_takeWhile_imp hmem
      exact of_decide_eq_true hnot rfl
    · have hne : rest.dropWhile (· ≠ '}') ≠ [] := by
        intro hnil
        have happend := congrArg List.length (List.takeWhile_append_dropWhile (p :=
          fun c : Char ↦ decide (c ≠ '}')) (l := rest))
        rw [hnil, List.append_nil] at happend
        omega
      have hhead : (rest.dropWhile (· ≠ '}')).head hne = '}' := by
        have hnot := List.head_dropWhile_not (fun c ↦ decide (c ≠ '}')) hne
        exact not_not.mp (of_decide_eq_false hnot)
      refine ⟨(rest.dropWhile (· ≠ '}')).tail, ?_⟩
      conv_lhs => rw [← List.takeWhile_append_dropWhile (p := (· ≠ '}')) (l := rest),
        ← List.cons_head_tail hne, hhead]
      rw [group, List.cons_append, List.cons_append, List.cons_append, List.cons_append,
        List.append_assoc, List.singleton_append]
  · cases h

/-- The parts spell the text. -/
theorem render_piecesFrom (skip : ℕ) (text : List Char) :
    render group (piecesFrom skip text) = text.drop skip := by
  induction text generalizing skip with
  | nil => cases skip <;> rfl
  | cons c rest ih =>
    cases skip with
    | succ skip => exact ih skip
    | zero =>
      rw [piecesFrom]
      split
      · next path hpath =>
        obtain ⟨-, after, hafter⟩ := referenceAt_eq_some hpath
        show group path ++ render group (piecesFrom (path.length + 2) rest) = c :: rest
        rw [ih, hafter]
        have hrest : rest = '{' :: path ++ ['}'] ++ after := (List.cons.inj hafter).2
        have hlength : path.length + 2 = ('{' :: path ++ ['}']).length := by
          rw [List.cons_append, List.length_cons, List.length_append, List.length_singleton]
        rw [hrest, hlength, List.drop_left]
      · show c :: render group (piecesFrom 0 rest) = c :: rest
        rw [ih, List.drop_zero]

theorem notMem_of_mem_references {skip : ℕ} {text path : List Char}
    (h : path ∈ references (piecesFrom skip text)) :
    '}' ∉ path := by
  induction text generalizing skip with
  | nil => cases skip <;> cases h
  | cons c rest ih =>
    cases skip with
    | succ skip => exact ih h
    | zero =>
      rw [piecesFrom] at h
      split at h
      · next path' hpath =>
        rcases List.mem_cons.mp h with rfl | hrest
        · exact (referenceAt_eq_some hpath).1
        · exact ih hrest
      · exact ih h

theorem closed_group {path : List Char} (h : '}' ∉ path) : Closed (group path) := by
  refine ⟨'%' :: '{' :: path, '}', rfl, ?_⟩
  rw [List.mem_cons, List.mem_cons, not_or, not_or]
  exact ⟨by decide, by decide, h⟩

/-- If all references resolve, their texts are replaced one after the other. -/
theorem strReplacePathsRefs_eq {classes : Classes T} {locate : List Char → Option classes.Class}
    {getattr : Found T V → List Char → Option V} {values : Values T V} {node : Node T}
    {origString valueSeparator : List Char} {quote : Bool} {value : List Char → List Char}
    (hresolve : ∀ path ∈ references (finditer origString),
      resolve classes locate getattr values valueSeparator quote node path = .ok (value path)) :
    strReplacePathsRefs classes locate getattr values node origString valueSeparator quote =
      .ok ((references (finditer origString)).foldl
        (fun new path ↦ replaceFirst (group path) (value path) new) origString) := by
  rw [strReplacePathsRefs]
  generalize references (finditer origString) = paths at hresolve ⊢
  generalize origString = newString
  induction paths generalizing newString with
  | nil => rfl
  | cons path rest ih =>
    rw [List.forall_mem_cons] at hresolve
    rw [List.foldlM_cons, hresolve.1, List.foldl_cons]
    exact ih hresolve.2 _

/-- Every reference is replaced at its place, if what comes before it has its text nowhere. -/
theorem strReplacePathsRefs_of_undisturbed (classes : Classes T)
    (locate : List Char → Option classes.Class)
    (getattr : Found T V → List Char → Option V) (values : Values T V) (node : Node T)
    (origString valueSeparator : List Char) (quote : Bool) (value : List Char → List Char)
    (hresolve : ∀ path ∈ references (finditer origString),
      resolve classes locate getattr values valueSeparator quote node path = .ok (value path))
    (h : Undisturbed group value (finditer origString)) :
    strReplacePathsRefs classes locate getattr values node origString valueSeparator quote =
      .ok (render value (finditer origString)) := by
  have hspelled : render group (finditer origString) = origString :=
    (render_piecesFrom 0 origString).trans List.drop_zero
  have hclosed : ∀ path ∈ references (finditer origString), Closed (group path) :=
    fun path hpath ↦ closed_group (notMem_of_mem_references hpath)
  rw [strReplacePathsRefs_eq hresolve, ← foldl_replaceFirst hclosed h, hspelled]

/-- Attributes of an object that are texts. -/
def textAttributes : Found Unit (List Char) → List Char → Option (List Char)
  | .object _, ['x'] => some "%{/a.y}".toList
  | .object _, ['y'] => some "v".toList
  | _, _ => none

/-- Values of attributes as they are. -/
def textValues : Values Unit (List Char) where
  str
    | .object _ => []
    | .value v => v
  repr
    | .object _ => []
    | .value v => v
  isString
    | .object _ => false
    | .value _ => true

/-- Two references whose values are no references. -/
theorem strReplacePathsRefs_sample :
    strReplacePathsRefs plainClasses (fun _ ↦ some ()) textAttributes textValues
    (parentOf ['a']) "%{/a.y}, %{/a.y}".toList [','] false = .ok "v, v".toList := by
  refine strReplacePathsRefs_of_undisturbed plainClasses _ _ _ _ _ _ _ (fun _ ↦
    "v".toList) (fun path hpath ↦ ?_)
    fun before path after heq ↦ .inr fun hpart ↦ ?_
  · have hpaths : references (finditer "%{/a.y}, %{/a.y}".toList) =
      ["/a.y".toList, "/a.y".toList] := rfl
    rw [hpaths, List.mem_cons, List.mem_singleton, or_self] at hpath
    rw [hpath]
    rfl
  · have hvalue : '{' ∉ render (fun _ ↦ "v".toList) (finditer "%{/a.y}, %{/a.y}".toList) := by
      decide
    rw [heq, render, List.flatMap_append, List.mem_append, not_or] at hvalue
    exact hvalue.1 (hpart.subset (List.mem_cons_of_mem _ List.mem_cons_self))

/-- The value of the first reference is the text of the second, and is replaced in its place. -/
theorem not_strReplacePathsRefs_nested : ∃ value : List Char → List Char,
    (∀ path ∈ references (finditer "%{/a.x} %{/a.y}".toList),
      resolve plainClasses (fun _ ↦ some ()) textAttributes textValues [','] false
      (parentOf ['a']) path =
        .ok (value path)) ∧
      strReplacePathsRefs plainClasses (fun _ ↦ some ()) textAttributes textValues (parentOf ['a'])
        "%{/a.x} %{/a.y}".toList [','] false ≠
        .ok (render value (finditer "%{/a.x} %{/a.y}".toList)) := by
  have hpaths : references (finditer "%{/a.x} %{/a.y}".toList) = ["/a.x".toList, "/a.y".toList] :=
    rfl
  have hresolve : ∀ path ∈ references (finditer "%{/a.x} %{/a.y}".toList),
      resolve plainClasses (fun _ ↦ some ()) textAttributes textValues [','] false
        (parentOf ['a']) path =
        .ok (if path = "/a.x".toList then "%{/a.y}".toList else "v".toList) := by
    rw [hpaths, List.forall_mem_cons, List.forall_mem_singleton]
    exact ⟨rfl, rfl⟩
  refine ⟨fun path ↦ if path = "/a.x".toList then "%{/a.y}".toList
    else "v".toList, hresolve, fun h ↦ ?_⟩
  rw [strReplacePathsRefs_eq hresolve] at h
  exact absurd (Except.ok.inj h) (by decide)

end Userland.Install.DataObject
