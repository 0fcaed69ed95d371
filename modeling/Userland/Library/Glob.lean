import Mathlib.Data.List.Basic

/-!
# Shell-style patterns

`translate` reads a pattern of the shell (`*`, `?`, `[seq]`, `[!seq]`) into tokens, and `fnmatch`
matches a whole name against it. A reversed range has no meaning, and the pattern has no tokens.
-/

set_option autoImplicit false
set_option relaxedAutoImplicit false

namespace Userland.Library.Glob

/-- What one part of a pattern matches: any text, or one character out of ranges or outside them. -/
inductive Token
  | star
  | any
  | ranges (negated : Bool) (pairs : List (Char × Char))

/-- The single character. -/
def literal (c : Char) : Token :=
  .ranges false [(c, c)]

/-- The ranges of a bracket. -/
def ranges : List Char → Option (List (Char × Char))
  | first :: '-' :: last :: rest =>
    if last < first then none else (ranges rest).map ((first, last) :: ·)
  | c :: rest => (ranges rest).map ((c, c) :: ·)
  | [] => some []

/-- The characters after `[` that cannot close it. -/
def opening : List Char → ℕ
  | '!' :: ']' :: _ => 2
  | '!' :: _ => 1
  | ']' :: _ => 1
  | _ => 0

/-- What stands in the bracket that `[` opens, if one closes it. -/
def bracket (rest : List Char) : Option (List Char) :=
  let length := opening rest + ((rest.drop (opening rest)).takeWhile (· ≠ ']')).length
  if length < rest.length then some (rest.take length) else none

/-- The token of a bracket. -/
def bracketToken : List Char → Option Token
  | '!' :: rest => (ranges rest).map (.ranges true)
  | stuff => (ranges stuff).map (.ranges false)

/-- The tokens of a pattern, of which some characters are read already. -/
def translateFrom : ℕ → List Char → Option (List Token)
  | _, [] => some []
  | done + 1, _ :: rest => translateFrom done rest
  | 0, c :: rest =>
    if c = '*' then (translateFrom 0 rest).map (.star :: ·)
    else if c = '?' then (translateFrom 0 rest).map (.any :: ·)
    else if c = '[' then
      match bracket rest with
      | none => (translateFrom 0 rest).map (literal c :: ·)
      | some stuff =>
        (bracketToken stuff).bind fun token ↦
          (translateFrom (stuff.length + 1) rest).map (token :: ·)
    else (translateFrom 0 rest).map (literal c :: ·)

/-- `fnmatch.translate`. -/
def translate (pat : List Char) : Option (List Token) :=
  translateFrom 0 pat

/-- The token accepts one character. -/
def Token.accepts : Token → Char → Bool
  | .star, _ => true
  | .any, _ => true
  | .ranges negated pairs, c =>
    (pairs.any fun pair ↦ decide (pair.1 ≤ c) && decide (c ≤ pair.2)) != negated

/-- The tokens match a whole name. -/
def matchesAll : List Token → List Char → Bool
  | [], name => name.isEmpty
  | .star :: tokens, name => name.tails.any (matchesAll tokens)
  | token :: tokens, name =>
    match name with
    | [] => false
    | c :: rest => token.accepts c && matchesAll tokens rest

/-- `fnmatch.fnmatch(name, pat)`; a pattern that is no regular expression is an error. -/
def fnmatch (name pat : List Char) : Option Bool :=
  (translate pat).map fun tokens ↦ matchesAll tokens name

example : fnmatch "facet.doc.man".toList "facet.doc.*".toList = some true := by decide

example : fnmatch "a]".toList "[!b]]".toList = some true := by decide

example : fnmatch "z".toList "[z-a]".toList = none := by decide

end Userland.Library.Glob
