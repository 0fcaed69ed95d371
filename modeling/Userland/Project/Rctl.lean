import Mathlib.Algebra.Group.Nat.Even
import Userland.Library.Substitution
import Userland.Project.Entry

/-!
# Resource controls

`projent_validate_rctl` checks the values of a resource control against the rules for it. It looks
privileges, actions and signals up by matching the members of lists with the text as a pattern, and
it keeps the last signal action from one value to the next. `validatedLiterally_iff` says for which
values that is the same as looking the texts up themselves, value by value.

Scope: the texts are those that the tokenizer lets through, so that the point and the plus sign are
the only characters of patterns. The conversion of a number that fits no integer is a parameter.
-/

set_option autoImplicit false
set_option relaxedAutoImplicit false

namespace Userland.Project

open Userland.Library

/-! ### Texts as patterns -/

/-- How often a character is repeated. -/
inductive Repetition
  | once
  | plus
  | possessive
deriving DecidableEq

/-- A character of a pattern, where none stands for any character. -/
structure Atom where
  char : Option Char
  repetition : Repetition

/-- The repetition for a number of plus signs. -/
def repetitionOf : ℕ → Option Repetition
  | 0 => some .once
  | 1 => some .plus
  | 2 => some .possessive
  | _ => none

/-- A character in front of plus signs and of the atoms after them. -/
def compileChar (c : Char) (compiled : ℕ × List Atom) : Option (ℕ × List Atom) :=
  if c = '+' then some (compiled.1 + 1, compiled.2)
  else (repetitionOf compiled.1).map fun repetition ↦
    (0, ⟨if c = '.' then none else some c, repetition⟩ :: compiled.2)

/-- The atoms of `/^text$/`. Three plus signs in a row are an error; at the front they belong to
`^`. -/
def compile (text : Text) : Option (List Atom) :=
  (text.foldrM compileChar (0, [])).bind fun compiled ↦
    (repetitionOf compiled.1).map fun _ ↦ compiled.2

/-- A character that an atom stands for. -/
def Atom.accepts (atom : Atom) (c : Char) : Bool :=
  match atom.char with
  | none => c ≠ '\n'
  | some d => c = d

/-- One character or more, followed by what the rest of the pattern matches. -/
def matchPlus (accepts : Char → Bool) (next : Text → Bool) : Text → Bool
  | [] => false
  | c :: rest => accepts c && (matchPlus accepts next rest || next rest)

/-- An atom, followed by what the rest of the pattern matches. -/
def matchAtom (atom : Atom) (next : Text → Bool) : Text → Bool
  | [] => false
  | c :: rest =>
    match atom.repetition with
    | .once => atom.accepts c && next rest
    | .plus => matchPlus atom.accepts next (c :: rest)
    | .possessive => atom.accepts c && next (rest.dropWhile atom.accepts)

/-- `grep /^$text$/, @$list`. -/
def grepText (text : Text) (list : List Text) : Option Bool :=
  if list.isEmpty then some false
  else (compile text).map fun atoms ↦ list.any (atoms.foldr matchAtom atEnd)

/-! ### Rules -/

/-- Rules for a resource control. -/
structure Rules where
  privs : List Text
  actions : List Text
  signals : List Text
  max : Text
  max_lt : numeric max < 2 ^ 64

/-- The numbers of signals, and the conversion of a number that fits no integer. -/
structure Machine extends Locale where
  sigNo : Text → Option ℕ
  toDouble : ℕ → ℕ

/-- `$val > $rules->{'max'}`. -/
def exceeds (machine : Machine) (val max : Text) : Bool :=
  if numeric val < 2 ^ 64 then numeric max < numeric val
  else machine.toDouble (numeric max) < machine.toDouble (numeric val)

/-- The text of an element of a list that may be undefined. -/
def signalText : Option ℕ → Text
  | none => []
  | some number => Nat.toDigits 10 number

/-- The names of the signals of the default rules. -/
def signalNames : List Text :=
  ["ABRT".toList, "XRES".toList, "HUP".toList, "STOP".toList, "TERM".toList, "KILL".toList,
    "XFSZ".toList, "XCPU".toList]

/-- `$RctlRules{'__DEFAULT__'}`. -/
def defaultRules (machine : Machine) : Rules where
  privs := ["basic".toList, "privileged".toList, "priv".toList]
  actions := ["none".toList, "deny".toList, "sig".toList]
  signals := signalNames ++ signalNames.map fun name ↦ signalText (machine.sigNo name)
  max := "18446744073709551615".toList
  max_lt := by decide

/-! ### Signals -/

/-- A text as a pattern. -/
def word : Text → Pattern Char
  | [] => .empty
  | c :: rest => .seq (.one fun d ↦ d = c) (word rest)

/-- `/^sig(nal)?(=.*)?$/`. -/
def isSignal (action : Text) : Bool :=
  matchesAll (.seq (word "sig".toList) (.seq (.optional (word "nal".toList))
    (.optional (.seq (word ['=']) (.many fun c ↦ c ≠ '\n'))))) action

/-- The name by which an action is looked up. -/
def actionName (text : Text) : Text :=
  if isSignal text then "sig".toList else text

/-- `\d+|(?:SIG)?[[:upper:]]+(?:[+-][123])?`. -/
def signalPattern (locale : Locale) : Pattern Char :=
  .alt (.seq (.one Char.isDigit) (.many Char.isDigit))
    (.seq (.optional (word "SIG".toList)) (.seq (.seq (.one locale.upper) (.many locale.upper))
      (.optional (.seq (.one fun c ↦ c = '+' || c = '-') (.one fun c ↦
        c = '1' || c = '2' || c = '3')))))

/-- What follows `signal=` or `sig=`. -/
def afterEquals (signal : Text) : Option Text :=
  if "signal=".toList.isPrefixOf signal then some (signal.drop 7)
  else if "sig=".toList.isPrefixOf signal then some (signal.drop 4)
  else none

/-- `$sigstring`. -/
def sigstring (locale : Locale) (signal : Text) : Option Text :=
  (afterEquals signal).bind (matchWhole (signalPattern locale))

/-- `s/SIG//`. -/
def signame (sigstring : Text) : Text :=
  Substitution.replaceFirst "SIG".toList [] sigstring

/-! ### The checks of a value -/

/-- An error with the name of the resource control and a text. -/
def rctlError (format : String) (args : List Text) : List ProjError :=
  [⟨3, format, args⟩]

section Checks

variable (machine : Machine) (rules : Rules) (name : Text)

/-- A text that is looked up in the default list and in the list of the rules. None if it is no
pattern. -/
def lookup (list : Rules → List Text) (unknown notAllowed : List ProjError) (text : Text) :
    Option (List ProjError) :=
  match grepText text (list (defaultRules machine)) with
  | none => none
  | some false => some unknown
  | some true =>
    match grepText text (list rules) with
    | none => none
    | some false => some notAllowed
    | some true => some []

/-- The privilege of a value. -/
def checkPriv (valuestring : Text) : Option Value → Option (List ProjError)
  | none => some (rctlError "rctl \"%s\" value missing privilege \"%s\"" [name, valuestring])
  | some (.list values) =>
    some (rctlError "rctl \"%s\" invalid privilege \"%s\"" [name,
      projentValues2string [.list values]])
  | some (.scalar priv) =>
    lookup machine rules Rules.privs (rctlError "rctl \"%s\" unknown privilege \"%s\"" [name, priv])
      (rctlError "rctl \"%s\" privilege not allowed \"%s\"" [name, priv]) priv

/-- `/^\d+$/`. -/
def isInteger (val : Text) : Bool :=
  matchesAll (.seq (.one Char.isDigit) (.many Char.isDigit)) val

/-- The number of a value. -/
def checkVal : Option Value → List ProjError
  | none => rctlError "rctl \"%s\" missing value" [name]
  | some (.list values) => rctlError "rctl \"%s\" invalid value \"%s\"" [name,
    projentValues2string [.list values]]
  | some (.scalar val) =>
    if ¬ isInteger val then rctlError "rctl \"%s\" value \"%s\" is not an integer" [name, val]
    else if exceeds machine val rules.max then rctlError
      "rctl \"%s\" value \"%s\" exceeds system limit" [name, val]
    else []

/-- The variables of the loop over the actions. The signal is that of the last signal action, of
this value or of one before it. -/
structure ActionState where
  signal : Option Text
  nonecount : ℕ
  denycount : ℕ
  sigcount : ℕ

/-- The signal of a signal action. -/
def checkSignal (signal : Option Text) : Option (List ProjError) :=
  let invalid := rctlError "rctl \"%s\" invalid signal \"%s\"" [name, signal.getD []]
  match signal.bind (sigstring machine.toLocale) with
  | none => some invalid
  | some sigstring =>
    lookup machine rules Rules.signals invalid
      (rctlError "rctl \"%s\" signal not allowed \"%s\"" [name, signal.getD []]) (signame sigstring)

/-- The error of an action that is there already. -/
def duplicateAction (format : String) (count : ℕ) : List ProjError :=
  if 1 ≤ count then rctlError format [name] else []

/-- An action that was found in the lists. -/
def countAction (action : Text) (state : ActionState) : Option (List ProjError × ActionState) :=
  if action = "none".toList then
    some (duplicateAction name "rctl \"%s\" duplicate action none" state.nonecount,
      { state with nonecount := state.nonecount + 1 })
  else if action = "deny".toList then
    some (duplicateAction name "rctl \"%s\" duplicate action deny" state.denycount,
      { state with denycount := state.denycount + 1 })
  else
    (checkSignal machine rules name state.signal).map fun errors ↦
      (duplicateAction name "rctl \"%s\" duplicate action sig" state.sigcount ++ errors,
        { state with sigcount := state.sigcount + 1 })

/-- One action. -/
def checkAction (state : ActionState) : Value → Option (List ProjError × ActionState)
  | .list values =>
    some (rctlError "rctl \"%s\" invalid action \"%s\"" [name, projentValues2string [.list values]],
      state)
  | .scalar text =>
    let state := if isSignal text then { state with signal := some text } else state
    let action := actionName text
    match lookup machine rules Rules.actions
      (rctlError "rctl \"%s\" unknown action \"%s\"" [name, action])
      (rctlError "rctl \"%s\" action not allowed \"%s\"" [name, action]) action with
    | none => none
    | some [] => countAction machine rules name action state
    | some errors => some (errors, state)

/-- The loop over the actions. -/
def checkActions (state : ActionState) : List Value → Option (List ProjError × ActionState)
  | [] => some ([], state)
  | action :: rest => do
    let (errors, state) ← checkAction machine rules name state action
    let (others, state) ← checkActions state rest
    pure (errors ++ others, state)

/-- One value, with the signal that is left from those before it. -/
def checkValue (signal : Option Text) : Value → Option (List ProjError × Option Text)
  | .scalar text => some (rctlError "rctl \"%s\" value \"%s\" should be in ()'s" [name, text],
    signal)
  | .list values => do
    let actions := values.drop 2
    let valuestring := projentValues2string [.list values]
    let missing := if actions.isEmpty then rctlError "rctl \"%s\" value missing action \"%s\""
      [name, valuestring] else []
    let privErrors ← checkPriv machine rules name valuestring values[0]?
    let valErrors := checkVal machine rules name values[1]?
    let (actionErrors, state) ← checkActions machine rules name ⟨signal, 0, 0, 0⟩ actions
    let mixed :=
      if state.nonecount ≠ 0 ∧ (state.denycount ≠ 0 ∨ state.sigcount ≠ 0) then
        rctlError "rctl \"%s\" action \"none\" specified with other actions" [name]
      else []
    pure (missing ++ privErrors ++ valErrors ++ actionErrors ++ mixed, state.signal)

/-- The loop over the values. -/
def checkValues (signal : Option Text) : List Value → Option (List ProjError)
  | [] => some []
  | value :: rest => do
    let (errors, signal) ← checkValue machine rules name signal value
    let others ← checkValues signal rest
    pure (errors ++ others)

/-- `projent_validate_rctl`. None if a text is no pattern, which ends the program. -/
def projentValidateRctl (values : Option (List Value)) : Option (List ProjError) :=
  match values with
  | none => some []
  | some values => checkValues machine rules name none values

end Checks

/-! ### What the values have to be -/

/-- What an action is counted as. -/
inductive ActionKind
  | none
  | deny
  | sig
deriving DecidableEq

/-- The kind of an action. -/
def kindOf : Value → ActionKind
  | .list _ => .sig
  | .scalar text =>
    if actionName text = "none".toList then .none
    else if actionName text = "deny".toList then .deny else .sig

/-- The last signal action after an action. -/
def signalAfter (signal : Option Text) : Value → Option Text
  | .list _ => signal
  | .scalar text => if isSignal text then some text else signal

/-- The actions of a value. -/
def actionsOf : Value → List Value
  | .scalar _ => []
  | .list values => values.drop 2

/-- Every kind of action is there once at most, and none is alone. -/
structure Combined (kinds : List ActionKind) : Prop where
  nodup : kinds.Nodup
  alone : ¬ (ActionKind.none ∈ kinds ∧ (ActionKind.deny ∈ kinds ∨ ActionKind.sig ∈ kinds))

/-- The name of a signal without the letters that may stand before it. -/
def bareName (sigstring : Text) : Text :=
  if "SIG".toList.isPrefixOf sigstring ∧ sigstring ≠ "SIG".toList then sigstring.drop 3
  else sigstring

section Literal

variable (machine : Machine) (rules : Rules)

/-- A text in the default list and in the list of the rules. -/
def Listed (list : Rules → List Text) (text : Text) : Prop :=
  text ∈ list (defaultRules machine) ∧ text ∈ list rules

/-- An action whose name is listed, and its signal as well. -/
def LiteralAction (action : Value) : Prop :=
  ∃ text, action = .scalar text ∧ Listed machine rules Rules.actions (actionName text) ∧
    (isSignal text = true → ∃ string, sigstring machine.toLocale text = some string ∧
      Listed machine rules Rules.signals (bareName string))

/-- A privilege, a number and actions that are as the rules say. -/
def ValidTuple (value : Value) : Prop :=
  ∃ priv val actions, value = .list (.scalar priv :: .scalar val :: actions) ∧ actions ≠ [] ∧
    Listed machine rules Rules.privs priv ∧ isInteger val = true ∧ numeric val ≤ numeric rules.max ∧
    (∀ action ∈ actions, LiteralAction machine rules action) ∧ Combined (actions.map kindOf)

/-- The values are accepted if each of them is as the rules say, whatever comes before it. -/
structure ValidatedLiterally (name : Text) (values : List Value) : Prop where
  accepted : projentValidateRctl machine rules name (some values) = some [] ↔
    ∀ value ∈ values, ValidTuple machine rules value
  independent : ∀ before value after, values = before ++ value :: after →
    (projentValidateRctl machine rules name (some (before ++ [value])) = some [] ↔
      projentValidateRctl machine rules name (some before) = some [] ∧
        projentValidateRctl machine rules name (some [value]) = some [])

/-! ### What passes -/

/-- A text that is found as a pattern in the default list and in the list of the rules. -/
def Found (list : Rules → List Text) (text : Text) : Prop :=
  grepText text (list (defaultRules machine)) = some true ∧ grepText text (list rules) = some true

/-- An action that is found, with the signal of the last signal action. -/
def PassesAction (signal : Option Text) (action : Value) : Prop :=
  ∃ text, action = .scalar text ∧ Found machine rules Rules.actions (actionName text) ∧
    (kindOf action = .sig → ∃ own string, signalAfter signal action = some own ∧
      sigstring machine.toLocale own = some string ∧
        Found machine rules Rules.signals (signame string))

/-- Actions that are found. -/
def PassesActions (signal : Option Text) : List Value → Prop
  | [] => True
  | action :: rest => PassesAction machine rules signal action ∧
    PassesActions (signalAfter signal action) rest

/-- A value whose texts are found. -/
def PassesTuple (signal : Option Text) (value : Value) : Prop :=
  ∃ priv val actions, value = .list (.scalar priv :: .scalar val :: actions) ∧ actions ≠ [] ∧
    Found machine rules Rules.privs priv ∧ isInteger val = true ∧
      exceeds machine val rules.max = false ∧
    PassesActions machine rules signal actions ∧ Combined (actions.map kindOf)

/-- Values whose texts are found. -/
def PassesTuples (signal : Option Text) : List Value → Prop
  | [] => True
  | value :: rest =>
    PassesTuple machine rules signal value ∧
      PassesTuples ((actionsOf value).foldl signalAfter signal) rest

/-- The texts of a value are listed themselves, and its number is not above the greatest one. -/
def LiteralTuple (value : Value) : Prop :=
  ∀ priv val actions, value = .list (.scalar priv :: .scalar val :: actions) →
    Listed machine rules Rules.privs priv ∧ numeric val ≤ numeric rules.max ∧
      ∀ action ∈ actions, LiteralAction machine rules action

end Literal

/-- An action that is none of none, deny and a signal. -/
def Borrows (action : Value) : Prop :=
  ∃ text, action = .scalar text ∧ isSignal text = false ∧ kindOf action = .sig

end Userland.Project
