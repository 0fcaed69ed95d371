import Userland.Library.Pattern

/-!
# Attribute values of project entries

The right-hand side of an attribute is a list of values in which parentheses enclose sublists.
`projent_parse_attribute_values` reads it with a stack of open lists and fills in an empty value
where separators stand alone; `projent_values2string` prints a list. What was read prints as it was
written (`parse_spec`): after each token the open lists, printed with a separator wherever a value
is awaited, spell the tokens used so far (`Reading`).

Scope: the classes of the locale are a parameter of the model.
-/

set_option autoImplicit false
set_option relaxedAutoImplicit false

namespace Userland.Project

open Userland.Library

/-- A text of the project file. -/
abbrev Text := List Char

/-- An error: its status, its format and the arguments of the format. -/
structure ProjError where
  status : ℕ
  format : String
  args : List Text
deriving DecidableEq

/-- `projf_combine_errors`. -/
def projfCombineErrors (error : ProjError) (errors : List ProjError) : List ProjError :=
  errors.map fun second ↦
    ⟨error.status, error.format ++ ", " ++ second.format, error.args ++ second.args⟩

/-- The character classes of the locale. A newline is white space and in no other class. -/
structure Locale where
  alpha : Char → Bool
  upper : Char → Bool
  alnum : Char → Bool
  space : Char → Bool
  alpha_newline : alpha '\n' = false
  upper_newline : upper '\n' = false
  alnum_newline : alnum '\n' = false

/-- The end of a text, for `$`: a newline may still follow. -/
def atEnd (rest : Text) : Bool :=
  rest = [] || rest = ['\n']

/-- `/^p$/` matches the text. -/
def matchesAll (p : Pattern Char) (text : Text) : Bool :=
  (p.rests text).any atEnd

/-! ### Tokens -/

/-- The characters that are tokens by themselves. -/
def isSeparator (c : Char) : Bool :=
  c = ',' || c = '(' || c = ')'

/-- `split(/([,()])/, $_[0], -1)`: the texts between separators and the separators. -/
def splitSeparators : Text → List Text
  | [] => [[]]
  | c :: rest =>
    if isSeparator c then [] :: [c] :: splitSeparators rest
    else
      match splitSeparators rest with
      | [] => [[c]]
      | first :: more => (c :: first) :: more

theorem flatten_splitSeparators (text : Text) : (splitSeparators text).flatten = text := by
  induction text with
  | nil => rfl
  | cons c rest ih =>
    rw [splitSeparators]
    by_cases hc : isSeparator c = true
    · rw [if_pos hc, List.flatten_cons, List.flatten_cons, ih]
      rfl
    · rw [if_neg hc]
      cases hsplit : splitSeparators rest with
      | nil =>
        rw [hsplit] at ih
        rw [← ih]
        rfl
      | cons first more =>
        rw [hsplit] at ih
        rw [← ih]
        rfl

/-- The class `[[:alnum:]_.\/=+-]`. -/
def isValueChar (locale : Locale) (c : Char) : Bool :=
  locale.alnum c || ['_', '.', '/', '=', '+', '-'].contains c

/-- A token is a separator or a value. -/
def isToken (locale : Locale) (token : Text) : Bool :=
  matchesAll (.one isSeparator) token || matchesAll (.many (isValueChar locale)) token

/-- `projent_tokenize_attribute_values`. -/
def projentTokenizeAttributeValues (locale : Locale) (values : Text) :
    Except (List ProjError) (List Text) :=
  let newtokens := (splitSeparators values).filter fun token ↦ token ≠ []
  let errors := (newtokens.filter fun token ↦ ¬ isToken locale token).map fun token ↦
    ⟨3, "Invalid Character at or near \"%s\"", [token]⟩
  if errors ≠ [] then .error errors else .ok newtokens

theorem flatten_filter_ne_nil (texts : List Text) :
    (texts.filter fun token ↦ token ≠ []).flatten = texts.flatten := by
  induction texts with
  | nil => rfl
  | cons text rest ih =>
    by_cases htext : text = []
    · rw [List.filter_cons_of_neg (by simp [htext]), ih, htext]
      rfl
    · rw [List.filter_cons_of_pos (by simp [htext]), List.flatten_cons, List.flatten_cons, ih]

/-- The tokens spell the text, and none of them is blank. -/
theorem tokenize_ok {locale : Locale} {values : Text} {tokens : List Text}
    (h : projentTokenizeAttributeValues locale values = .ok tokens) :
    tokens.flatten = values ∧ ∀ token ∈ tokens, token ≠ [] := by
  unfold projentTokenizeAttributeValues at h
  dsimp only at h
  split at h
  · cases h
  · cases h
    refine ⟨(flatten_filter_ne_nil _).trans (flatten_splitSeparators values), fun token htoken ↦ ?_⟩
    exact of_decide_eq_true (List.mem_filter.mp htoken).2

/-! ### Values -/

/-- An attribute value: a scalar or a sublist. -/
inductive Value
  | scalar (text : Text)
  | list (values : List Value)

mutual

/-- The text of a value. -/
def Value.text : Value → Text
  | .scalar text => text
  | .list values => ['('] ++ List.intercalate [','] (Value.texts values) ++ [')']

/-- The texts of a list of values. -/
def Value.texts : List Value → List Text
  | [] => []
  | value :: rest => value.text :: Value.texts rest

end

theorem texts_append_singleton (values : List Value) (value : Value) :
    Value.texts (values ++ [value]) = Value.texts values ++ [value.text] := by
  induction values with
  | nil => rfl
  | cons first rest ih => rw [List.cons_append, Value.texts, Value.texts, ih, List.cons_append]

/-- `projent_values2string`. -/
def projentValues2string (values : List Value) : Text :=
  List.intercalate [','] (Value.texts values)

/-- A list that is printed as far as the separator before its next value. -/
def lead (values : List Value) : Text :=
  if values = [] then [] else projentValues2string values ++ [',']

@[simp] theorem lead_nil : lead [] = [] :=
  if_pos rfl

theorem lead_of_ne_nil {values : List Value} (h : values ≠ []) :
    lead values = projentValues2string values ++ [','] :=
  if_neg h

theorem intercalate_append_singleton (separator : Text) {texts : List Text} (h : texts ≠ [])
    (text : Text) :
    List.intercalate separator (texts ++ [text]) = List.intercalate separator texts ++
    separator ++ text := by
  induction texts with
  | nil => exact absurd rfl h
  | cons first rest ih =>
    cases rest with
    | nil => simp [List.intercalate]
    | cons second rest =>
      rw [List.cons_append, List.cons_append, List.intercalate_cons_cons, ← List.cons_append,
        ih (by simp), List.intercalate_cons_cons]
      simp only [List.append_assoc]

/-- A value is printed after the separator. -/
theorem values2string_append_singleton (values : List Value) (value : Value) :
    projentValues2string (values ++ [value]) = lead values ++ value.text := by
  by_cases hvalues : values = []
  · rw [hvalues, lead_nil]
    simp [projentValues2string, Value.texts, List.intercalate]
  · have htexts : Value.texts values ≠ [] := by
      cases values with
      | nil => exact absurd rfl hvalues
      | cons first rest => exact List.cons_ne_nil _ _
    rw [lead_of_ne_nil hvalues, projentValues2string, texts_append_singleton,
      intercalate_append_singleton _ htexts, projentValues2string]

/-- An empty value prints as nothing after its separator. -/
theorem values2string_append_blank (values : List Value) :
    projentValues2string (values ++ [.scalar []]) = lead values := by
  rw [values2string_append_singleton, Value.text, List.append_nil]

/-! ### The parser -/

/-- The variables of the loop. A list that is still open is on the stack, and joins the list around
it when it is closed. -/
structure ParseState where
  usedtokens : List Text
  prev : Text
  parendepth : ℕ
  valuestack : List (List Value)

/-- Appends a value to the innermost open list. -/
def pushValue (value : Value) : List (List Value) → List (List Value)
  | [] => []
  | top :: below => (top ++ [value]) :: below

/-- Closes the innermost list. -/
def popValues : List (List Value) → List (List Value)
  | [] => []
  | [top] => [top]
  | top :: outer :: below => (outer ++ [.list top]) :: below

/-- One token of the loop of `projent_parse_attribute_values`. -/
def parseToken (state : ParseState) (token : Text) : Except (List ProjError) ParseState :=
  let usedtokens := state.usedtokens ++ [token]
  let prev := state.prev
  if token = [','] then
    let valuestack :=
      if prev = [','] ∨ prev = ['('] ∨ prev = [] then pushValue (.scalar []) state.valuestack
      else state.valuestack
    .ok ⟨usedtokens, [','], state.parendepth, valuestack⟩
  else if token = ['('] then
    if ¬(prev = ['('] ∨ prev = [','] ∨ prev = []) then
      .error [⟨3, "\"%s\" <- \"(\" unexpected", [usedtokens.flatten]⟩]
    else .ok ⟨usedtokens, ['('], state.parendepth + 1, [] :: state.valuestack⟩
  else if token = [')'] then
    if state.parendepth = 0 then .error [⟨3, "\"%s\" <- \")\" unexpected", [usedtokens.flatten]⟩]
    else
      let valuestack :=
        if prev = [','] ∨ prev = ['('] then pushValue (.scalar []) state.valuestack
        else state.valuestack
      .ok ⟨usedtokens, [')'], state.parendepth - 1, popValues valuestack⟩
  else if ¬(prev = [','] ∨ prev = ['('] ∨ prev = []) then
    .error [⟨3, "\"%s\" <- \"%s\" unexpected", [usedtokens.flatten, token]⟩]
  else .ok ⟨usedtokens, token, state.parendepth, pushValue (.scalar token) state.valuestack⟩

/-- `projent_parse_attribute_values`. -/
def projentParseAttributeValues (locale : Locale) (values : Text) :
    Except (List ProjError) (List Value) := do
  let tokens ← projentTokenizeAttributeValues locale values
  let state ← tokens.foldlM parseToken ⟨[], [], 0, [[]]⟩
  if state.parendepth ≠ 0 then .error [⟨3, "\"%s\" <- \")\" missing", [values]⟩]
  else
    let valuestack :=
      if state.prev = [','] ∨ state.prev = [] then pushValue (.scalar []) state.valuestack
      else state.valuestack
    .ok (valuestack.headD [])

/-! ### What was read prints as it was written -/

/-- A value may come next. -/
def Awaits (prev : Text) : Prop :=
  prev = [','] ∨ prev = ['('] ∨ prev = []

instance (prev : Text) : Decidable (Awaits prev) :=
  inferInstanceAs (Decidable (_ ∨ _ ∨ _))

/-- The printed form of the lists around the innermost one. -/
def opened : List (List Value) → Text
  | [] => []
  | values :: below => opened below ++ lead values ++ ['(']

/-- The printed form of the innermost list. -/
def body (prev : Text) (values : List Value) : Text :=
  if Awaits prev then lead values else projentValues2string values

/-- How the innermost list and those around it agree with the last token. -/
structure Fits (prev : Text) (top : List Value) (below : List (List Value)) : Prop where
  comma : prev = [','] → top ≠ []
  paren : prev = ['('] → top = [] ∧ below ≠ []
  start : prev = [] → top = [] ∧ below = []
  value : ¬ Awaits prev → top ≠ []

theorem fits_comma {top : List Value} (h : top ≠ []) (below : List (List Value)) :
    Fits [','] top below where
  comma _ := h
  paren h := absurd h (by decide)
  start h := absurd h (by decide)
  value h := absurd (.inl rfl) h

theorem fits_paren (outer : List Value) (below : List (List Value)) :
    Fits ['('] [] (outer :: below) where
  comma h := absurd h (by decide)
  paren _ := ⟨rfl, List.cons_ne_nil _ _⟩
  start h := absurd h (by decide)
  value h := absurd (.inr (.inl rfl)) h

theorem fits_value {prev : Text} {top : List Value} (hprev : ¬ Awaits prev) (h : top ≠ [])
    (below : List (List Value)) : Fits prev top below where
  comma hcomma := absurd (.inl hcomma) hprev
  paren hparen := absurd (.inr (.inl hparen)) hprev
  start hstart := absurd (.inr (.inr hstart)) hprev
  value _ := h

/-- The open lists spell the tokens used so far. -/
structure Reading (state : ParseState) (top : List Value) (below : List (List Value)) : Prop where
  stack : state.valuestack = top :: below
  depth : state.parendepth = below.length
  used : state.usedtokens.flatten = opened below ++ body state.prev top
  fits : Fits state.prev top below

theorem body_of_awaits {prev : Text} (h : Awaits prev) (values : List Value) :
    body prev values = lead values :=
  if_pos h

theorem body_of_not_awaits {prev : Text} (h : ¬ Awaits prev) (values : List Value) :
    body prev values = projentValues2string values :=
  if_neg h

theorem body_comma {values : List Value} (h : values ≠ []) :
    body [','] values = projentValues2string values ++ [','] := by
  rw [body_of_awaits (.inl rfl), lead_of_ne_nil h]

theorem reading_init : Reading ⟨[], [], 0, [[]]⟩ [] [] where
  stack := rfl
  depth := rfl
  used := by
    rw [body_of_awaits (.inr (.inr rfl)), lead_nil]
    rfl
  fits := ⟨fun h ↦ absurd h (by decide), fun h ↦ absurd h (by decide), fun _ ↦ ⟨rfl, rfl⟩,
    fun h ↦ absurd (.inr (.inr rfl)) h⟩

section Step

variable {state next : ParseState} {top : List Value} {below : List (List Value)}

/-- A separator ends the last value, which is empty where one is awaited. -/
theorem Reading.parse_comma (h : Reading state top below)
    (hstep : parseToken state [','] = .ok next) :
    ∃ top', Reading next top' below := by
  unfold parseToken at hstep
  rw [if_pos rfl] at hstep
  cases hstep
  by_cases hprev : state.prev = [','] ∨ state.prev = ['('] ∨ state.prev = []
  · refine ⟨top ++ [.scalar []], ⟨?_, h.depth, ?_, fits_comma (by simp) below⟩⟩
    · dsimp only
      rw [if_pos hprev, h.stack, pushValue]
    · rw [List.flatten_append, h.used, body_of_awaits hprev, body_comma (by simp),
        values2string_append_blank]
      simp
  · refine ⟨top, ⟨?_, h.depth, ?_, fits_comma (h.fits.value hprev) below⟩⟩
    · dsimp only
      rw [if_neg hprev, h.stack]
    · rw [List.flatten_append, h.used, body_of_not_awaits hprev, body_comma (h.fits.value hprev)]
      simp

/-- An opening parenthesis starts a list. -/
theorem Reading.parse_open (h : Reading state top below)
    (hstep : parseToken state ['('] = .ok next) :
    Reading next [] (top :: below) := by
  unfold parseToken at hstep
  rw [if_neg (by decide), if_pos rfl] at hstep
  by_cases hprev : state.prev = ['('] ∨ state.prev = [','] ∨ state.prev = []
  · rw [if_neg (not_not_intro hprev)] at hstep
    cases hstep
    have hawaits : Awaits state.prev := by
      unfold Awaits
      tauto
    refine ⟨by rw [h.stack], by rw [h.depth, List.length_cons], ?_, fits_paren top below⟩
    rw [List.flatten_append, h.used, body_of_awaits hawaits, body_of_awaits (.inr (.inl rfl)),
      lead_nil, opened]
    simp
  · rw [if_pos hprev] at hstep
    cases hstep

/-- A closing parenthesis ends the innermost list and its last value. -/
theorem Reading.parse_close (h : Reading state top below)
    (hstep : parseToken state [')'] = .ok next) :
    ∃ top' below', Reading next top' below' := by
  unfold parseToken at hstep
  rw [if_neg (by decide), if_neg (by decide), if_pos rfl] at hstep
  by_cases hdepth : state.parendepth = 0
  · rw [if_pos hdepth] at hstep
    cases hstep
  rw [if_neg hdepth] at hstep
  cases hstep
  have hbelow : below ≠ [] := fun hnil ↦ hdepth (by rw [h.depth, hnil, List.length_nil])
  obtain ⟨outer, below, rfl⟩ := List.exists_cons_of_ne_nil hbelow
  have hclosed : ¬ Awaits [')'] := by decide
  -- the list as it is closed prints as the innermost list did while it was open
  obtain ⟨closed, hvalues, hprint⟩ : ∃ closed,
      (if state.prev = [','] ∨ state.prev = ['('] then pushValue (.scalar []) state.valuestack
        else state.valuestack) = closed :: outer :: below ∧
      projentValues2string closed = body state.prev top := by
    by_cases hprev : state.prev = [','] ∨ state.prev = ['(']
    · have hawaits : Awaits state.prev := by
        unfold Awaits
        tauto
      refine ⟨top ++ [.scalar []], ?_, ?_⟩
      · rw [if_pos hprev, h.stack, pushValue]
      · rw [values2string_append_blank, body_of_awaits hawaits]
    · have hawaits : ¬ Awaits state.prev := by
        rintro (hcomma | hparen | hstart)
        · exact hprev (.inl hcomma)
        · exact hprev (.inr hparen)
        · exact absurd (h.fits.start hstart).2 (List.cons_ne_nil _ _)
      exact ⟨top, by rw [if_neg hprev, h.stack], (body_of_not_awaits hawaits top).symm⟩
  refine ⟨outer ++ [.list closed], below, ⟨?_, ?_, ?_, fits_value hclosed (by simp) below⟩⟩
  · dsimp only
    rw [hvalues, popValues]
  · dsimp only
    rw [h.depth, List.length_cons, Nat.add_sub_cancel]
  · rw [List.flatten_append, h.used, opened, body_of_not_awaits hclosed,
      values2string_append_singleton, Value.text, ← hprint, projentValues2string]
    simp

/-- A scalar is the next value of the innermost list. -/
theorem Reading.parse_scalar {token : Text} (h : Reading state top below)
    (hstep : parseToken state token = .ok next) (hcomma : token ≠ [',']) (hopen : token ≠ ['('])
    (hclose : token ≠ [')']) (hne : token ≠ []) : ∃ top', Reading next top' below := by
  unfold parseToken at hstep
  rw [if_neg hcomma, if_neg hopen, if_neg hclose] at hstep
  by_cases hprev : state.prev = [','] ∨ state.prev = ['('] ∨ state.prev = []
  · rw [if_neg (not_not_intro hprev)] at hstep
    cases hstep
    have hvalue : ¬ Awaits token := by
      unfold Awaits
      tauto
    refine ⟨top ++ [.scalar token], ⟨?_, h.depth, ?_, fits_value hvalue (by simp) below⟩⟩
    · dsimp only
      rw [h.stack, pushValue]
    · rw [List.flatten_append, h.used, body_of_awaits hprev, body_of_not_awaits hvalue,
        values2string_append_singleton, Value.text]
      simp
  · rw [if_pos hprev] at hstep
    cases hstep

theorem parseToken_usedtokens {token : Text} (hstep : parseToken state token = .ok next) :
    next.usedtokens = state.usedtokens ++ [token] := by
  unfold parseToken at hstep
  dsimp only at hstep
  split_ifs at hstep <;> cases hstep <;> rfl

/-- Every token keeps the correspondence. -/
theorem Reading.parseToken {token : Text} (h : Reading state top below)
    (hstep : Project.parseToken state token = .ok next) (hne : token ≠ []) :
    ∃ top' below', Reading next top' below' := by
  by_cases hcomma : token = [',']
  · subst hcomma
    obtain ⟨top', h'⟩ := h.parse_comma hstep
    exact ⟨top', below, h'⟩
  by_cases hopen : token = ['(']
  · subst hopen
    exact ⟨[], top :: below, h.parse_open hstep⟩
  by_cases hclose : token = [')']
  · subst hclose
    exact h.parse_close hstep
  obtain ⟨top', h'⟩ := h.parse_scalar hstep hcomma hopen hclose hne
  exact ⟨top', below, h'⟩

/-- The loop uses every token and keeps the correspondence. -/
theorem Reading.foldlM {tokens : List Text} (h : Reading state top below)
    (hrun : tokens.foldlM Project.parseToken state = .ok next)
    (hne : ∀ token ∈ tokens, token ≠ []) :
    next.usedtokens = state.usedtokens ++ tokens ∧ ∃ top' below', Reading next top' below' := by
  induction tokens generalizing state top below with
  | nil =>
    cases hrun
    exact ⟨(List.append_nil _).symm, top, below, h⟩
  | cons token tokens ih =>
    rw [List.foldlM_cons] at hrun
    cases hstep : Project.parseToken state token with
    | error errors =>
      rw [hstep] at hrun
      cases hrun
    | ok middle =>
      rw [hstep] at hrun
      obtain ⟨top', below', h'⟩ := h.parseToken hstep (hne token List.mem_cons_self)
      obtain ⟨hused, hnext⟩ := ih h' hrun fun other hother ↦
        hne other (List.mem_cons_of_mem _ hother)
      refine ⟨?_, hnext⟩
      rw [hused, parseToken_usedtokens hstep, List.append_assoc, List.singleton_append]

end Step

/-- The list that was read from a text is not empty and prints as the text. -/
theorem parse_spec {locale : Locale} {values : Text} {list : List Value}
    (h : projentParseAttributeValues locale values = .ok list) :
    list ≠ [] ∧ projentValues2string list = values := by
  unfold projentParseAttributeValues at h
  cases htokens : projentTokenizeAttributeValues locale values with
  | error errors =>
    rw [htokens] at h
    cases h
  | ok tokens =>
    rw [htokens] at h
    obtain ⟨hflatten, hne⟩ := tokenize_ok htokens
    cases hrun : tokens.foldlM parseToken ⟨[], [], 0, [[]]⟩ with
    | error errors =>
      simp only [hrun, bind, Except.bind] at h
      cases h
    | ok state =>
      simp only [hrun, bind, Except.bind] at h
      obtain ⟨hused, top, below, hreading⟩ := reading_init.foldlM hrun hne
      by_cases hdepth : state.parendepth = 0
      · rw [if_neg (not_not_intro hdepth)] at h
        have hbelow : below = [] := List.length_eq_zero_iff.mp (hreading.depth.symm.trans hdepth)
        subst hbelow
        have hspelled : body state.prev top = values := by
          have hall := hreading.used
          rw [hused, List.nil_append, hflatten, opened, List.nil_append] at hall
          exact hall.symm
        by_cases hprev : state.prev = [','] ∨ state.prev = []
        · have hawaits : Awaits state.prev := by
            unfold Awaits
            tauto
          rw [if_pos hprev, hreading.stack] at h
          obtain rfl : top ++ [.scalar []] = list := Except.ok.inj h
          refine ⟨by simp, ?_⟩
          rw [values2string_append_blank, ← body_of_awaits hawaits, hspelled]
        · have hawaits : ¬ Awaits state.prev := by
            rintro (hcomma | hparen | hstart)
            · exact hprev (.inl hcomma)
            · exact (hreading.fits.paren hparen).2 rfl
            · exact hprev (.inr hstart)
          rw [if_neg hprev, hreading.stack] at h
          obtain rfl : top = list := Except.ok.inj h
          refine ⟨hreading.fits.value hawaits, ?_⟩
          rw [← body_of_not_awaits hawaits, hspelled]
      · rw [if_pos hdepth] at h
        cases h

end Userland.Project
