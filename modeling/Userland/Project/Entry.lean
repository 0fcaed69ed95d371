import Userland.Library.Separated
import Userland.Project.Values

/-!
# Entries of the project file

`projent_parse` splits a line into its six fields and parses each of them; `projent_2string` prints
an entry. A printed entry is parsed again, and to the same name, id, comment, users, groups and
attributes (`values2string_parse_and_parse_2string`). The attributes print as they were written, up
to a newline at the end of the line that the patterns of the parser pass over
(`parseAttribute_spec`).

Scope: the flag `allowspaces` is modelled; no caller in the tree passes `allowunits`, which scales
the values of resource controls by the tables of the running system, and it is left out. The locale
and the limits of the system are parameters.
-/

set_option autoImplicit false
set_option relaxedAutoImplicit false

namespace Userland.Project

open Userland.Library

/-- The locale and the limits of the system. -/
structure Platform extends Locale where
  projnameMax : ℕ
  intMax : ℕ

/-- The flags of the parser. -/
structure Flags where
  allowspaces : Bool

/-- An attribute. Its values are undefined where the text has no `=`. -/
structure Attribute where
  name : Text
  values : Option (List Value)

/-- A parsed entry. -/
structure Projent where
  name : Text
  projid : Text
  comment : Text
  users : Text
  userlist : List Text
  groups : Text
  grouplist : List Text
  attributes : Text
  attributelist : List Attribute

/-! ### Patterns -/

/-- The class `[[:alnum:]_.-]`. -/
def isNameChar (locale : Locale) (c : Char) : Bool :=
  locale.alnum c || ['_', '.', '-'].contains c

/-- `[[:alpha:]][[:alnum:]_.-]*`. -/
def namePattern (locale : Locale) : Pattern Char :=
  .seq (.one locale.alpha) (.many (isNameChar locale))

/-- `!?`. -/
def negation : Pattern Char :=
  .optional (.one fun c ↦ c = '!')

/-- `[[:upper:]]{1,5}`. -/
def uppers (locale : Locale) : Pattern Char :=
  .seq (.one locale.upper) (.upTo (.one locale.upper) 4)

/-- `$stockp`: `[[:upper:]]{1,5}(?:.[[:upper:]]{1,5})?,`. -/
def stockp (locale : Locale) : Pattern Char :=
  .seq (uppers locale) (.seq (.optional (.seq (.one fun c ↦ c ≠ '\n') (uppers locale)))
    (.one fun c ↦ c = ','))

/-- `($stockp)?[[:alpha:]][[:alnum:]_.-]*`. -/
def attributeName (locale : Locale) : Pattern Char :=
  .seq (.optional (stockp locale)) (namePattern locale)

/-- What a pattern has read, given what remains of the text. -/
def captured (text rest : Text) : Text :=
  text.take (text.length - rest.length)

/-- The group of `/^(p)$/`. -/
def matchWhole (p : Pattern Char) (text : Text) : Option Text :=
  (p.rests text).findSome? fun rest ↦ if atEnd rest then some (captured text rest) else none

/-- The group of `/^(.*)$/`. -/
def restOfLine (rest : Text) : Option Text :=
  if atEnd (rest.dropWhile fun c ↦ c ≠ '\n') then some (rest.takeWhile fun c ↦ c ≠ '\n') else none

/-- The values that follow a name, for `=(.*)$`. -/
def valuesAfter : Text → Option Text
  | '=' :: rest => restOfLine rest
  | _ => none

/-- The groups of `/^(p)=(.*)$/`. -/
def matchValues (p : Pattern Char) (text : Text) : Option (Text × Text) :=
  (p.rests text).findSome? fun rest ↦ (valuesAfter rest).map fun values ↦
    (captured text rest, values)

/-! ### The fields of a line -/

/-- The errors of a result. -/
def errorsOf {α : Type} : Except (List ProjError) α → List ProjError
  | .ok _ => []
  | .error errors => errors

/-- `projent_parse_name`. -/
def projentParseName (platform : Platform) (projname : Text) : Except (List ProjError) Text :=
  if ¬ matchesAll (namePattern platform.toLocale) projname then
    .error [⟨3, "Invalid project name \"%s\", contains invalid characters", [projname]⟩]
  else if platform.projnameMax < projname.length then
    .error [⟨3, "Invalid project name \"%s\", name too long", [projname]⟩]
  else .ok projname

/-- The number that a text of digits stands for. -/
def numeric (text : Text) : ℕ :=
  (text.takeWhile Char.isDigit).foldl (fun n c ↦ 10 * n + (c.toNat - '0'.toNat)) 0

/-- `projent_parse_projid`. -/
def projentParseProjid (platform : Platform) (projid : Text) : Except (List ProjError) Text :=
  if ¬ matchesAll (.seq (.one Char.isDigit) (.many Char.isDigit)) projid then
    .error [⟨3, "Invalid projid \"%s\"", [projid]⟩]
  else if platform.intMax < numeric projid then
    .error [⟨3, "Invalid projid \"%s\": must be <= " ++ toString platform.intMax, [projid]⟩]
  else .ok projid

/-- `projent_parse_comment`. -/
def projentParseComment (comment : Text) : Except (List ProjError) Text :=
  .ok comment

/-- `split(/$pattern/, $names)` for the pattern that the flags select. -/
def splitNames (locale : Locale) (flags : Flags) (names : Text) : List Text :=
  dropBlanks <|
    if flags.allowspaces then stripPieces locale.space (names.splitOn ',') else names.splitOn ','

/-- Users and groups: the names of a list are wildcards or match a pattern. -/
def parseNames (locale : Locale) (flags : Flags) (p : Pattern Char) (format : String)
    (names : Text) :
    Except (List ProjError) (List Text) :=
  let list := splitNames locale flags names
  let invalid := list.filter fun name ↦
    ¬ (name = ['*'] || name = ['!', '*'] || matchesAll (.seq negation p) name)
  if invalid ≠ [] then .error (invalid.map fun name ↦ ⟨3, format, [name]⟩) else .ok list

/-- `projent_parse_users`. -/
def projentParseUsers (platform : Platform) (flags : Flags) (users : Text) :
    Except (List ProjError) (List Text) :=
  parseNames platform.toLocale flags (namePattern platform.toLocale)
    "Invalid user name \"%s\"" users

/-- `projent_parse_groups`. -/
def projentParseGroups (platform : Platform) (flags : Flags) (groups : Text) :
    Except (List ProjError) (List Text) :=
  parseNames platform.toLocale flags (.seq (.one platform.alnum) (.many platform.alnum))
    "Invalid group name \"%s\"" groups

/-- `projent_parse_attribute`. A name starts with a letter, so that it is true once it is matched.
-/
def projentParseAttribute (locale : Locale) (string : Text) : Except (List ProjError) Attribute :=
  match matchWhole (attributeName locale) string with
  | some name => .ok ⟨name, none⟩
  | none =>
    match matchValues (attributeName locale) string with
    | some (name, values) =>
      match projentParseAttributeValues locale values with
      | .ok list => .ok ⟨name, some list⟩
      | .error errors =>
        .error (projfCombineErrors ⟨3, "Invalid value on attribute \"%s\"", [name]⟩ errors)
    | none => .error [⟨3, "Invalid attribute \"%s\"", [string]⟩]

/-- The values of results that are all valid, or the errors of the others. -/
def gather {α : Type} : List (Except (List ProjError) α) → Except (List ProjError) (List α)
  | [] => .ok []
  | result :: rest =>
    match result, gather rest with
    | .ok value, .ok values => .ok (value :: values)
    | result, values => .error (errorsOf result ++ errorsOf values)

/-- `projent_parse_attributes`. -/
def projentParseAttributes (locale : Locale) (attributes : Text) :
    Except (List ProjError) (List Attribute) :=
  gather ((dropBlanks (attributes.splitOn ';')).map (projentParseAttribute locale))

/-- The errors of the fields that a line with too few or too many separators has. -/
def fieldErrors (platform : Platform) (flags : Flags) (fields : List Text) : List ProjError :=
  (List.zipWith (fun check field ↦ check field)
    [fun field ↦ errorsOf (projentParseName platform field),
      fun field ↦ errorsOf (projentParseProjid platform field),
      fun field ↦ errorsOf (projentParseComment field),
      fun field ↦ errorsOf (projentParseUsers platform flags field),
      fun field ↦ errorsOf (projentParseGroups platform flags field),
      fun field ↦ errorsOf (projentParseAttributes platform.toLocale field)] fields).flatten

/-- `projent_parse`. -/
def projentParse (platform : Platform) (flags : Flags) (line : Text) :
    Except (List ProjError) Projent :=
  match line.splitOn ':' with
  | [projname, projid, comment, users, groups, attributes] =>
    match projentParseName platform projname, projentParseProjid platform projid,
      projentParseComment comment, projentParseUsers platform flags users,
      projentParseGroups platform flags groups,
      projentParseAttributes platform.toLocale attributes with
    | .ok _, .ok _, .ok _, .ok userlist, .ok grouplist, .ok attributelist =>
      .ok ⟨projname, projid, comment, users, userlist, groups, grouplist, attributes, attributelist⟩
    | _, _, _, _, _, _ =>
      .error (fieldErrors platform flags [projname, projid, comment, users, groups, attributes])
  | fields =>
    .error (⟨5, "Incorrect number of fields.  Should have 5 \":\"'s.", []⟩ ::
      fieldErrors platform flags (if line = [] then [] else fields))

/-! ### Printing -/

/-- `projent_attribute2string`. -/
def projentAttribute2string (attr : Attribute) : Text :=
  match attr.values with
  | none => attr.name
  | some values =>
    if values ≠ [] then attr.name ++ ['='] ++ projentValues2string values else attr.name

/-- `projent_2string`. -/
def projent2string (projent : Projent) : Text :=
  [':'].intercalate [projent.name, projent.projid, projent.comment,
    [','].intercalate projent.userlist,
    [','].intercalate projent.grouplist,
      [';'].intercalate (projent.attributelist.map projentAttribute2string)]

/-! ### Attributes are parsed again -/

theorem atEnd_iff {rest : Text} : atEnd rest = true ↔ rest = [] ∨ rest = ['\n'] := by
  simp [atEnd]

theorem captured_append (read rest : Text) : captured (read ++ rest) rest = read := by
  unfold captured
  rw [List.length_append, Nat.add_sub_cancel, List.take_left]

theorem captured_append_newline {text rest : Text} (h : ∃ read, text = read ++ rest) :
    captured (text ++ ['\n']) (rest ++ ['\n']) = captured text rest := by
  obtain ⟨read, rfl⟩ := h
  rw [List.append_assoc, captured_append, captured_append]

theorem attributeName_avoids (locale : Locale) : Pattern.Avoids '\n' (attributeName locale) := by
  have huppers : Pattern.Avoids '\n' (uppers locale) :=
    ⟨locale.upper_newline, Pattern.Avoids.upTo (p := .one locale.upper) locale.upper_newline 4⟩
  have hstockp : Pattern.Avoids '\n' (stockp locale) :=
    ⟨huppers, ⟨⟨by simp [Pattern.Avoids], huppers⟩, trivial⟩, by simp [Pattern.Avoids]⟩
  have hchar : isNameChar locale '\n' = false := by
    unfold isNameChar
    rw [locale.alnum_newline]
    rfl
  exact ⟨⟨hstockp, trivial⟩, locale.alpha_newline, hchar⟩

theorem findSome?_congr {α β : Type} {f g : α → Option β} {list : List α}
    (h : ∀ x ∈ list, f x = g x) :
    list.findSome? f = list.findSome? g := by
  induction list with
  | nil => rfl
  | cons x rest ih =>
    rw [List.findSome?_cons, List.findSome?_cons, h x List.mem_cons_self,
      ih fun y hy ↦ h y (List.mem_cons_of_mem _ hy)]

section Newline

variable {p : Pattern Char} {text : Text}

theorem restOfLine_of_not_mem {rest : Text} (h : '\n' ∉ rest) : restOfLine rest = some rest := by
  have hall : ∀ c ∈ rest, decide (c ≠ '\n') = true := fun c hc ↦
    decide_eq_true fun heq ↦ h (heq ▸ hc)
  unfold restOfLine
  rw [List.dropWhile_eq_nil_iff.mpr hall, List.takeWhile_eq_self_iff.mpr hall]
  rfl

theorem restOfLine_append_newline {rest : Text} (h : '\n' ∉ rest) :
    restOfLine (rest ++ ['\n']) = some rest := by
  have hall : ∀ c ∈ rest, decide (c ≠ '\n') = true := fun c hc ↦
    decide_eq_true fun heq ↦ h (heq ▸ hc)
  unfold restOfLine
  rw [List.dropWhile_append_of_pos hall, List.takeWhile_append_of_pos hall]
  simp [atEnd]

/-- The rest of a line is the text, but for a newline at its end. -/
theorem restOfLine_spec {rest values : Text} (h : restOfLine rest = some values) :
    '\n' ∉ values ∧ (rest = values ∨ rest = values ++ ['\n']) := by
  unfold restOfLine at h
  by_cases hend : atEnd (rest.dropWhile fun c ↦ c ≠ '\n') = true
  · rw [if_pos hend] at h
    cases h
    refine ⟨fun hmem ↦ ?_, ?_⟩
    · simpa using List.mem_takeWhile_imp hmem
    · have hsplit := List.takeWhile_append_dropWhile (p := fun c ↦ decide (c ≠ '\n')) (l := rest)
      rcases atEnd_iff.mp hend with hdrop | hdrop
      · rw [hdrop, List.append_nil] at hsplit
        exact .inl hsplit.symm
      · rw [hdrop] at hsplit
        exact .inr hsplit.symm
  · rw [if_neg hend] at h
    cases h

/-- A match of the whole text leaves out a newline at its end. -/
theorem matchWhole_spec (hp : p.Avoids '\n') {name : Text} (h : matchWhole p text = some name) :
    '\n' ∉ name ∧ (text = name ∨ text = name ++ ['\n']) := by
  obtain ⟨rest, hrest, hsome⟩ := List.exists_of_findSome?_eq_some h
  obtain ⟨read, rfl, havoids⟩ := Pattern.exists_append_of_mem_rests hrest
  by_cases hend : atEnd rest = true
  · rw [if_pos hend, captured_append] at hsome
    cases hsome
    refine ⟨havoids _ hp, ?_⟩
    rcases atEnd_iff.mp hend with rfl | rfl
    · exact .inl (List.append_nil _)
    · exact .inr rfl
  · rw [if_neg hend] at hsome
    cases hsome

theorem not_mem_of_mem_rests (htext : '\n' ∉ text) {rest : Text} (h : rest ∈ p.rests text) :
    '\n' ∉ rest := by
  obtain ⟨read, rfl, -⟩ := Pattern.exists_append_of_mem_rests h
  exact fun hmem ↦ htext (List.mem_append_right _ hmem)

/-- A newline at the end of the text does not change a match of the whole text. -/
theorem matchWhole_append_newline (hp : p.Avoids '\n') (htext : '\n' ∉ text) :
    matchWhole p (text ++ ['\n']) = matchWhole p text := by
  unfold matchWhole
  rw [Pattern.rests_append_singleton hp, List.findSome?_map]
  refine findSome?_congr fun rest hrest ↦ ?_
  obtain ⟨read, hread, -⟩ := Pattern.exists_append_of_mem_rests hrest
  have hne := not_mem_of_mem_rests htext hrest
  have hend : atEnd (rest ++ ['\n']) = atEnd rest := by
    rw [Bool.eq_iff_iff, atEnd_iff, atEnd_iff]
    cases rest with
    | nil => simp
    | cons c rest =>
      have hc : c ≠ '\n' := fun heq ↦ hne (heq ▸ List.mem_cons_self)
      simp [hc]
  rw [Function.comp_apply, hend, captured_append_newline ⟨read, hread⟩]

theorem matchValues_spec (hp : p.Avoids '\n') {name values : Text}
    (h : matchValues p text = some (name, values)) :
    '\n' ∉ name ++ ['='] ++ values ∧
      (text = name ++ ['='] ++ values ∨ text = name ++ ['='] ++ values ++ ['\n']) := by
  obtain ⟨rest, hrest, hsome⟩ := List.exists_of_findSome?_eq_some h
  obtain ⟨read, rfl, havoids⟩ := Pattern.exists_append_of_mem_rests hrest
  obtain ⟨found, hfound, hpair⟩ := Option.map_eq_some_iff.mp hsome
  rw [captured_append, Prod.mk.injEq] at hpair
  obtain ⟨rfl, rfl⟩ := hpair
  unfold valuesAfter at hfound
  split at hfound
  · next more =>
    obtain ⟨hvalues, hmore⟩ := restOfLine_spec hfound
    refine ⟨?_, ?_⟩
    · simp [havoids _ hp, hvalues]
    · rcases hmore with rfl | rfl
      · exact .inl (by simp)
      · exact .inr (by simp)
  · cases hfound

theorem matchValues_append_newline (hp : p.Avoids '\n') (htext : '\n' ∉ text) :
    matchValues p (text ++ ['\n']) = matchValues p text := by
  unfold matchValues
  rw [Pattern.rests_append_singleton hp, List.findSome?_map]
  refine findSome?_congr fun rest hrest ↦ ?_
  obtain ⟨read, hread, -⟩ := Pattern.exists_append_of_mem_rests hrest
  have hne := not_mem_of_mem_rests htext hrest
  have hvalues : valuesAfter (rest ++ ['\n']) = valuesAfter rest := by
    cases rest with
    | nil => rfl
    | cons c rest =>
      rw [List.mem_cons, not_or] at hne
      by_cases hc : c = '='
      · subst hc
        rw [List.cons_append, valuesAfter, valuesAfter, restOfLine_append_newline hne.2,
          restOfLine_of_not_mem hne.2]
      · rw [List.cons_append]
        unfold valuesAfter
        split
        · next heq => exact absurd (List.cons.inj heq).1 hc
        · split
          · next heq => exact absurd (List.cons.inj heq).1 hc
          · rfl
  rw [Function.comp_apply, hvalues, captured_append_newline ⟨read, hread⟩]

end Newline

variable {locale : Locale}

/-- The text of an attribute is its printed form, but for a newline at its end. -/
theorem parseAttribute_spec {string : Text} {attr : Attribute}
    (h : projentParseAttribute locale string = .ok attr) :
    '\n' ∉ projentAttribute2string attr ∧
      (string = projentAttribute2string attr ∨
        string = projentAttribute2string attr ++ ['\n']) := by
  have hp := attributeName_avoids locale
  unfold projentParseAttribute at h
  split at h
  · next name hname =>
    cases h
    exact matchWhole_spec hp hname
  · split at h
    · next name values hvalues =>
      split at h
      · next list hlist =>
        cases h
        obtain ⟨hne, hprint⟩ := parse_spec hlist
        have hstring : projentAttribute2string ⟨name, some list⟩ = name ++ ['='] ++ values := by
          rw [← hprint]
          exact if_pos hne
        rw [hstring]
        exact matchValues_spec hp hvalues
      · cases h
    · cases h

/-- A printed attribute is parsed again. -/
theorem parseAttribute_attribute2string {string : Text} {attr : Attribute}
    (h : projentParseAttribute locale string = .ok attr) :
    projentParseAttribute locale (projentAttribute2string attr) = .ok attr := by
  have hp := attributeName_avoids locale
  obtain ⟨hne, hstring | hstring⟩ := parseAttribute_spec h
  · rwa [hstring] at h
  · rw [hstring] at h
    unfold projentParseAttribute at h ⊢
    rw [matchWhole_append_newline hp hne, matchValues_append_newline hp hne] at h
    split at h
    · exact h
    · split at h
      · exact h
      · cases h

/-- A printed attribute is not blank. -/
theorem attribute2string_ne_nil {string : Text} {attr : Attribute}
    (h : projentParseAttribute locale string = .ok attr) : projentAttribute2string attr ≠ [] := by
  intro hnil
  have hparse := parseAttribute_attribute2string h
  rw [hnil] at hparse
  cases hparse

theorem mem_of_gather {α β : Type} {parse : α → Except (List ProjError) β} {list : List α}
    {values : List β} (h : gather (list.map parse) = .ok values) {value : β}
    (hvalue : value ∈ values) :
    ∃ x ∈ list, parse x = .ok value := by
  induction list generalizing values with
  | nil =>
    cases h
    exact absurd hvalue List.not_mem_nil
  | cons x list ih =>
    rw [List.map_cons] at h
    cases hx : parse x with
    | error errors =>
      simp only [gather, hx] at h
      cases h
    | ok first =>
      cases hrest : gather (list.map parse) with
      | error errors =>
        simp only [gather, hx, hrest] at h
        cases h
      | ok rest =>
        simp only [gather, hx, hrest] at h
        cases h
        rcases List.mem_cons.mp hvalue with rfl | hvalue
        · exact ⟨x, List.mem_cons_self, hx⟩
        · obtain ⟨y, hy, hparse⟩ := ih hrest hvalue
          exact ⟨y, List.mem_cons_of_mem _ hy, hparse⟩

theorem gather_map_ok {α β : Type} {parse : α → Except (List ProjError) β} {print : β → α}
    {values : List β} (h : ∀ value ∈ values, parse (print value) = .ok value) :
    gather ((values.map print).map parse) = .ok values := by
  induction values with
  | nil => rfl
  | cons value values ih =>
    rw [List.map_cons, List.map_cons]
    simp only [gather, h value List.mem_cons_self,
      ih fun other hother ↦ h other (List.mem_cons_of_mem _ hother)]

/-- Printed attributes are parsed again. -/
theorem parseAttributes_intercalate {attributes : Text} {list : List Attribute}
    (h : projentParseAttributes locale attributes = .ok list) :
    projentParseAttributes locale ([';'].intercalate (list.map projentAttribute2string)) =
    .ok list := by
  have hparse : ∀ attr ∈ list, ∃ string ∈ attributes.splitOn ';',
      projentParseAttribute locale string = .ok attr := by
    intro attr hattr
    obtain ⟨string, hstring, hok⟩ := mem_of_gather h hattr
    exact ⟨string, (dropBlanks_isPrefix _).subset hstring, hok⟩
  unfold projentParseAttributes
  rw [dropBlanks_splitOn_intercalate]
  · refine gather_map_ok fun attr hattr ↦ ?_
    obtain ⟨string, -, hok⟩ := hparse attr hattr
    exact parseAttribute_attribute2string hok
  · intro piece hpiece
    obtain ⟨attr, hattr, rfl⟩ := List.mem_map.mp hpiece
    obtain ⟨string, hstring, hok⟩ := hparse attr hattr
    have hsep := (of_mem_splitOn hstring).1
    rcases (parseAttribute_spec hok).2 with heq | heq
    · rwa [← heq]
    · rw [heq] at hsep
      exact fun hmem ↦ hsep (List.mem_append_left _ hmem)
  · intro hne
    rw [List.getLast_map]
    obtain ⟨string, -, hok⟩ := hparse _ (List.getLast_mem (by simpa using hne))
    exact attribute2string_ne_nil hok

/-! ### Names are parsed again -/

section Names

variable {locale : Locale} {flags : Flags} {p : Pattern Char} {format : String}

theorem parseNames_eq_ok {names : Text} {list : List Text}
    (h : parseNames locale flags p format names = .ok list) :
    list = splitNames locale flags names := by
  unfold parseNames at h
  dsimp only at h
  split at h
  · cases h
  · exact (Except.ok.inj h).symm

/-- Names that were split off and joined are split off again. -/
theorem splitNames_intercalate (names : Text) :
    splitNames locale flags ([','].intercalate (splitNames locale flags names)) =
      splitNames locale flags names := by
  have hlast : ∀ hne : splitNames locale flags names ≠ [],
      (splitNames locale flags names).getLast hne ≠ [] := fun hne ↦ getLast_dropBlanks_ne_nil hne
  have hinitial : splitNames locale flags names <+:
      if flags.allowspaces then stripPieces locale.space (names.splitOn ',')
      else names.splitOn ',' :=
    dropBlanks_isPrefix _
  by_cases hflag : flags.allowspaces = true
  · rw [if_pos hflag] at hinitial
    have hmem : ∀ name ∈ splitNames locale flags names, ',' ∉ name := by
      intro name hname
      obtain ⟨whole, hwhole, hsubset⟩ := mem_of_mem_stripPieces (hinitial.subset hname)
      exact fun hcomma ↦ (of_mem_splitOn hwhole).1 (hsubset hcomma)
    generalize splitNames locale flags names = list at hlast hinitial hmem ⊢
    unfold splitNames
    rw [if_pos hflag]
    by_cases hlist : list = []
    · subst hlist
      rfl
    · rw [List.splitOn_intercalate ',' hmem hlist, stripPieces_of_isPrefix _ _ hinitial,
        dropBlanks_of_getLast_ne_nil hlast]
  · rw [if_neg hflag] at hinitial
    have hmem : ∀ name ∈ splitNames locale flags names, ',' ∉ name := fun name hname ↦
      (of_mem_splitOn (hinitial.subset hname)).1
    generalize splitNames locale flags names = list at hlast hmem ⊢
    unfold splitNames
    rw [if_neg hflag, dropBlanks_splitOn_intercalate hmem hlast]

/-- Printed names are parsed again. -/
theorem parseNames_intercalate {names : Text} {list : List Text}
    (h : parseNames locale flags p format names = .ok list) :
    parseNames locale flags p format ([','].intercalate list) = .ok list := by
  have hlist := parseNames_eq_ok h
  unfold parseNames at h ⊢
  dsimp only at h ⊢
  rw [hlist, splitNames_intercalate, ← hlist]
  rwa [← hlist] at h

/-- A name has characters of the text only. -/
theorem subset_of_mem_splitNames {names name : Text} (h : name ∈ splitNames locale flags names) :
    name ⊆ names := by
  have hmem := (dropBlanks_isPrefix _).subset h
  by_cases hflag : flags.allowspaces = true
  · rw [if_pos hflag] at hmem
    obtain ⟨whole, hwhole, hsubset⟩ := mem_of_mem_stripPieces hmem
    exact fun c hc ↦ (of_mem_splitOn hwhole).2 (hsubset hc)
  · rw [if_neg hflag] at hmem
    exact (of_mem_splitOn hmem).2

theorem not_mem_intercalate_names {names : Text} {list : List Text}
    (h : parseNames locale flags p format names = .ok list) (hnames : ':' ∉ names) :
    ':' ∉ [','].intercalate list := by
  intro hmem
  rcases mem_intercalate hmem with hmem | ⟨name, hname, hmem⟩
  · simp at hmem
  · rw [parseNames_eq_ok h] at hname
    exact hnames (subset_of_mem_splitNames hname hmem)

end Names

theorem not_mem_intercalate_attributes {attributes : Text} {list : List Attribute}
    (h : projentParseAttributes locale attributes = .ok list) (hattributes : ':' ∉ attributes) :
    ':' ∉ [';'].intercalate (list.map projentAttribute2string) := by
  intro hmem
  rcases mem_intercalate hmem with hmem | ⟨piece, hpiece, hmem⟩
  · simp at hmem
  · obtain ⟨attr, hattr, rfl⟩ := List.mem_map.mp hpiece
    obtain ⟨string, hstring, hok⟩ := mem_of_gather h hattr
    have hsubset := (of_mem_splitOn ((dropBlanks_isPrefix _).subset hstring)).2
    refine hattributes (hsubset ?_)
    rcases (parseAttribute_spec hok).2 with heq | heq
    · rwa [heq]
    · rw [heq]
      exact List.mem_append_left _ hmem

/-! ### Entries are parsed again -/

/-- The fields of a line that is accepted. -/
theorem projentParse_eq_ok {platform : Platform} {flags : Flags} {line : Text} {p : Projent}
    (h : projentParse platform flags line = .ok p) :
    line.splitOn ':' = [p.name, p.projid, p.comment, p.users, p.groups, p.attributes] ∧
      projentParseName platform p.name = .ok p.name ∧
      projentParseProjid platform p.projid = .ok p.projid ∧
      projentParseUsers platform flags p.users = .ok p.userlist ∧
      projentParseGroups platform flags p.groups = .ok p.grouplist ∧
      projentParseAttributes platform.toLocale p.attributes = .ok p.attributelist := by
  unfold projentParse at h
  split at h
  · next projname projid comment users groups attributes hfields =>
    split at h
    · next name' id' comment' userlist grouplist attributelist hname hid hcomment husers hgroups
          hattributes =>
      cases h
      have hname' : name' = projname := by
        unfold projentParseName at hname
        split_ifs at hname
        exact (Except.ok.inj hname).symm
      have hid' : id' = projid := by
        unfold projentParseProjid at hid
        split_ifs at hid
        exact (Except.ok.inj hid).symm
      subst hname' hid'
      exact ⟨hfields, hname, hid, husers, hgroups, hattributes⟩
    · cases h
  · cases h

/-- Attribute values print as the text they were parsed from, and a printed entry is parsed again,
with the same name, id, comment, users, groups and attributes. -/
theorem values2string_parse_and_parse_2string (platform : Platform) (flags : Flags) :
    (∀ values list, projentParseAttributeValues platform.toLocale values = .ok list →
      projentValues2string list = values) ∧
    ∀ line p, projentParse platform flags line = .ok p →
      ∃ q, projentParse platform flags (projent2string p) = .ok q ∧ q.name = p.name ∧
        q.projid = p.projid ∧ q.comment = p.comment ∧ q.userlist = p.userlist ∧
        q.grouplist = p.grouplist ∧ q.attributelist = p.attributelist := by
  refine ⟨fun values list h ↦ (parse_spec h).2, fun line p h ↦ ?_⟩
  obtain ⟨hfields, hname, hid, husers, hgroups, hattributes⟩ := projentParse_eq_ok h
  have hfield : ∀ field ∈ [p.name, p.projid, p.comment, p.users, p.groups, p.attributes],
      ':' ∉ field :=
    fun field hmem ↦ (of_mem_splitOn (hfields ▸ hmem)).1
  simp only [List.forall_mem_cons] at hfield
  obtain ⟨hnameField, hidField, hcommentField, husersField, hgroupsField, hattributesField, -⟩ :=
    hfield
  have hsplit : (projent2string p).splitOn ':' = [p.name, p.projid, p.comment,
      [','].intercalate p.userlist, [','].intercalate p.grouplist,
      [';'].intercalate (p.attributelist.map projentAttribute2string)] := by
    refine List.splitOn_intercalate ':' ?_ (List.cons_ne_nil _ _)
    simp only [List.forall_mem_cons]
    exact ⟨hnameField, hidField, hcommentField, not_mem_intercalate_names husers husersField,
      not_mem_intercalate_names hgroups hgroupsField,
      not_mem_intercalate_attributes hattributes hattributesField, by simp⟩
  refine ⟨⟨p.name, p.projid, p.comment, [','].intercalate p.userlist, p.userlist,
    [','].intercalate p.grouplist, p.grouplist,
    [';'].intercalate (p.attributelist.map projentAttribute2string), p.attributelist⟩, ?_,
    rfl, rfl, rfl, rfl, rfl, rfl⟩
  have husers' : projentParseUsers platform flags ([','].intercalate p.userlist) = .ok p.userlist :=
    parseNames_intercalate husers
  have hgroups' : projentParseGroups platform flags ([','].intercalate p.grouplist) =
      .ok p.grouplist :=
    parseNames_intercalate hgroups
  unfold projentParse
  rw [hsplit]
  dsimp only
  rw [hname, hid, husers', hgroups', parseAttributes_intercalate hattributes]
  rfl

/-! ### A failure has an error -/

/-- A result is not a failure without an error. -/
def Posts {α : Type} (result : Except (List ProjError) α) : Prop :=
  result ≠ .error []

theorem posts_ok {α : Type} (value : α) : Posts (.ok value) :=
  fun h ↦ (nomatch h)

theorem posts_error {α : Type} {errors : List ProjError} (h : errors ≠ []) :
    Posts (.error errors : Except _ α) :=
  fun heq ↦ h (Except.error.inj heq)

theorem posts_bind {α β : Type} {result : Except (List ProjError) α}
    {next : α → Except (List ProjError) β}
    (h : Posts result) (hnext : ∀ value, Posts (next value)) : Posts (result >>= next) := by
  cases result with
  | ok value => exact hnext value
  | error errors => exact posts_error fun hnil ↦ h (congrArg _ hnil)

theorem exists_ok_of_errorsOf_eq_nil {α : Type} {result : Except (List ProjError) α}
    (h : Posts result) (hnil : errorsOf result = []) : ∃ value, result = .ok value := by
  cases result with
  | ok value => exact ⟨value, rfl⟩
  | error errors => exact absurd (congrArg _ hnil) h

theorem posts_parseToken (state : ParseState) (token : Text) : Posts (parseToken state token) := by
  unfold parseToken
  dsimp only
  split_ifs
  all_goals first | exact posts_ok _ | exact posts_error (List.cons_ne_nil _ _)

theorem posts_parseTokens (tokens : List Text) (state : ParseState) :
    Posts (tokens.foldlM parseToken state) := by
  induction tokens generalizing state with
  | nil => exact posts_ok _
  | cons token rest ih => exact posts_bind (posts_parseToken state token) ih

theorem posts_parseAttributeValues (locale : Locale) (values : Text) :
    Posts (projentParseAttributeValues locale values) := by
  refine posts_bind ?_ fun tokens ↦ posts_bind (posts_parseTokens tokens _) fun state ↦ ?_
  · unfold projentTokenizeAttributeValues
    dsimp only
    split_ifs with h
    · exact posts_error h
    · exact posts_ok _
  · dsimp only
    by_cases hdepth : state.parendepth ≠ 0
    · rw [if_pos hdepth]
      exact posts_error (List.cons_ne_nil _ _)
    · rw [if_neg hdepth]
      exact posts_ok _

theorem posts_parseAttribute (locale : Locale) (string : Text) :
    Posts (projentParseAttribute locale string) := by
  unfold projentParseAttribute
  split
  · exact posts_ok _
  · split
    · next name values hvalues =>
      split
      · exact posts_ok _
      · next errors herrors =>
        refine posts_error fun hnil ↦ posts_parseAttributeValues locale values ?_
        rw [herrors, List.map_eq_nil_iff.mp hnil]
    · exact posts_error (List.cons_ne_nil _ _)

theorem posts_gather {α : Type} {results : List (Except (List ProjError) α)}
    (h : ∀ result ∈ results, Posts result) :
    Posts (gather results) := by
  induction results with
  | nil => exact posts_ok _
  | cons result rest ih =>
    rw [List.forall_mem_cons] at h
    unfold gather
    split
    · exact posts_ok _
    · next hnot =>
      refine posts_error fun hnil ↦ ?_
      rw [List.append_eq_nil_iff] at hnil
      obtain ⟨value, hvalue⟩ := exists_ok_of_errorsOf_eq_nil h.1 hnil.1
      obtain ⟨values, hvalues⟩ := exists_ok_of_errorsOf_eq_nil (ih h.2) hnil.2
      exact hnot value values hvalue hvalues

theorem posts_parseNames (locale : Locale) (flags : Flags) (p : Pattern Char) (format : String)
    (names : Text) :
    Posts (parseNames locale flags p format names) := by
  unfold parseNames
  dsimp only
  split_ifs with h
  · exact posts_error fun hnil ↦ h (List.map_eq_nil_iff.mp hnil)
  · exact posts_ok _

/-- A line that is not parsed has an error. -/
theorem posts_projentParse (platform : Platform) (flags : Flags) (line : Text) :
    Posts (projentParse platform flags line) := by
  unfold projentParse
  split
  · next projname projid comment users groups attributes hfields =>
    split
    · exact posts_ok _
    · next hnot =>
      refine posts_error fun hnil ↦ ?_
      simp only [fieldErrors, List.zipWith_cons_cons, List.zipWith_nil_right, List.flatten_cons,
        List.flatten_nil, List.append_eq_nil_iff] at hnil
      obtain ⟨hname, hid, -, husers, hgroups, hattributes, -⟩ := hnil
      have hnamePosts : Posts (projentParseName platform projname) := by
        unfold projentParseName
        split_ifs
        all_goals first | exact posts_ok _ | exact posts_error (List.cons_ne_nil _ _)
      have hidPosts : Posts (projentParseProjid platform projid) := by
        unfold projentParseProjid
        split_ifs
        all_goals first | exact posts_ok _ | exact posts_error (List.cons_ne_nil _ _)
      obtain ⟨name, hname⟩ := exists_ok_of_errorsOf_eq_nil hnamePosts hname
      obtain ⟨id, hid⟩ := exists_ok_of_errorsOf_eq_nil hidPosts hid
      obtain ⟨userlist, husers⟩ := exists_ok_of_errorsOf_eq_nil (posts_parseNames _ _ _ _ _) husers
      obtain ⟨grouplist, hgroups⟩ :=
        exists_ok_of_errorsOf_eq_nil (posts_parseNames _ _ _ _ _) hgroups
      obtain ⟨attributelist, hattributes⟩ := exists_ok_of_errorsOf_eq_nil
        (posts_gather fun result hresult ↦ by
          obtain ⟨string, -, rfl⟩ := List.mem_map.mp hresult
          exact posts_parseAttribute _ string) hattributes
      exact hnot name id comment userlist grouplist attributelist hname hid rfl husers
        hgroups hattributes
  · exact posts_error (List.cons_ne_nil _ _)

/-- The portable locale with the limits of the system's headers. -/
def posix : Platform where
  alpha := Char.isAlpha
  upper := Char.isUpper
  alnum := Char.isAlphanum
  space c := c.isWhitespace
  alpha_newline := by decide
  upper_newline := by decide
  alnum_newline := by decide
  projnameMax := 64
  intMax := 2147483647

/-- An entry with nested and empty values, padded names and a newline at the end of its line. -/
theorem values2string_parse_and_parse_2string_entry :
    (∃ list, projentParseAttributeValues posix.toLocale "a,(b,,()),".toList = .ok list ∧
      projentValues2string list = "a,(b,,()),".toList) ∧
    ∃ p q, projentParse posix ⟨true⟩ "user.x:7:c:root ,*,:!adm:SUNW,k=(a,),;m=;z\n".toList = .ok p ∧
      projentParse posix ⟨true⟩ (projent2string p) = .ok q ∧ q.userlist = p.userlist := by
  obtain ⟨hvalues, hline⟩ := values2string_parse_and_parse_2string posix ⟨true⟩
  refine ⟨⟨_, rfl, hvalues _ _ rfl⟩, ?_⟩
  have hparse : ∃ p, projentParse posix ⟨true⟩
      "user.x:7:c:root ,*,:!adm:SUNW,k=(a,),;m=;z\n".toList = .ok p := ⟨_, rfl⟩
  obtain ⟨p, hp⟩ := hparse
  obtain ⟨q, hq, -, -, -, husers, -⟩ := hline _ p hp
  exact ⟨p, q, hp, hq, husers⟩

end Userland.Project
