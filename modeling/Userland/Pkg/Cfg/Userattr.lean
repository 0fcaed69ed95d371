import Userland.Library.Dict
import Userland.Library.Escaping
import Userland.Library.Program
import Userland.Pkg.Cfg.CfgFile

/-!
# User attributes

`UserattrFile` splits a line of `user_attr` at the colons, the attributes at the semicolons and an
attribute at the equals signs that do not follow a backslash, and the values of an attribute at
every comma. Records are printed by joining, without escaping.

A record whose texts are escaped is read back exactly if it has attributes, no name and no list of
values is empty, no value has a comma, and no backslash stands before a separator that is put in
(`Safe`). A line that was read keeps its attributes exactly if each of them has one equals sign and
none is followed by another one of its name (`userattr_iff`).

Scope. A record is one line; the dictionary of attributes is the list of its entries in the order in
which it is gone through.
-/

set_option autoImplicit false
set_option relaxedAutoImplicit false

namespace Userland.Pkg.Cfg.Userattr

open Library

/-! ### Lines and records -/

/-- The attributes of a user with their values. -/
abbrev Attributes := List (List Char × List (List Char))

/-- The columns of a record. -/
structure Columns where
  username : List Char
  qualifier : List Char
  reserved1 : List Char
  reserved2 : List Char
  attributes : Attributes
deriving DecidableEq

/-- `re.split("(?<=[^\\\\])" + sep, text)`. -/
def resplit (sep : Char) (text : List Char) : List (List Char) :=
  splitFrom '\\' sep none text

/-- The name and the values of an attribute. -/
def readAttribute (attr : List Char) : Except Error (List Char × List (List Char)) :=
  match resplit '=' attr with
  | name :: values :: _ => .ok (name, values.splitOn ',')
  | _ => .error .indexError

/-- The dictionary of the attributes. -/
def readAttributes (attributes : List (List Char)) : Except Error Attributes :=
  (attributes.mapM readAttribute).map fun entries ↦
    entries.foldl (fun d entry ↦ Dict.set d entry.1 entry.2) []

/-- `splitline`. -/
def splitline (line : List Char) : Except Error Columns :=
  match resplit ':' line with
  | [username, qualifier, reserved1, reserved2, attributes] =>
    (readAttributes (resplit ';' attributes)).map fun d ↦
      ⟨username, qualifier, reserved1, reserved2, d⟩
  | cols => .error (.columns line cols.length)

/-- `iscommentline`. -/
def iscommentline (line : List Char) : Bool :=
  line.isEmpty || startsWithOneOf ['#'] line

/-- What `readfile` makes of a line: nothing of a comment, and the columns of a record. -/
def readLine (line : List Char) : Except Error (Option Columns) :=
  if iscommentline line then .ok none else (splitline line).map some

/-- `"%s=%s" % (key, ",".join(attrdict[key]))`. -/
def printAttribute (entry : List Char × List (List Char)) : List Char :=
  entry.1 ++ '=' :: [','].intercalate entry.2

/-- `valuetostr`. -/
def valuetostr (c : Columns) : List Char :=
  [':'].intercalate [c.username, c.qualifier, c.reserved1, c.reserved2,
    [';'].intercalate (c.attributes.map printAttribute)]

/-! ### What is asked of them -/

/-- The characters that have to be escaped. -/
def special : List Char := [':', ';', '=', ',']

/-- A record whose texts are escaped. -/
structure Stored extends Columns where
  columns_escaped : ∀ column ∈ [username, qualifier, reserved1, reserved2],
    Escaped '\\' special column
  attributes_escaped : ∀ entry ∈ attributes, Escaped '\\' special entry.1 ∧
    ∀ value ∈ entry.2, Escaped '\\' special value
  distinct : (attributes.map Prod.fst).Nodup

/-- The columns are the same, the attributes as a dictionary. -/
structure SameColumns (c other : Columns) : Prop where
  username : other.username = c.username
  qualifier : other.qualifier = c.qualifier
  reserved1 : other.reserved1 = c.reserved1
  reserved2 : other.reserved2 = c.reserved2
  attributes : ∀ name, other.attributes.lookup name = c.attributes.lookup name

/-- The line of a record is read back with the same columns. -/
def RoundTrips (c : Columns) : Prop :=
  ∃ other, readLine (valuetostr c) = .ok (some other) ∧ SameColumns c other

/-- The record is no comment, has attributes with names and values without commas, and no backslash
comes to stand before a separator. -/
structure Safe (c : Columns) : Prop where
  username_ne : c.username ≠ []
  username_head : startsWithOneOf ['#'] c.username = false
  columns : ∀ column ∈ [c.username, c.qualifier, c.reserved1, c.reserved2],
    column.getLast? ≠ some '\\'
  attributes_ne : c.attributes ≠ []
  names : ∀ entry ∈ c.attributes, entry.1 ≠ [] ∧ entry.1.getLast? ≠ some '\\'
  values : ∀ entry ∈ c.attributes, entry.2 ≠ [] ∧ ∀ value ∈ entry.2, ',' ∉ value
  ends : ∀ entry ∈ c.attributes.dropLast, ∀ value, entry.2.getLast? = some value →
    value.getLast? ≠ some '\\'

/-- A line that is read as a record. -/
structure Accepted where
  line : List Char
  columns : Columns
  read : readLine line = .ok (some columns)

/-- The attributes of a line, as they stand there. -/
def attributeTexts (line : List Char) : List (List Char) :=
  match resplit ':' line with
  | [_, _, _, _, attributes] => resplit ';' attributes
  | _ => []

/-- Every attribute of the line is printed as it stands there. -/
def Lossless (accepted : Accepted) : Prop :=
  ∀ attr ∈ attributeTexts accepted.line, attr ∈ accepted.columns.attributes.map printAttribute

/-- Every attribute has one equals sign that is not escaped, and attributes of one name are the
same. -/
def OneEach (line : List Char) : Prop :=
  ∀ attr ∈ attributeTexts line, (resplit '=' attr).length = 2 ∧
    ∀ other ∈ attributeTexts line, (resplit '=' other).head? = (resplit '=' attr).head? →
      other = attr

/-! ### Attributes -/

section Attributes

variable {entry : List Char × List (List Char)} {attr : List Char}

/-- What an attribute is read as. -/
theorem readAttribute_eq_ok_iff :
    readAttribute attr = .ok entry ↔
      ∃ values rest, resplit '=' attr = entry.1 :: values :: rest ∧
      entry.2 = values.splitOn ',' := by
  unfold readAttribute
  constructor
  · intro h
    split at h
    · rename_i name values rest hsplit
      cases h
      exact ⟨values, rest, hsplit, rfl⟩
    · cases h
  · rintro ⟨values, rest, hsplit, hvalues⟩
    rw [hsplit]
    show Except.ok (entry.1, values.splitOn ',') = _
    rw [← hvalues]

/-- A name that is read is not empty and does not end in a backslash. -/
theorem name_of_readAttribute (h : readAttribute attr = .ok entry) :
    entry.1 ≠ [] ∧ entry.1.getLast? ≠ some '\\' := by
  obtain ⟨values, rest, hsplit, -⟩ := readAttribute_eq_ok_iff.mp h
  exact follows_lastOr_none_iff.mp ((splitFrom_eq_cons hsplit).2 _ _ rfl).1

/-- Values that are read are not none and have no commas. -/
theorem values_of_readAttribute (h : readAttribute attr = .ok entry) :
    entry.2 ≠ [] ∧ ∀ value ∈ entry.2, ',' ∉ value := by
  obtain ⟨values, rest, -, hvalues⟩ := readAttribute_eq_ok_iff.mp h
  rw [hvalues]
  exact ⟨List.splitOn_ne_nil _ _, fun value hvalue ↦ (of_mem_splitOn hvalue).1⟩

/-- An attribute with a name, and values without commas, is read back. -/
theorem readAttribute_printAttribute (hname : Whole '\\' '=' entry.1)
    (hvalues : ∀ value ∈ entry.2, Whole '\\' '=' value)
    (hend : entry.1 ≠ [] ∧ entry.1.getLast? ≠ some '\\')
    (hcomma : entry.2 ≠ [] ∧ ∀ value ∈ entry.2, ',' ∉ value) :
    readAttribute (printAttribute entry) = .ok entry := by
  have hjoin : Whole '\\' '=' ([','].intercalate entry.2) :=
    (whole_singleton (by decide)).intercalate hvalues
  refine readAttribute_eq_ok_iff.mpr ⟨[','].intercalate entry.2, [], ?_, ?_⟩
  · rw [resplit, printAttribute,
      splitFrom_of_follows (hname none) (follows_lastOr_none_iff.mpr hend), hjoin]
  · rw [List.splitOn_intercalate _ hcomma.2 hcomma.1]

/-- An attribute with one equals sign is printed as it stood there. -/
theorem printAttribute_of_length (h : readAttribute attr = .ok entry)
    (hlength : (resplit '=' attr).length = 2) :
    printAttribute entry = attr := by
  obtain ⟨values, rest, hsplit, hvalues⟩ := readAttribute_eq_ok_iff.mp h
  have hrest : rest = [] := by
    rw [hsplit] at hlength
    simpa using hlength
  have hjoin : ['='].intercalate (splitFrom '\\' '=' none attr) = attr :=
    intercalate_splitFrom none attr
  have hsplit' : splitFrom '\\' '=' none attr = [entry.1, values] := hrest ▸ hsplit
  rw [hsplit'] at hjoin
  rw [printAttribute, hvalues, List.intercalate_splitOn, ← hjoin]
  simp

/-- What is printed for an attribute has one equals sign, and the name of the attribute. -/
theorem resplit_printAttribute (h : readAttribute attr = .ok entry) :
    ∃ values, resplit '=' (printAttribute entry) = [entry.1, values] := by
  obtain ⟨values, rest, hsplit, hvalues⟩ := readAttribute_eq_ok_iff.mp h
  refine ⟨values, ?_⟩
  rw [printAttribute, hvalues, List.intercalate_splitOn]
  exact splitFrom_first_second hsplit

end Attributes

/-! ### Records -/

section Records

theorem printAttribute_ne_nil (entry : List Char × List (List Char)) :
    printAttribute entry ≠ [] := by
  unfold printAttribute
  simp

/-- An attribute ends in a backslash exactly if its last value does. -/
theorem getLast?_printAttribute_iff (entry : List Char × List (List Char)) :
    (printAttribute entry).getLast? = some '\\' ↔
      ∃ value, entry.2.getLast? = some value ∧ value.getLast? = some '\\' := by
  have hends := getLast?_intercalate_iff (show ',' ≠ '\\' by decide) entry.2
  rw [printAttribute, ← hends, List.getLast?_append, List.getLast?_cons]
  cases ([','].intercalate entry.2).getLast? with
  | none => simp
  | some last => simp

variable (record : Stored)

theorem Stored.whole_column {sep : Char} (hsep : sep ∈ special) (hne : sep ≠ '\\') :
    ∀ column ∈ [record.username, record.qualifier, record.reserved1, record.reserved2],
      Whole '\\' sep column :=
  fun column hcolumn ↦ (record.columns_escaped column hcolumn).whole hsep hne

theorem Stored.whole_printAttribute {sep : Char} (hsep : sep ∈ special) (hne : sep ≠ '\\')
    (hequals : '=' ≠ sep)
    (hcomma : ',' ≠ sep) : ∀ attr ∈ record.attributes.map printAttribute, Whole '\\' sep attr := by
  intro attr hattr
  obtain ⟨entry, hentry, rfl⟩ := List.mem_map.mp hattr
  obtain ⟨hname, hvalues⟩ := record.attributes_escaped entry hentry
  have hjoin : Whole '\\' sep ([','].intercalate entry.2) :=
    (whole_singleton hcomma).intercalate fun value hvalue ↦ (hvalues value hvalue).whole hsep hne
  exact (hname.whole hsep hne).append ((whole_singleton hequals).append hjoin)

/-- The pieces of the line of a record. -/
def pieces (c : Columns) : List (List Char) :=
  [c.username, c.qualifier, c.reserved1, c.reserved2,
    [';'].intercalate (c.attributes.map printAttribute)]

theorem Stored.whole_pieces : ∀ piece ∈ pieces record.toColumns, Whole '\\' ':' piece := by
  have hattributes : Whole '\\' ':' ([';'].intercalate (record.attributes.map printAttribute)) :=
    (whole_singleton (by decide)).intercalate
      (record.whole_printAttribute (by decide) (by decide) (by decide) (by decide))
  have hcolumns : ∀ column ∈ [record.username, record.qualifier, record.reserved1,
      record.reserved2], Whole '\\' ':' column := record.whole_column (by decide) (by decide)
  intro piece hpiece
  rw [pieces, List.mem_cons, List.mem_cons, List.mem_cons, List.mem_cons,
    List.mem_singleton] at hpiece
  rcases hpiece with rfl | rfl | rfl | rfl | rfl
  · exact hcolumns _ (by simp)
  · exact hcolumns _ (by simp)
  · exact hcolumns _ (by simp)
  · exact hcolumns _ (by simp)
  · exact hattributes

/-- The columns are parted if no backslash stands before a colon, and the first one is not empty. -/
theorem parted_pieces_iff (c : Columns) :
    Parted '\\' ':' none (pieces c) ↔ c.username ≠ [] ∧
      ∀ column ∈ [c.username, c.qualifier, c.reserved1, c.reserved2],
      column.getLast? ≠ some '\\' := by
  have hcolon : ':' ≠ '\\' := by decide
  show (follows '\\' (lastOr none c.username) = true ∧
    follows '\\' (lastOr (some ':') c.qualifier) = true ∧
    follows '\\' (lastOr (some ':') c.reserved1) = true ∧
    follows '\\' (lastOr (some ':') c.reserved2) = true ∧ True) ↔ _
  rw [follows_lastOr_none_iff, follows_lastOr_some_iff hcolon, follows_lastOr_some_iff hcolon,
    follows_lastOr_some_iff hcolon, and_true, and_assoc]
  simp only [List.forall_mem_cons, List.not_mem_nil, false_imp_iff, implies_true, and_true]

/-- The attributes are parted if there are any and no backslash stands before a semicolon. -/
theorem parted_attributes_iff (attributes : Attributes) :
    Parted '\\' ';' none (attributes.map printAttribute) ↔ attributes ≠ [] ∧
      ∀ entry ∈ attributes.dropLast, ∀ value, entry.2.getLast? = some value →
      value.getLast? ≠ some '\\' := by
  have hne : ∀ attr ∈ attributes.map printAttribute, attr ≠ [] := by
    intro attr hattr
    obtain ⟨entry, -, rfl⟩ := List.mem_map.mp hattr
    exact printAttribute_ne_nil entry
  rw [parted_iff_of_ne_nil hne, ne_eq, List.map_eq_nil_iff, ← List.map_dropLast]
  simp only [List.forall_mem_map, ne_eq, getLast?_printAttribute_iff, not_exists, not_and]

/-- Attributes that are printed are read back. -/
theorem Stored.readAttributes (h : Safe record.toColumns) :
    readAttributes (record.attributes.map printAttribute) = .ok record.attributes := by
  have hread : ∀ entry ∈ record.attributes, readAttribute (printAttribute entry) = .ok entry := by
    intro entry hentry
    obtain ⟨hname, hvalues⟩ := record.attributes_escaped entry hentry
    exact readAttribute_printAttribute (hname.whole (by decide) (by decide))
      (fun value hvalue ↦ (hvalues value hvalue).whole (by decide) (by decide))
        (h.names entry hentry)
      (h.values entry hentry)
  have hmap : (record.attributes.map printAttribute).mapM readAttribute =
      .ok record.attributes := by
    have hcongr : record.attributes.mapM (readAttribute ∘ printAttribute) =
        record.attributes.mapM .ok :=
      Program.mapM_congr hread
    have hpure : record.attributes.mapM (fun entry ↦ (pure (id entry) : Except Error _)) =
        .ok (record.attributes.map id) := List.mapM_pure
    rw [List.map_id] at hpure
    rw [List.mapM_map]
    exact hcongr.trans hpure
  rw [Userattr.readAttributes, hmap]
  have hset : record.attributes.foldl (fun d entry ↦ Dict.set d entry.1 entry.2) [] =
      [] ++ record.attributes :=
    Dict.foldl_set_of_nodup (by simpa using record.distinct)
  exact congrArg Except.ok hset

theorem iscommentline_append {text : List Char} (hne : text ≠ []) (rest : List Char) :
    iscommentline (text ++ rest) = startsWithOneOf ['#'] text := by
  cases text with
  | nil => exact absurd rfl hne
  | cons c text => rfl

theorem exists_valuetostr_eq (c : Columns) : ∃ rest, valuetostr c = c.username ++ ':' :: rest :=
  ⟨_, by rw [valuetostr, List.intercalate_cons_cons, List.append_assoc, List.singleton_append]⟩

/-- A record that is safe is read back. -/
theorem roundTrips_of_safe (h : Safe record.toColumns) : RoundTrips record.toColumns := by
  have hcolumns : resplit ':' (valuetostr record.toColumns) = pieces record.toColumns :=
    splitFrom_intercalate_of_parted record.whole_pieces
      ((parted_pieces_iff _).mpr ⟨h.username_ne, h.columns⟩)
  have hattributes : resplit ';' ([';'].intercalate (record.attributes.map printAttribute)) =
      record.attributes.map printAttribute :=
    splitFrom_intercalate_of_parted (record.whole_printAttribute (by decide) (by decide) (by decide)
      (by decide))
      ((parted_attributes_iff _).mpr ⟨h.attributes_ne, h.ends⟩)
  obtain ⟨rest, hline⟩ := exists_valuetostr_eq record.toColumns
  have hcomment : iscommentline (valuetostr record.toColumns) = false := by
    rw [hline, iscommentline_append h.username_ne]
    exact h.username_head
  refine ⟨record.toColumns, ?_, rfl, rfl, rfl, rfl, fun _ ↦ rfl⟩
  unfold readLine splitline
  rw [hcomment, hcolumns, pieces]
  dsimp only
  rw [hattributes, record.readAttributes h]
  rfl

/-- The columns of a line that is read. -/
theorem pieces_of_readLine {line : List Char} {columns : Columns}
    (h : readLine line = .ok (some columns)) :
    iscommentline line = false ∧ ∃ attributes,
      resplit ':' line =
        [columns.username, columns.qualifier, columns.reserved1, columns.reserved2, attributes] ∧
      readAttributes (resplit ';' attributes) = .ok columns.attributes := by
  unfold readLine at h
  split_ifs at h with hcomment
  · cases h
  refine ⟨Bool.eq_false_iff.mpr hcomment, ?_⟩
  unfold splitline at h
  split at h
  · rename_i username qualifier reserved1 reserved2 attributes hsplit
    cases hread : readAttributes (resplit ';' attributes) with
    | error error =>
      rw [hread] at h
      cases h
    | ok d =>
      rw [hread] at h
      cases h
      exact ⟨attributes, hsplit, hread⟩
  · cases h

/-- The entries of the dictionary that is read. -/
structure ReadFrom (texts : List (List Char)) (attributes : Attributes) : Prop where
  nodup : (attributes.map Prod.fst).Nodup
  length_le : attributes.length ≤ texts.length
  exists_text : ∀ entry ∈ attributes, ∃ attr ∈ texts, readAttribute attr = .ok entry
  exists_entry : ∀ attr ∈ texts, ∃ entry, readAttribute attr = .ok entry ∧
    ∃ other ∈ attributes, other.1 = entry.1

theorem readFrom_of_readAttributes {texts : List (List Char)} {attributes : Attributes}
    (h : readAttributes texts = .ok attributes) : ReadFrom texts attributes := by
  unfold Userattr.readAttributes at h
  cases hentries : texts.mapM readAttribute with
  | error error =>
    rw [hentries] at h
    cases h
  | ok entries =>
    rw [hentries] at h
    obtain rfl : entries.foldl (fun d entry ↦ Dict.set d entry.1 entry.2) [] = attributes :=
      Except.ok.inj h
    have hmem : ∀ entry, entry ∈ entries ↔ ∃ attr ∈ texts,
        readAttribute attr = .ok entry := fun entry ↦
      Program.mem_mapM_ok_iff hentries
    refine ⟨Dict.nodup_foldl_set entries List.nodup_nil, ?_, ?_, fun attr hattr ↦ ?_⟩
    · have hlength := Dict.length_foldl_set_le entries []
      rwa [List.length_nil, Nat.zero_add, Program.length_of_mapM_ok hentries] at hlength
    · exact Dict.forall_mem_foldl_set (P := fun name values ↦ ∃ attr ∈ texts,
        readAttribute attr = .ok (name, values))
        (fun _ h ↦ (nomatch h)) fun entry hentry ↦ (hmem entry).mp hentry
    · obtain ⟨entry, hentry⟩ := Program.ok_of_mapM_ok hentries attr hattr
      have hkey : entry.1 ∈ (entries.foldl (fun d entry ↦ Dict.set d entry.1 entry.2)
          []).map Prod.fst :=
        Dict.mem_keys_foldl_set.mpr
          (Or.inr (List.mem_map_of_mem ((hmem entry).mpr ⟨attr, hattr, hentry⟩)))
      obtain ⟨other, hother, hname⟩ := List.mem_map.mp hkey
      exact ⟨entry, hentry, other, hother, hname⟩

/-- Equal dictionaries have the same entries. -/
theorem perm_of_lookup {d attributes : Attributes} (hd : (d.map Prod.fst).Nodup)
    (hattributes : (attributes.map Prod.fst).Nodup)
    (h : ∀ name, d.lookup name = attributes.lookup name) : d.Perm attributes := by
  refine (List.perm_ext_iff_of_nodup hd.of_map hattributes.of_map).mpr fun entry ↦ ?_
  rw [← Dict.lookup_eq_some_iff_mem hd, ← Dict.lookup_eq_some_iff_mem hattributes, h]

/-- A record that is read back is safe. -/
theorem safe_of_roundTrips (h : RoundTrips record.toColumns) : Safe record.toColumns := by
  obtain ⟨columns, hread, hsame⟩ := h
  obtain ⟨hcomment, attributes, hsplit, hattributes⟩ := pieces_of_readLine hread
  rw [hsame.username, hsame.qualifier, hsame.reserved1, hsame.reserved2] at hsplit
  -- The pieces join to the line, so the last one is what was printed for the attributes.
  have hjoin : [':'].intercalate (resplit ':' (valuetostr record.toColumns)) =
      valuetostr record.toColumns :=
    intercalate_splitFrom none _
  have hlast : attributes = [';'].intercalate (record.attributes.map printAttribute) := by
    rw [hsplit, valuetostr] at hjoin
    simpa [List.intercalate_cons_cons] using hjoin
  subst hlast
  have hparted := (splitFrom_intercalate_iff record.whole_pieces (List.cons_ne_nil _ _)).mp hsplit
  obtain ⟨husername, hcolumns⟩ := (parted_pieces_iff _).mp hparted
  have hreadFrom := readFrom_of_readAttributes hattributes
  have hperm := perm_of_lookup hreadFrom.nodup record.distinct hsame.attributes
  have hentry : ∀ entry ∈ record.attributes, ∃ attr, readAttribute attr = .ok entry :=
      fun entry hentry ↦
    (hreadFrom.exists_text entry (hperm.mem_iff.mpr hentry)).imp fun _ hand ↦ hand.2
  have hne : record.attributes ≠ [] := by
    intro hnil
    obtain ⟨entry, -, other, hother, -⟩ := hreadFrom.exists_entry [] (by
      rw [hnil]
      exact List.mem_singleton_self [])
    rw [hnil] at hperm
    have hcolumns : columns.attributes = [] := List.perm_nil.mp hperm
    rw [hcolumns] at hother
    cases hother
  have hends : Parted '\\' ';' none (record.attributes.map printAttribute) := by
    by_contra hnot
    have hlt := (length_splitFrom_le
      (record.whole_printAttribute (by decide) (by decide) (by decide) (by decide))
      (fun hnil ↦ hne (List.map_eq_nil_iff.mp hnil)) none).2 hnot
    rw [List.length_map, ← hperm.length_eq] at hlt
    exact Nat.not_lt.mpr hreadFrom.length_le hlt
  obtain ⟨rest, hline⟩ := exists_valuetostr_eq record.toColumns
  refine ⟨husername, ?_, hcolumns, hne, fun entry hmem ↦ ?_, fun entry hmem ↦ ?_,
    ((parted_attributes_iff _).mp hends).2⟩
  · rwa [hline, iscommentline_append husername] at hcomment
  · obtain ⟨attr, hattr⟩ := hentry entry hmem
    exact name_of_readAttribute hattr
  · obtain ⟨attr, hattr⟩ := hentry entry hmem
    exact values_of_readAttribute hattr

end Records

/-! ### Lines that are read and printed -/

/-- A line keeps its attributes exactly if each has one equals sign and those of one name are the
same. -/
theorem lossless_iff (accepted : Accepted) : Lossless accepted ↔ OneEach accepted.line := by
  obtain ⟨-, attributes, hsplit, hattributes⟩ := pieces_of_readLine accepted.read
  have htexts : attributeTexts accepted.line = resplit ';' attributes := by
    rw [attributeTexts, hsplit]
  have hread := readFrom_of_readAttributes hattributes
  have hhead : ∀ {attr : List Char} {entry : List Char × List (List Char)},
      readAttribute attr = .ok entry →
      (resplit '=' attr).head? = some entry.1 := by
    intro attr entry hentry
    obtain ⟨values, rest, hpieces, -⟩ := readAttribute_eq_ok_iff.mp hentry
    rw [hpieces, List.head?_cons]
  unfold Lossless OneEach
  rw [htexts]
  constructor
  · -- What is printed has one equals sign and the name of its entry.
    intro h attr hattr
    obtain ⟨entry, hentry, hprint⟩ := List.mem_map.mp (h attr hattr)
    obtain ⟨text, -, htext⟩ := hread.exists_text entry hentry
    obtain ⟨values, hvalues⟩ := resplit_printAttribute htext
    rw [hprint] at hvalues
    refine ⟨by rw [hvalues]; rfl, fun other hother hname ↦ ?_⟩
    obtain ⟨entry', hentry', hprint'⟩ := List.mem_map.mp (h other hother)
    obtain ⟨text', -, htext'⟩ := hread.exists_text entry' hentry'
    obtain ⟨values', hvalues'⟩ := resplit_printAttribute htext'
    rw [hprint'] at hvalues'
    rw [hvalues, hvalues', List.head?_cons, List.head?_cons, Option.some.injEq] at hname
    have hlookup := (Dict.lookup_eq_some_iff_mem hread.nodup).mpr hentry
    have hlookup' := (Dict.lookup_eq_some_iff_mem hread.nodup).mpr hentry'
    rw [hname, hlookup] at hlookup'
    rw [← hprint, ← hprint', Prod.ext hname (Option.some.inj hlookup').symm]
  · -- The entry under the name of an attribute comes from an attribute of that name.
    intro h attr hattr
    obtain ⟨hlength, hsame⟩ := h attr hattr
    obtain ⟨entry, hentry, other, hother, hname⟩ := hread.exists_entry attr hattr
    obtain ⟨text, htext, hreadtext⟩ := hread.exists_text other hother
    obtain rfl := hsame text htext (by rw [hhead hreadtext, hhead hentry, hname])
    obtain rfl := Except.ok.inj (hreadtext.symm.trans hentry)
    exact List.mem_map.mpr ⟨other, hother, printAttribute_of_length hreadtext hlength⟩

/-- Records are read back, and lines keep their attributes, exactly under these conditions. -/
theorem userattr_iff (record : Stored) (accepted : Accepted) :
    (RoundTrips record.toColumns ↔ Safe record.toColumns) ∧ (Lossless accepted ↔
      OneEach accepted.line) :=
  ⟨⟨safe_of_roundTrips record, roundTrips_of_safe record⟩, lossless_iff accepted⟩

theorem distinct_nil : (([] : Attributes).map Prod.fst).Nodup :=
  List.nodup_nil

/-- A user without attributes. -/
def withoutAttributes : Stored where
  username := "root".toList
  qualifier := []
  reserved1 := []
  reserved2 := []
  attributes := []
  columns_escaped := by
    simp only [List.forall_mem_cons, List.not_mem_nil, false_imp_iff, implies_true, and_true]
    exact ⟨.plain (by decide) (by decide) (.plain (by decide) (by decide)
      (.plain (by decide) (by decide) (.plain (by decide) (by decide) .nil))), .nil, .nil, .nil⟩
  attributes_escaped := fun _ h ↦ (nomatch h)
  distinct := distinct_nil

/-- A line with two equals signs in an attribute, and an attribute that comes twice. -/
def repeated : Accepted where
  line := "root::::type=role=x;auths=a;auths=b".toList
  columns := ⟨"root".toList, [], [], [],
    [("type".toList, ["role".toList]), ("auths".toList, ["b".toList])]⟩
  read := by rfl

/-- A record without attributes is not read back, and a part of a value and an attribute are lost.
-/
theorem not_roundTrips_root : ¬ RoundTrips withoutAttributes.toColumns ∧ ¬ Lossless repeated := by
  refine ⟨fun ⟨columns, hread, _⟩ ↦ ?_, fun h ↦ ?_⟩
  · cases hread.symm.trans (rfl : readLine (valuetostr withoutAttributes.toColumns) =
      .error .indexError)
  · exact absurd (h "type=role=x".toList (by decide)) (by decide)

end Userland.Pkg.Cfg.Userattr
