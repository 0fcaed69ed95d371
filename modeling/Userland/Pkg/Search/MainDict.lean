import Mathlib.Data.List.DropRight
import Userland.Library.Nested
import Userland.Pkg.Numeral

/-!
# Lines of the main dictionary

`pkg/search_storage.py`: a line of the main dictionary of a search index has a token and the places
where it was seen, as lists in lists: action types, keys, full values, packages, and offsets. Each
level has a separator of its own. Tokens and full values are quoted (`urllib.quote`), action types
and keys are not.

A line is read back as what was written unless a key has a separator of its level or of those above
it, or the line ends with a line break of a key (`parseMainDictLine_transform_iff`).

Scope. Strings are strings of bytes.
-/

set_option autoImplicit false
set_option relaxedAutoImplicit false

namespace Userland.Pkg.Search.MainDict

open Library

/-! ### Bytes -/

/-- A string of the source. -/
abbrev Bytes : Type := List UInt8

/-- The bytes of ASCII characters. -/
def bytes (text : List Char) : Bytes :=
  text.map fun c ↦ UInt8.ofNat c.toNat

/-- The characters that bytes stand for. -/
def chars (text : Bytes) : List Char :=
  text.map fun b ↦ Char.ofNat b.toNat

/-- The byte of an ASCII character. -/
def byte (c : Char) : UInt8 := UInt8.ofNat c.toNat

/-! ### Quoting -/

/-- The characters that `urllib.quote` leaves as they are. -/
def isSafe (b : UInt8) : Bool :=
  (Char.ofNat b.toNat).isAlphanum && b < 128 || b ∈ [byte '_', byte '.', byte '-', byte '/']

/-- A digit to the base 16. -/
def hexDigit (n : ℕ) : UInt8 :=
  if n < 10 then UInt8.ofNat (48 + n) else UInt8.ofNat (55 + n)

/-- The value of a digit to the base 16. -/
def hexValue (b : UInt8) : Option UInt8 :=
  if 48 ≤ b ∧ b ≤ 57 then some (b - 48)
  else if 65 ≤ b ∧ b ≤ 70 then some (b - 55)
  else if 97 ≤ b ∧ b ≤ 102 then some (b - 87)
  else none

/-- What `urllib.quote` puts for a byte. -/
def quoteByte (b : UInt8) : Bytes :=
  if isSafe b then [b] else [byte '%', hexDigit (b.toNat / 16), hexDigit (b.toNat % 16)]

/-- `urllib.quote(s)`. -/
def quote (s : Bytes) : Bytes :=
  s.flatMap quoteByte

/-- The byte that two digits stand for. -/
def hexByte (high low : UInt8) : Option UInt8 := do
  return 16 * (← hexValue high) + (← hexValue low)

/-- `urllib.unquote(s)`. -/
def unquote : Bytes → Bytes
  | [] => []
  | 37 :: high :: low :: rest =>
    match hexByte high low with
    | some b => b :: unquote rest
    | none => 37 :: unquote (high :: low :: rest)
  | b :: rest => b :: unquote rest

/-! ### Lines -/

/-- The packages with the offsets in their manifests. -/
abbrev Places : Type := List (ℤ × List ℤ)

/-- What is known about a token: action types with keys with full values with places. -/
abbrev Entries : Type := List (Bytes × List (Bytes × List (Bytes × Places)))

instance : DecidableEq (List (Bytes × Places)) := inferInstance

instance : DecidableEq (List (Bytes × List (Bytes × Places))) := inferInstance

instance : DecidableEq Entries := inferInstance

/-- `str(n)`. -/
def strInt (n : ℤ) : Bytes :=
  bytes (Text.strInt n)

/-- `int(text)`. -/
def parseInt (text : Bytes) : Option ℤ :=
  Text.parseInt (chars text)

/-- `sep_chars[4]` and what it separates. -/
def printPlace : ℤ × List ℤ → Bytes :=
  printNode (byte ',') strInt strInt

/-- `sep_chars[3]` and what it separates. -/
def printFullValue : Bytes × Places → Bytes :=
  printNode (byte '#') quote printPlace

/-- `sep_chars[2]` and what it separates. -/
def printKey : Bytes × List (Bytes × Places) → Bytes :=
  printNode (byte '@') id printFullValue

/-- `sep_chars[1]` and what it separates. -/
def printActionType : Bytes × List (Bytes × List (Bytes × Places)) → Bytes :=
  printNode (byte '!') id printKey

/-- A line without its line break. -/
def printLine : Bytes × Entries → Bytes :=
  printNode (byte ' ') quote printActionType

/-- `transform_main_dict_line(token, entries)`. -/
def transformMainDictLine (token : Bytes) (entries : Entries) : Bytes :=
  printLine (token, entries) ++ [byte '\n']

def parsePlace : Bytes → Option (ℤ × List ℤ) :=
  parseNode (byte ',') parseInt parseInt

def parseFullValue : Bytes → Option (Bytes × Places) :=
  parseNode (byte '#') (fun text ↦ some (unquote text)) parsePlace

def parseKey : Bytes → Option (Bytes × List (Bytes × Places)) :=
  parseNode (byte '@') some parseFullValue

def parseActionType : Bytes → Option (Bytes × List (Bytes × List (Bytes × Places))) :=
  parseNode (byte '!') some parseKey

def parseLine : Bytes → Option (Bytes × Entries) :=
  parseNode (byte ' ') (fun text ↦ some (unquote text)) parseActionType

/-- `parse_main_dict_line(line)`; `none` is `ValueError`. -/
def parseMainDictLine (line : Bytes) : Option (Bytes × Entries) :=
  parseLine (line.rdropWhile (· = byte '\n'))

/-- The types of actions, as `generate_indices` names them. -/
def actionNames : List Bytes :=
  ["generic", "set", "depend", "dir", "directory", "driver", "file", "group", "hardlink", "legacy",
    "license", "link", "signature", "unknown", "user"].map fun name ↦ bytes name.toList

/-! ### What quoting leaves -/

/-- The bytes of quoted texts and of numbers. -/
def Plain (b : UInt8) : Prop :=
  isSafe b = true ∨ b = byte '%'

instance : DecidablePred Plain := fun _ ↦ inferInstanceAs (Decidable (_ ∨ _))

theorem hexValue_hexDigit : ∀ n : Fin 16, hexValue (hexDigit n) = some (UInt8.ofNat n) := by
  decide

theorem isSafe_hexDigit : ∀ n : Fin 16, isSafe (hexDigit n) = true := by
  decide

theorem hexByte_hexDigit (b : UInt8) :
    hexByte (hexDigit (b.toNat / 16)) (hexDigit (b.toNat % 16)) = some b := by
  have hlt := b.toNat_lt
  have hhigh := hexValue_hexDigit ⟨b.toNat / 16, by omega⟩
  have hlow := hexValue_hexDigit ⟨b.toNat % 16, Nat.mod_lt _ (by decide)⟩
  dsimp only at hhigh hlow
  have hsum : 16 * UInt8.ofNat (b.toNat / 16) + UInt8.ofNat (b.toNat % 16) = b := by
    refine UInt8.toNat_inj.mp ?_
    rw [UInt8.toNat_add, UInt8.toNat_mul, UInt8.toNat_ofNat', UInt8.toNat_ofNat',
      Nat.mod_eq_of_lt (by omega : b.toNat / 16 < 2 ^ 8),
        Nat.mod_eq_of_lt (by omega : b.toNat % 16 < 2 ^ 8)]
    change (16 * (b.toNat / 16) % 2 ^ 8 + b.toNat % 16) % 2 ^ 8 = b.toNat
    omega
  rw [hexByte, hhigh, hlow]
  exact congrArg some hsum

theorem unquote_quoteByte (b : UInt8) (rest : Bytes) :
    unquote (quoteByte b ++ rest) = b :: unquote rest := by
  unfold quoteByte
  split_ifs with hsafe
  · have hne : b ≠ 37 := by
      rintro rfl
      exact absurd hsafe (by decide)
    rw [List.singleton_append, unquote]
    intro high low others heq
    exact absurd heq hne
  · change unquote (37 :: hexDigit (b.toNat / 16) :: hexDigit (b.toNat % 16) :: rest) =
      b :: unquote rest
    rw [unquote, hexByte_hexDigit]

/-- A quoted text is unquoted. -/
theorem unquote_quote (s : Bytes) : unquote (quote s) = s := by
  induction s with
  | nil => rfl
  | cons b rest ih => rw [quote, List.flatMap_cons, unquote_quoteByte, ← quote, ih]

variable {b : UInt8}

theorem plain_of_mem_quote {s : Bytes} (h : b ∈ quote s) : Plain b := by
  obtain ⟨c, -, hc⟩ := List.mem_flatMap.mp h
  unfold quoteByte at hc
  split_ifs at hc with hsafe
  · rw [List.mem_singleton.mp hc]
    exact Or.inl hsafe
  · have hlt := c.toNat_lt
    simp only [List.mem_cons, List.not_mem_nil, or_false] at hc
    rcases hc with rfl | rfl | rfl
    · exact Or.inr rfl
    · exact Or.inl (isSafe_hexDigit ⟨c.toNat / 16, by omega⟩)
    · exact Or.inl (isSafe_hexDigit ⟨c.toNat % 16, Nat.mod_lt _ (by decide)⟩)

theorem char_byte {c : Char} (h : c.toNat < 256) : Char.ofNat (UInt8.ofNat c.toNat).toNat = c := by
  rw [UInt8.toNat_ofNat', Nat.mod_eq_of_lt h, Char.ofNat_toNat]

theorem chars_bytes {text : List Char} (h : ∀ c ∈ text, c.toNat < 256) :
    chars (bytes text) = text := by
  rw [chars, bytes, List.map_map]
  exact (List.map_congr_left fun c hc ↦ char_byte (h c hc)).trans (List.map_id text)

theorem lt_of_mem_strInt {n : ℤ} {c : Char} (h : c ∈ Text.strInt n) : c.toNat < 128 := by
  rcases Text.mem_strInt h with hdigit | rfl
  · exact Nat.lt_of_le_of_lt (Char.isDigit_iff_toNat.mp hdigit).2 (by decide)
  · decide

theorem parseInt_strInt (n : ℤ) : parseInt (strInt n) = some n := by
  have hchars : chars (bytes (Text.strInt n)) = Text.strInt n :=
    chars_bytes fun c hc ↦ (lt_of_mem_strInt hc).trans (by decide)
  rw [parseInt, strInt, hchars, Text.parseInt_strInt]

theorem plain_of_mem_strInt {n : ℤ} (h : b ∈ strInt n) : Plain b := by
  obtain ⟨c, hc, rfl⟩ := List.mem_map.mp h
  have hlt := lt_of_mem_strInt hc
  rcases Text.mem_strInt hc with hdigit | rfl
  · have hbyte : UInt8.ofNat c.toNat < 128 := by
      rw [UInt8.lt_iff_toNat_lt, UInt8.toNat_ofNat', Nat.mod_eq_of_lt (by omega)]
      exact hlt
    refine Or.inl ?_
    rw [isSafe, char_byte (by omega), Char.isAlphanum, hdigit, Bool.or_true, decide_eq_true hbyte]
    rfl
  · exact Or.inl (by decide)

/-! ### What a level has in it -/

theorem mem_printPlace {place : ℤ × List ℤ} (h : b ∈ printPlace place) :
    Plain b ∨ b = byte ',' := by
  rcases mem_printNode.mp h with h | ⟨offset, -, h | h⟩
  · exact Or.inl (plain_of_mem_strInt h)
  · exact Or.inr h
  · exact Or.inl (plain_of_mem_strInt h)

theorem mem_printFullValue {fullValue : Bytes × Places} (h : b ∈ printFullValue fullValue) :
    Plain b ∨ b ∈ [byte ',', byte '#'] := by
  rcases mem_printNode.mp h with h | ⟨place, -, rfl | h⟩
  · exact Or.inl (plain_of_mem_quote h)
  · exact Or.inr (by decide)
  · refine (mem_printPlace h).imp_right ?_
    rintro rfl
    decide

theorem mem_printKey {key : Bytes × List (Bytes × Places)} (h : b ∈ printKey key) :
    b ∈ key.1 ∨ Plain b ∨ b ∈ [byte ',', byte '#', byte '@'] := by
  rcases mem_printNode.mp h with h | ⟨fullValue, -, rfl | h⟩
  · exact Or.inl h
  · exact Or.inr (Or.inr (by decide))
  · refine Or.inr ((mem_printFullValue h).imp_right fun hmem ↦ ?_)
    exact List.mem_append_left [byte '@'] hmem

theorem mem_printActionType {actionType : Bytes × List (Bytes × List (Bytes × Places))}
    (h : b ∈ printActionType actionType) :
    b ∈ actionType.1 ∨ (∃ key ∈ actionType.2, b ∈ key.1) ∨ Plain b ∨
      b ∈ [byte ',', byte '#', byte '@', byte '!'] := by
  rcases mem_printNode.mp h with h | ⟨key, hkey, rfl | h⟩
  · exact Or.inl h
  · exact Or.inr (Or.inr (Or.inr (by decide)))
  · rcases mem_printKey h with h | h | h
    · exact Or.inr (Or.inl ⟨key, hkey, h⟩)
    · exact Or.inr (Or.inr (Or.inl h))
    · exact Or.inr (Or.inr (Or.inr (List.mem_append_left [byte '!'] h)))

/-! ### Reading a line back -/

/-- A key without the separators of its level and of those above it. -/
def Clean (key : Bytes) : Prop :=
  byte ' ' ∉ key ∧ byte '!' ∉ key ∧ byte '@' ∉ key

theorem parsePlace_printPlace (place : ℤ × List ℤ) : parsePlace (printPlace place) = some place :=
  parseNode_printNode (fun h ↦ absurd (plain_of_mem_strInt h) (by decide))
    (fun _ _ h ↦ absurd (plain_of_mem_strInt h) (by decide)) (parseInt_strInt _) fun _ _ ↦
      parseInt_strInt _

theorem parseFullValue_printFullValue (fullValue : Bytes × Places) :
    parseFullValue (printFullValue fullValue) = some fullValue :=
  parseNode_printNode (fun h ↦ absurd (plain_of_mem_quote h) (by decide))
    (fun _ _ h ↦ absurd (mem_printPlace h) (by decide)) (congrArg some (unquote_quote _))
    fun _ _ ↦ parsePlace_printPlace _

theorem parseKey_printKey {key : Bytes × List (Bytes × Places)} (h : byte '@' ∉ key.1) :
    parseKey (printKey key) = some key :=
  parseNode_printNode h (fun _ _ h ↦ absurd (mem_printFullValue h) (by decide)) rfl
    fun _ _ ↦ parseFullValue_printFullValue _

theorem parseActionType_printActionType {actionType : Bytes × List (Bytes × List (Bytes × Places))}
    (hname : byte '!' ∉ actionType.1)
    (hkeys : ∀ key ∈ actionType.2, byte '!' ∉ key.1 ∧ byte '@' ∉ key.1) :
    parseActionType (printActionType actionType) = some actionType := by
  refine parseNode_printNode hname (fun key hkey h ↦ ?_) rfl fun key hkey ↦
    parseKey_printKey (hkeys key hkey).2
  rcases mem_printKey h with h | h
  · exact (hkeys key hkey).1 h
  · exact absurd h (by decide)

variable {token : Bytes} {entries : Entries}

/-- The keys of entries that a line is read back of. -/
def CleanKeys (entries : Entries) : Prop :=
  ∀ actionType ∈ entries, ∀ key ∈ actionType.2, Clean key.1

theorem notMem_of_mem_actionNames {name : Bytes} (h : name ∈ actionNames) :
    byte ' ' ∉ name ∧ byte '!' ∉ name ∧ byte '\n' ∉ name ∧ name ≠ [] := by
  revert name
  decide

theorem parseLine_printLine (hnames : ∀ actionType ∈ entries, actionType.1 ∈ actionNames)
    (hclean : CleanKeys entries) :
    parseLine (printLine (token, entries)) = some (token, entries) := by
  refine parseNode_printNode (fun h ↦ absurd (plain_of_mem_quote h) (by decide))
    (fun actionType hmem h ↦ ?_)
    (congrArg some (unquote_quote token)) fun actionType hmem ↦ ?_
  · rcases mem_printActionType h with h | ⟨key, hkey, h⟩ | h
    · exact (notMem_of_mem_actionNames (hnames _ hmem)).1 h
    · exact (hclean _ hmem key hkey).1 h
    · exact absurd h (by decide)
  · exact parseActionType_printActionType (notMem_of_mem_actionNames (hnames _ hmem)).2.1
      fun key hkey ↦ (hclean _ hmem key hkey).2

/-- The keys of a line that was read have no separators of their level and of those above it. -/
theorem cleanKeys_of_parseLine {line : Bytes} (h : parseLine line = some (token, entries)) :
    CleanKeys entries := by
  intro actionType hmem key hkey
  obtain ⟨piece, hblank, -, hpiece⟩ := (exists_of_parseNode h).2 actionType hmem
  obtain ⟨piece', hbang, hsub', hpiece'⟩ := (exists_of_parseNode hpiece).2 key hkey
  obtain ⟨head, hat, hsub, hhead⟩ := (exists_of_parseNode hpiece').1
  obtain rfl := Option.some.inj hhead
  exact ⟨fun h ↦ hblank (hsub' (hsub h)), fun h ↦ hbang (hsub h), hat⟩

/-! ### The end of a line -/

/-- The last key has no full values, and a line break at its end. -/
def EndsInBreak (entries : Entries) : Prop :=
  ∃ before name keys key, entries = before ++ [(name, keys ++ [(key, [])])] ∧
    key.getLast? = some (byte '\n')

theorem getLast?_append_cons (before : Bytes) (b : UInt8) (after : Bytes) :
    (before ++ b :: after).getLast? = some (after.getLast?.getD b) := by
  rw [List.getLast?_append_of_ne_nil before (List.cons_ne_nil b after), List.getLast?_cons]

/-- A line break at the end, behind another byte. -/
theorem getLast?_of_append_cons {before after : Bytes} {b last : UInt8} (hne : b ≠ last)
    (h : (before ++ b :: after).getLast? = some last) : after.getLast? = some last := by
  rw [getLast?_append_cons, Option.some_inj] at h
  cases hafter : after.getLast? with
  | none =>
    rw [hafter] at h
    exact absurd h hne
  | some other =>
    rw [hafter] at h
    exact congrArg some h

/-- A line break at the end of a line is that of a key. -/
theorem endsInBreak_of_getLast? (hnames : ∀ actionType ∈ entries, actionType.1 ∈ actionNames)
    (h : (printLine (token, entries)).getLast? = some (byte '\n')) : EndsInBreak entries := by
  rcases List.eq_nil_or_concat entries with rfl | ⟨before, ⟨name, keys⟩, rfl⟩
  · have hmem : byte '\n' ∈ quote token := by
      have hline : printLine (token, []) = quote token := List.append_nil _
      exact hline ▸ List.mem_of_getLast? h
    exact absurd (plain_of_mem_quote hmem) (by decide)
  rw [List.concat_eq_append] at h hnames ⊢
  rw [printLine, printNode_concat] at h
  rcases List.eq_nil_or_concat keys with rfl | ⟨keys, ⟨key, fullValues⟩, rfl⟩
  · have hname := notMem_of_mem_actionNames (hnames (name, []) (by simp))
    have htype : printActionType (name, []) = name := List.append_nil _
    rw [htype] at h
    exact absurd (List.mem_of_getLast? (getLast?_of_append_cons (by decide) h)) hname.2.2.1
  rw [List.concat_eq_append] at h ⊢
  have htype := getLast?_of_append_cons (by decide) h
  rw [printActionType, printNode_concat] at htype
  have hkey := getLast?_of_append_cons (by decide) htype
  rcases List.eq_nil_or_concat fullValues with rfl | ⟨fullValues, last, rfl⟩
  · have hprint : printKey (key, []) = key := List.append_nil _
    rw [hprint] at hkey
    exact ⟨before, name, keys, key, rfl, hkey⟩
  · rw [List.concat_eq_append, printKey, printNode_concat] at hkey
    have hlast := getLast?_of_append_cons (by decide) hkey
    exact absurd (mem_printFullValue (List.mem_of_getLast? hlast)) (by decide)

theorem rdropWhile_append_cons {p : UInt8 → Bool} (hb : p b = false) (before after : Bytes) :
    (before ++ b :: after).rdropWhile p = before ++ b :: after.rdropWhile p := by
  induction after using List.reverseRecOn with
  | nil => rw [List.rdropWhile_concat_neg _ _ _ (by simp [hb]), List.rdropWhile_nil]
  | append_singleton after last ih =>
    rw [← List.cons_append, ← List.append_assoc]
    by_cases hlast : p last = true
    · rw [List.rdropWhile_concat_pos _ _ _ hlast, List.rdropWhile_concat_pos _ _ _ hlast, ih]
    · rw [List.rdropWhile_concat_neg _ _ _ hlast, List.rdropWhile_concat_neg _ _ _ hlast,
        List.append_assoc, List.cons_append]

/-- A line is read back exactly if no key has a separator of its level or of those above it, and the
line does not end with a line break of a key. -/
theorem parseMainDictLine_transform_iff
    (hnames : ∀ actionType ∈ entries, actionType.1 ∈ actionNames) :
    parseMainDictLine (transformMainDictLine token entries) = some (token, entries) ↔
      CleanKeys entries ∧ ¬ EndsInBreak entries := by
  have hline : parseMainDictLine (transformMainDictLine token entries) =
      parseLine ((printLine (token, entries)).rdropWhile (· = byte '\n')) := by
    rw [parseMainDictLine, transformMainDictLine, List.rdropWhile_concat_pos _ _ _ (by decide)]
  rw [hline]
  constructor
  · intro h
    have hclean := cleanKeys_of_parseLine h
    refine ⟨hclean, ?_⟩
    rintro ⟨before, name, keys, key, rfl, hlast⟩
    let stripped := key.rdropWhile (· = byte '\n')
    have hprint : ∀ key : Bytes, printLine (token, before ++ [(name, keys ++ [(key, [])])]) =
        (printLine (token, before) ++ byte ' ' :: printActionType (name, keys)) ++
            byte '!' :: key := by
      intro key
      have hkey : printKey (key, []) = key := List.append_nil _
      rw [printLine, printNode_concat, printActionType, printNode_concat, hkey, List.append_assoc,
        List.cons_append]
    have hstrip : (printLine (token, before ++ [(name, keys ++ [(key, [])])])).rdropWhile
        (· = byte '\n') =
        printLine (token, before ++ [(name, keys ++ [(stripped, [])])]) := by
      rw [hprint, hprint, rdropWhile_append_cons (by decide)]
    have hsub : stripped ⊆ key := (List.rdropWhile_prefix _ key).subset
    have hnames' : ∀ actionType ∈ before ++ [(name, keys ++ [(stripped, [])])],
        actionType.1 ∈ actionNames := by
      intro actionType hmem
      rcases List.mem_append.mp hmem with hmem | hmem
      · exact hnames actionType (List.mem_append_left _ hmem)
      · rw [List.mem_singleton.mp hmem]
        exact hnames (name, keys ++ [(key, [])]) (List.mem_append_right _ List.mem_cons_self)
    have hlastKeys := hclean (name, keys ++ [(key, [])])
      (List.mem_append_right _ List.mem_cons_self)
    have hclean' : CleanKeys (before ++ [(name, keys ++ [(stripped, [])])]) := by
      intro actionType hmem other hother
      rcases List.mem_append.mp hmem with hmem | hmem
      · exact hclean actionType (List.mem_append_left _ hmem) other hother
      · rw [List.mem_singleton.mp hmem] at hother
        rcases List.mem_append.mp hother with hother | hother
        · exact hlastKeys other (List.mem_append_left _ hother)
        · have hkey := hlastKeys (key, []) (List.mem_append_right _ List.mem_cons_self)
          rw [List.mem_singleton.mp hother]
          exact ⟨fun hmem ↦ hkey.1 (hsub hmem), fun hmem ↦ hkey.2.1 (hsub hmem),
            fun hmem ↦ hkey.2.2 (hsub hmem)⟩
    rw [hstrip, parseLine_printLine hnames' hclean'] at h
    have heq : stripped = key := by simpa using h
    have hne : key ≠ [] := List.ne_nil_of_mem (List.mem_of_getLast? hlast)
    have hbreak : key.getLast hne = byte '\n' :=
      (List.getLast_eq_iff_getLast?_eq_some hne).mpr hlast
    exact List.rdropWhile_eq_self_iff.mp heq hne (decide_eq_true hbreak)
  · rintro ⟨hclean, hbreak⟩
    have hstrip : (printLine (token, entries)).rdropWhile (· = byte '\n') = printLine (token,
        entries) := by
      rw [List.rdropWhile_eq_self_iff]
      intro hne hlast
      have hend : (printLine (token, entries)).getLast? = some (byte '\n') := by
        rw [List.getLast?_eq_some_getLast hne, of_decide_eq_true hlast]
      exact hbreak (endsInBreak_of_getLast? hnames hend)
    rw [hstrip]
    exact parseLine_printLine hnames hclean

/-- Two places where a token was seen in a basename. -/
def basenameEntries : Entries :=
  [(bytes "file".toList,
    [(bytes "basename".toList, [(bytes "a b".toList, [(0, [7, 12]), (1, [])])])])]

theorem parseMainDictLine_transform_basename :
    parseMainDictLine (transformMainDictLine (bytes "a b".toList) basenameEntries) =
        some (bytes "a b".toList, basenameEntries) ↔
        CleanKeys basenameEntries ∧ ¬ EndsInBreak basenameEntries :=
  parseMainDictLine_transform_iff (by decide)

/-- A set action whose name has a blank in it. -/
def blankName : Entries :=
  [(bytes "set".toList, [(bytes "a b".toList, [(bytes "x".toList, [(0, [7])])])])]

/-- The blank starts another action type. -/
theorem parseMainDictLine_blankName :
    parseMainDictLine (transformMainDictLine (bytes "x".toList) blankName) ≠ some (bytes "x".toList,
      blankName) := by
  decide

end Userland.Pkg.Search.MainDict
