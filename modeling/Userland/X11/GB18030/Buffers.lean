import Userland.X11.GB18030.CompoundText

/-!
# Converters on buffers with an end

`gb18030_mbtocs`, `gb18030_mbstocs` and `gb18030_cstombs` of `modules/lc/gb18030/lcGB18030.c` on
input buffers that end: what is behind the end is not a byte, and a converter that looks there has
no result (`Outcome.outside`).

Scope. An input buffer is the list of its bytes, and `from_left` is its length.
-/

set_option autoImplicit false
set_option relaxedAutoImplicit false

namespace Userland.X11.GB18030

/-! ### Looking at bytes -/

/-- A conjunction of tests, one for each of the bytes at a pointer, from left to right until one of
them fails. None if it looks behind the end of the buffer. -/
def testAll : List (UInt8 → Bool) → List UInt8 → Option Bool
  | [], _ => some true
  | _ :: _, [] => none
  | test :: tests, byte :: bytes => if test byte then testAll tests bytes else some false

def isgbTests : List (UInt8 → Bool) :=
  [fun s ↦ s ≥ 0xa1 && s ≤ 0xfe, fun s ↦ s ≥ 0xa1 && s ≤ 0xfe]

def isgb18030_2Tests : List (UInt8 → Bool) :=
  [fun s ↦ s ≥ 0x81 && s ≤ 0xfe, fun s ↦ s ≥ 0x40 && s ≤ 0x7e || s ≥ 0x80 && s ≤ 0xfe]

def isgb18030_4Tests : List (UInt8 → Bool) :=
  [fun s ↦ s ≥ 0x81 && s ≤ 0xfe, fun s ↦ s ≥ 0x30 && s ≤ 0x39, fun s ↦ s ≥ 0x81 && s ≤ 0xfe,
    fun s ↦ s ≥ 0x30 && s ≤ 0x39]

/-- `strncmp(s, text, strlen(text)) == 0`. -/
def textTests (text : List UInt8) : List (UInt8 → Bool) := text.map fun byte s ↦ s = byte

/-- How a call ends: it looks behind the end of its input buffer, returns -1 when it has written
some bytes, or returns. -/
inductive Outcome (α : Type)
  | outside
  | fails (written : List UInt8)
  | returns (result : α)
deriving DecidableEq

def Outcome.map {α β : Type} (f : α → β) : Outcome α → Outcome β
  | .outside => .outside
  | .fails written => .fails written
  | .returns result => .returns (f result)

/-! ### Packed four-byte codes -/

/-- `twobyte_to_fourbyte(in_buf, out_buf)`. -/
def twobyteToFourbyte (first second : UInt8) : List UInt8 :=
  let tmp := first.toNat * 256 + second.toNat
  [UInt8.ofNat (0x81 + tmp / 10 / 126 / 10), UInt8.ofNat (0x30 + tmp / 10 / 126 % 10),
    UInt8.ofNat (0x81 + tmp / 10 % 126), UInt8.ofNat (0x30 + tmp % 10)]

/-- The number that `fourbyte_to_twobyte` computes for a four-byte code. -/
def fourbyteIndex (a b c d : UInt8) : ℤ :=
  12600 * ((a.toNat : ℤ) - 0x81) + 1260 * ((b.toNat : ℤ) - 0x30) + 10 * ((c.toNat : ℤ) - 0x81) +
    ((d.toNat : ℤ) - 0x30)

/-- `fourbyte_to_twobyte(in_buf, out_buf)`. -/
def fourbyteToTwobyte (a b c d : UInt8) : List UInt8 :=
  let tmp := fourbyteIndex a b c d
  [UInt8.ofNat (tmp / 256 % 256).toNat, UInt8.ofNat (tmp % 256).toNat]

/-! ### Code sets -/

/-- An `XlcCharSet`, with the address that tells it from others. -/
structure CharSet where
  address : ℕ
  charSize : ℕ
deriving DecidableEq

structure CodeSet where
  charsetList : List CharSet
  wcEncoding : ℕ
deriving DecidableEq

/-- The `codeset_list` of a locale, of `codeset_num` code sets. -/
abbrev LCD := List CodeSet

/-- `*codesets[k]->charset_list`. -/
def LCD.charset (lcd : LCD) (k : ℕ) :
    Option CharSet := lcd[k]?.bind fun codeset ↦ codeset.charsetList.head?

/-- `*CS0->charset_list`, `*CS1->charset_list` and `*CS2->charset_list`. -/
def LCD.cs0 (lcd : LCD) : Option CharSet := lcd.charset 2

def LCD.cs1 (lcd : LCD) : Option CharSet := lcd.charset 0

def LCD.cs2 (lcd : LCD) : Option CharSet := lcd.charset 1

/-- `get_code_set_from_charset(lcd, charset)`. -/
def getCodeSetFromCharset (lcd : LCD) (charset : CharSet) : Option CodeSet :=
  lcd.find? fun codeset ↦ charset ∈ codeset.charsetList

/-- What `mbtocs` and `mbstocs` take the bytes at a pointer for. -/
inductive Kind
  | two
  | four
  | ascii
  | unknown
deriving DecidableEq

/-- The tests of `mbtocs` and `mbstocs`, one behind the other. -/
def kindOf (src : List UInt8) : Option Kind :=
  (testAll isgb18030_2Tests src).bind fun isTwo ↦
    if isTwo then some .two
    else
      (testAll isgb18030_4Tests src).bind fun isFour ↦
        if isFour then some .four
        else
          (testAll [isASCII] src).bind fun isAscii ↦ if isAscii then some .ascii else some .unknown

/-- The bytes that go to the output for the character at a pointer. -/
def Kind.convert : Kind → List UInt8 → List UInt8
  | .two, a :: b :: _ => [a, b]
  | .four, a :: b :: c :: d :: _ => fourbyteToTwobyte a b c d
  | .ascii, a :: _ => [a]
  | _, _ => []

/-- The number of bytes that the pointer advances. -/
def Kind.width : Kind → ℕ
  | .two => 2
  | .four => 4
  | .ascii => 1
  | .unknown => 1

/-- The constant `GBK2K_CODESET1`, `GBK2K_CODESET2` or `ASCII_CODESET`. -/
def Kind.codeset : Kind → ℕ
  | .two => 1
  | .four => 2
  | .ascii => 0
  | .unknown => 0

/-- The character set of a kind of characters. -/
def Kind.charset (lcd : LCD) : Kind → Option CharSet
  | .two => lcd.cs1
  | .four => lcd.cs2
  | .ascii => lcd.cs0
  | .unknown => none

/-- The number of bytes of a packed character of a kind. -/
def Kind.size : Kind → ℕ
  | .two => 2
  | .four => 2
  | .ascii => 1
  | .unknown => 0

/-- The code sets of a GB18030 locale: the characters of ASCII take one byte, the others two, and
the number 0x5e84 tells GB18030-1 from the others. -/
structure Locale where
  lcd : LCD
  charset : Kind → CharSet
  three_le : 3 ≤ lcd.length
  charset_eq : ∀ kind ≠ .unknown, kind.charset lcd = some (charset kind)
  charSize_eq : ∀ kind ≠ .unknown, (charset kind).charSize = kind.size
  codeset : Kind → CodeSet
  codeset_eq : ∀ kind ≠ .unknown, getCodeSetFromCharset lcd (charset kind) = some (codeset kind)
  wcEncoding_eq : ∀ kind ≠ .unknown, (codeset kind).wcEncoding = 0x5e84 ↔ kind = .four

/-- The character sets of a locale that has one of them in each of its three code sets. -/
def plainCharset : Kind → CharSet
  | .two => ⟨1, 2⟩
  | .four => ⟨2, 2⟩
  | .ascii | .unknown => ⟨0, 1⟩

def plainCodeset : Kind → CodeSet
  | .two => ⟨[plainCharset .two], 0x3001⟩
  | .four => ⟨[plainCharset .four], 0x5e84⟩
  | .ascii | .unknown => ⟨[plainCharset .ascii], 0⟩

def plainLCD : LCD := [plainCodeset .two, plainCodeset .four, plainCodeset .ascii]

theorem charset_plainLCD (kind : Kind) (hknown : kind ≠ .unknown) :
    kind.charset plainLCD = some (plainCharset kind) := by
  cases kind with
  | two | four | ascii => rfl
  | unknown => exact absurd rfl hknown

theorem charSize_plainCharset (kind : Kind) (hknown : kind ≠ .unknown) :
    (plainCharset kind).charSize = kind.size := by
  cases kind with
  | two | four | ascii => rfl
  | unknown => exact absurd rfl hknown

theorem getCodeSet_plainLCD (kind : Kind) (_hknown : kind ≠ .unknown) :
    getCodeSetFromCharset plainLCD (plainCharset kind) = some (plainCodeset kind) := by
  cases kind <;> rfl

theorem wcEncoding_plainCodeset (kind : Kind) (_hknown : kind ≠ .unknown) :
    (plainCodeset kind).wcEncoding = 0x5e84 ↔ kind = .four := by
  cases kind <;> decide

def plainLocale : Locale where
  lcd := plainLCD
  charset := plainCharset
  three_le := Nat.le_refl 3
  charset_eq := charset_plainLCD
  charSize_eq := charSize_plainCharset
  codeset := plainCodeset
  codeset_eq := getCodeSet_plainLCD
  wcEncoding_eq := wcEncoding_plainCodeset

/-! ### From multibyte strings to character sets -/

/-- What `mbtocs`, `mbstocs` and `cstombs` leave behind: the character set behind the pointer
`args[0]` as well. -/
structure Segment extends Converted where
  charset : Option CharSet

/-- `gb18030_mbtocs(conv, from, from_left, to, to_left, args, num_args)`. -/
def mbtocs (lcd : LCD) (src : List UInt8) (toLeft : ℤ) : Outcome Segment :=
  match kindOf src with
  | none => .outside
  | some .two =>
    if 1 ≥ lcd.length then .fails []
    else
      match lcd.cs1 with
      | none => .outside
      | some charset =>
        if src.length ≥ 2 ∧ toLeft ≥ charset.charSize then
          .returns ⟨⟨0, 2, Kind.two.convert src, src.length - charset.charSize,
            toLeft - charset.charSize⟩, charset⟩
        else .fails []
  | some .four =>
    if 2 ≥ lcd.length then .fails []
    else
      match lcd.cs2 with
      | none => .outside
      | some charset =>
        if src.length ≥ 4 ∧ toLeft ≥ charset.charSize then
          .returns ⟨⟨0, 4, Kind.four.convert src, src.length - 4, toLeft - charset.charSize⟩,
            charset⟩
        else .fails []
  | some .ascii =>
    if 0 ≥ lcd.length then .fails []
    else
      match lcd.cs0 with
      | none => .outside
      | some charset =>
        if src.length ≥ charset.charSize ∧ toLeft ≥ charset.charSize then
          .returns ⟨⟨0, 1, Kind.ascii.convert src, src.length - charset.charSize,
            toLeft - charset.charSize⟩, charset⟩
        else .fails []
  | some .unknown => .returns ⟨⟨1, 1, [], src.length - 1, toLeft⟩, none⟩

/-- The variables of the loop of `gb18030_mbstocs`. -/
structure CSState where
  src : List UInt8
  fromLeft : ℤ
  written : List UInt8
  toLeft : ℤ
  flag : ℕ
  unconvNum : ℕ
  charset : Option CharSet

/-- How a turn of a loop ends: in another turn, with `break`, with `return -1`, or with a look
behind the end. -/
inductive TurnIn (σ : Type)
  | next (state : σ)
  | stop (state : σ)
  | fail (written : List UInt8)
  | outside

/-- The end of a turn: `if (*from_left <= 0) break;`. -/
def CSState.endTurn (state : CSState) : TurnIn CSState :=
  if state.fromLeft ≤ 0 then .stop state else .next state

/-- A branch of the loop: a character of the kind with the flag `own`, where the other kinds have
the flags `other` and `other'`. A character takes `needs` bytes from `from_left`, and `full` is what
happens when there is no room for it. -/
def mbstocsCharacter (lcd : LCD) (kind : Kind) (own other other' : ℕ) (needs : CharSet → ℤ)
    (full : CSState → TurnIn CSState) (state : CSState) : TurnIn CSState :=
  let state := if state.flag = 0 then { state with flag := own } else state
  if state.flag = other ∨ state.flag = other' then .stop state
  else if kind.codeset ≥ lcd.length then .fail state.written
  else
    match kind.charset lcd with
    | none => .outside
    | some charset =>
      let state := { state with charset := some charset }
      if state.fromLeft ≥ needs charset ∧ state.toLeft ≥ (charset.charSize : ℤ) then
        CSState.endTurn { state with
          src := state.src.drop kind.width
          fromLeft := state.fromLeft - needs charset
          written := state.written ++ kind.convert state.src
          toLeft := state.toLeft - charset.charSize }
      else full state

/-- One turn of the loop of `gb18030_mbstocs`. -/
def mbstocsTurn (lcd : LCD) (state : CSState) : TurnIn CSState :=
  match kindOf state.src with
  | none => .outside
  | some .two => mbstocsCharacter lcd .two 1 3 2 (fun charset ↦ charset.charSize) (fun state ↦
    .fail state.written) state
  | some .four => mbstocsCharacter lcd .four 2 3 1 (fun _ ↦ 4) (fun state ↦
    .fail state.written) state
  | some .ascii => mbstocsCharacter lcd .ascii 3 1 2 (fun charset ↦ charset.charSize) .stop state
  | some .unknown =>
    CSState.endTurn { state with
      src := state.src.drop 1
      fromLeft := state.fromLeft - 1
      unconvNum := state.unconvNum + 1 }

theorem ne_nil_of_kindOf {src : List UInt8} {kind : Kind} (h : kindOf src = some kind) :
    src ≠ [] := by
  rintro rfl
  cases h

theorem src_of_endTurn {state state' : CSState} (h : state.endTurn = .next state') :
    state = state' := by
  unfold CSState.endTurn at h
  split_ifs at h
  exact TurnIn.next.inj h

theorem src_of_mbstocsCharacter {lcd : LCD} {kind : Kind} {own other other' : ℕ}
    {needs : CharSet → ℤ}
    {full : CSState → TurnIn CSState} {state state' : CSState}
    (hfull : ∀ state state', full state ≠ .next state')
    (h : mbstocsCharacter lcd kind own other other' needs full state = .next state') :
    state'.src = state.src.drop kind.width := by
  have hflag : (if state.flag = 0 then { state with flag := own } else state).src = state.src := by
    split_ifs <;> rfl
  unfold mbstocsCharacter at h
  dsimp only at h
  split_ifs at h
  all_goals
    split at h
    · cases h
    · split_ifs at h
      · rw [← src_of_endTurn h]
      · exact absurd h (hfull _ _)

theorem src_of_mbstocsTurn {lcd : LCD} {state state' : CSState}
    (h : mbstocsTurn lcd state = .next state') :
    state'.src.length < state.src.length := by
  unfold mbstocsTurn at h
  split at h
  · cases h
  all_goals
    rename_i hkind
    have hpos := List.length_pos_of_ne_nil (ne_nil_of_kindOf hkind)
  · rw [src_of_mbstocsCharacter (fun _ _ ↦ by simp) h, List.length_drop, Kind.width]
    omega
  · rw [src_of_mbstocsCharacter (fun _ _ ↦ by simp) h, List.length_drop, Kind.width]
    omega
  · rw [src_of_mbstocsCharacter (fun _ _ ↦ by simp) h, List.length_drop, Kind.width]
    omega
  · rw [← src_of_endTurn h, List.length_drop]
    omega

/-- The loop of `gb18030_mbstocs`. -/
def mbstocsLoop (lcd : LCD) (state : CSState) : Outcome CSState :=
  match _h : mbstocsTurn lcd state with
  | .next state' => mbstocsLoop lcd state'
  | .stop state' => .returns state'
  | .fail written => .fails written
  | .outside => .outside
termination_by state.src.length
decreasing_by exact src_of_mbstocsTurn _h

/-- `gb18030_mbstocs(conv, from, from_left, to, to_left, args, num_args)`. -/
def mbstocs (lcd : LCD) (src : List UInt8) (toLeft : ℤ) : Outcome Segment :=
  (mbstocsLoop lcd ⟨src, src.length, [], toLeft, 0, 0, none⟩).map fun state ↦
    ⟨⟨state.unconvNum, src.length - state.src.length, state.written, state.fromLeft, state.toLeft⟩,
      state.charset⟩

/-- The flag of a kind of characters. -/
def Kind.flag : Kind → ℕ
  | .two => 1
  | .four => 2
  | .ascii => 3
  | .unknown => 0

theorem Kind.flag_le (kind : Kind) : kind.flag ≤ 3 := by
  cases kind <;> decide

/-- The loop settles on a kind of characters. -/
def CSState.settle (state : CSState) (kind : Kind) (charset : CharSet) : CSState :=
  { state with flag := kind.flag, charset := some charset }

/-- A character goes from the input to the output. -/
def CSState.take (state : CSState) (kind : Kind) : CSState :=
  { state with
    src := state.src.drop kind.width
    fromLeft := state.fromLeft - kind.width
    written := state.written ++ kind.convert state.src
    toLeft := state.toLeft - kind.size }

/-- An unknown byte is passed over. -/
def CSState.skip (state : CSState) : CSState :=
  { state with src := state.src.drop 1, fromLeft := state.fromLeft - 1, unconvNum := state.unconvNum + 1 }

theorem mbstocsTurn_unknown {lcd : LCD} {state : CSState}
    (hkind : kindOf state.src = some .unknown) :
    mbstocsTurn lcd state = state.skip.endTurn := by
  rw [mbstocsTurn, hkind]
  rfl

theorem mbstocsCharacter_eq (locale : Locale) {kind : Kind} (hknown : kind ≠ .unknown)
    {other other' : ℕ}
    {needs : CharSet → ℤ} {full : CSState → TurnIn CSState} {state : CSState}
    (hneeds : needs (locale.charset kind) = kind.width)
    (hothers : ∀ flag ≤ 3, (flag = other ∨ flag = other') ↔ flag ≠ 0 ∧ flag ≠ kind.flag)
    (hflag : state.flag ≤ 3) :
    mbstocsCharacter locale.lcd kind kind.flag other other' needs full state =
      if state.flag ≠ 0 ∧ state.flag ≠ kind.flag then .stop state
      else if state.fromLeft ≥ kind.width ∧ state.toLeft ≥ kind.size then
        ((state.settle kind (locale.charset kind)).take kind).endTurn
      else full (state.settle kind (locale.charset kind)) := by
  have hthree := locale.three_le
  have hcodeset : ¬ kind.codeset ≥ locale.lcd.length := by
    have hle : kind.codeset ≤ 2 := by cases kind <;> decide
    omega
  unfold mbstocsCharacter
  dsimp only
  by_cases hother : state.flag ≠ 0 ∧ state.flag ≠ kind.flag
  · rw [if_pos hother, if_neg hother.1, if_pos ((hothers _ hflag).mpr hother)]
  · have hsettled : (if state.flag = 0 then { state with flag := kind.flag } else state) =
        { state with flag := kind.flag } := by
      by_cases hzero : state.flag = 0
      · rw [if_pos hzero]
      · have heq : state.flag = kind.flag := by
          by_contra hne
          exact hother ⟨hzero, hne⟩
        rw [if_neg hzero, ← heq]
    have hsame : ¬ (kind.flag = other ∨ kind.flag = other') := by
      rw [hothers _ kind.flag_le]
      exact fun h ↦ h.2 rfl
    rw [if_neg hother, hsettled, if_neg hsame, if_neg hcodeset, locale.charset_eq kind hknown]
    dsimp only
    rw [hneeds, locale.charSize_eq kind hknown]
    rfl

/-- What a turn of the loop of `gb18030_mbstocs` does at a character. -/
theorem mbstocsTurn_eq (locale : Locale) {state : CSState} {kind : Kind}
    (hkind : kindOf state.src = some kind) (hknown : kind ≠ .unknown) (hflag : state.flag ≤ 3) :
    mbstocsTurn locale.lcd state =
      if state.flag ≠ 0 ∧ state.flag ≠ kind.flag then .stop state
      else if state.fromLeft ≥ kind.width ∧ state.toLeft ≥ kind.size then
        ((state.settle kind (locale.charset kind)).take kind).endTurn
      else if kind = .ascii then .stop (state.settle kind (locale.charset kind))
      else .fail state.written := by
  have hsize := locale.charSize_eq kind hknown
  unfold mbstocsTurn
  rw [hkind]
  cases kind with
  | two =>
    exact mbstocsCharacter_eq locale hknown (congrArg Nat.cast hsize)
      (by simp only [Kind.flag]; omega) hflag
  | four =>
    exact mbstocsCharacter_eq locale hknown rfl (by simp only [Kind.flag]; omega) hflag
  | ascii =>
    exact mbstocsCharacter_eq locale hknown (congrArg Nat.cast hsize)
      (by simp only [Kind.flag]; omega) hflag
  | unknown => exact absurd rfl hknown

/-! ### From character sets to multibyte strings -/

/-- The variables of the loop of `gb18030_cstombs`. -/
structure CombineState where
  src : List UInt8
  fromLeft : ℤ
  written : List UInt8
  toLeft : ℤ
  unconvNum : ℕ

/-- The end of a turn, with `char_size`. -/
def CombineState.endTurn (state : CombineState) (charSize : ℤ) : TurnIn CombineState :=
  if state.fromLeft - charSize ≤ 0 then .stop { state with fromLeft := state.fromLeft - charSize }
  else .next { state with fromLeft := state.fromLeft - charSize }

/-- One turn of the loop of `gb18030_cstombs`. -/
def cstombsTurn (codeset : CodeSet) (state : CombineState) : TurnIn CombineState :=
  if codeset.wcEncoding = 0x5e84 then
    if state.fromLeft ≥ 2 ∧ state.toLeft ≥ 4 then
      match state.src with
      | first :: second :: _ =>
        -- `src` stays where it is
        CombineState.endTurn
          { state with written := state.written ++ twobyteToFourbyte first second, toLeft := state.toLeft - 4 } 2
      | _ => .outside
    else .fail state.written
  else
    match testAll isgb18030_2Tests state.src with
    | none => .outside
    | some true =>
      if state.fromLeft ≥ 2 ∧ state.toLeft ≥ 2 then
        CombineState.endTurn
          { state with
            src := state.src.drop 2
            written := state.written ++ state.src.take 2
            toLeft := state.toLeft - 2 } 2
      else .fail state.written
    | some false =>
      match testAll [isASCII] state.src with
      | none => .outside
      | some true =>
        if state.fromLeft ≥ 1 ∧ state.toLeft ≥ 1 then
          CombineState.endTurn
            { state with
              src := state.src.drop 1
              written := state.written ++ state.src.take 1
              toLeft := state.toLeft - 1 } 1
        else .fail state.written
      | some false =>
        CombineState.endTurn
          { state with src := state.src.drop 1, unconvNum := state.unconvNum + 1 } 1

theorem fromLeft_of_endTurn {state state' : CombineState} {charSize fromLeft : ℤ}
    (h : state.endTurn charSize = .next state') (hleft : state.fromLeft = fromLeft)
    (hsize : 0 < charSize) :
    state'.fromLeft.toNat < fromLeft.toNat := by
  unfold CombineState.endTurn at h
  split_ifs at h with hend
  rw [← TurnIn.next.inj h]
  dsimp only
  omega

theorem fromLeft_of_cstombsTurn {codeset : CodeSet} {state state' : CombineState}
    (h : cstombsTurn codeset state = .next state') :
    state'.fromLeft.toNat < state.fromLeft.toNat := by
  unfold cstombsTurn at h
  by_cases hencoding : codeset.wcEncoding = 0x5e84
  · rw [if_pos hencoding] at h
    split_ifs at h
    split at h
    · exact fromLeft_of_endTurn h rfl (by decide)
    · cases h
  · rw [if_neg hencoding] at h
    split at h
    · cases h
    · split at h
      · exact fromLeft_of_endTurn h rfl (by decide)
      · cases h
    · split at h
      · cases h
      · split at h
        · exact fromLeft_of_endTurn h rfl (by decide)
        · cases h
      · exact fromLeft_of_endTurn h rfl (by decide)

/-- The loop of `gb18030_cstombs`. -/
def cstombsLoop (codeset : CodeSet) (state : CombineState) : Outcome CombineState :=
  match _h : cstombsTurn codeset state with
  | .next state' => cstombsLoop codeset state'
  | .stop state' => .returns state'
  | .fail written => .fails written
  | .outside => .outside
termination_by state.fromLeft.toNat
decreasing_by exact fromLeft_of_cstombsTurn _h

/-- `gb18030_cstombs(conv, from, from_left, to, to_left, args, num_args)`, where `args[0]` is the
character set. -/
def cstombs (lcd : LCD) (charset : CharSet) (src : List UInt8) (toLeft : ℤ) : Outcome Segment :=
  match getCodeSetFromCharset lcd charset with
  | none => .fails []
  | some codeset =>
    (cstombsLoop codeset ⟨src, src.length, [], toLeft, 0⟩).map fun state ↦
      ⟨⟨state.unconvNum, src.length - state.src.length, state.written, state.fromLeft,
        state.toLeft⟩, charset⟩

end Userland.X11.GB18030
