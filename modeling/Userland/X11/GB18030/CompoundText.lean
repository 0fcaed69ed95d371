import Mathlib.Data.Int.Notation
import Mathlib.Data.List.Basic
import Mathlib.Order.Basic

/-!
# Compound text in a GB18030 locale

`gb18030_mbstocts` and `gb18030_ctstombs` of `modules/lc/gb18030/lcGB18030.c`: the conversions of
multibyte strings to compound text and back.

Scope. A buffer that is read is a function from indexes to bytes, which says something about the
bytes behind its end as well; a buffer that is written is the list of the bytes that were written,
one behind the other. Indexes and sizes are integers that do not overflow: no sum that is computed
exceeds `to_left` by 23 or more.
-/

set_option autoImplicit false
set_option relaxedAutoImplicit false

namespace Userland.X11.GB18030

def ESC : UInt8 := 0x1b

inductive CharSetType
  | ascii
  | gb2312
  | gb18030_0
  | gb18030_1
deriving DecidableEq

def textBytes (text : String) : List UInt8 := text.toList.map fun c ↦ UInt8.ofNat c.toNat

/-- The entries of `default_ct_data`: the name of each character set, and its `encode_string`. -/
def defaultCTData : List (CharSetType × List Char × List UInt8) :=
  [(.ascii, "ASCII".toList, ESC :: textBytes "(B"),
    (.gb2312, "GB2312".toList, ESC :: textBytes "$(A"),
    (.gb18030_0, "GB18030-0".toList, ESC :: textBytes "%/2??SUN-GB18030-0"),
    (.gb18030_1, "GB18030-1".toList, ESC :: textBytes "%/2??SUN-GB18030-1")]

/-- `get_CT_encode_string(charset)`. -/
def getCTEncodeString (charset : List Char) : Option (List UInt8) :=
  (defaultCTData.find? fun entry ↦ charset.isPrefixOf entry.2.1).map fun entry ↦ entry.2.2

/-- The bytes of a buffer from an index on are those of a text. -/
def startsWith (buf : ℕ → UInt8) : ℕ → List UInt8 → Bool
  | _, [] => true
  | i, byte :: text => buf i = byte && startsWith buf (i + 1) text

/-- `get_charset_with_encode_string(s)`, and the length of that string; none for `t_NONE`. -/
def getCharsetWithEncodeString (buf : ℕ → UInt8) (i : ℕ) : Option (CharSetType × ℕ) :=
  (defaultCTData.find? fun entry ↦ startsWith buf i entry.2.2).map fun entry ↦
    (entry.1, entry.2.2.length)

/-- `ISASCII(ch)`. -/
def isASCII (ch : UInt8) : Bool := ch ≤ 0x7f

def isgb (first second : UInt8) : Bool :=
  first ≥ 0xa1 && first ≤ 0xfe && second ≥ 0xa1 && second ≤ 0xfe

def isgb18030_2 (first second : UInt8) : Bool :=
  first ≥ 0x81 && first ≤ 0xfe && (second ≥ 0x40 && second ≤ 0x7e || second ≥ 0x80 && second ≤ 0xfe)

def isgb18030_4 (first second third fourth : UInt8) : Bool :=
  first ≥ 0x81 && first ≤ 0xfe && second ≥ 0x30 && second ≤ 0x39 &&
    third ≥ 0x81 && third ≤ 0xfe && fourth ≥ 0x30 && fourth ≤ 0x39

/-- What a conversion leaves behind: its value, the number of bytes read, the bytes written, and
what is left of both buffers. -/
structure Converted where
  unconvNum : ℕ
  read : ℕ
  written : List UInt8
  fromLeft : ℤ
  toLeft : ℤ

/-! ### To compound text -/

/-- The variables of the loop of `gb18030_mbstocts`, of which `j` is the number of bytes in `out`.
-/
structure CTState where
  i : ℕ
  out : List UInt8
  flag : ℕ
  unconvNum : ℕ

/-- How a turn of the loop ends: in another turn, with `break`, or with `return -1`. -/
inductive Turn
  | next (state : CTState)
  | stop (state : CTState)
  | fail

/-- The `encode_string` that goes before a character of another character set than the last one. -/
def putEncodeString (toLeft : ℤ) (charset : List Char) (flag width : ℕ) (state : CTState) : Turn :=
  if state.flag = 0 ∨ state.flag ≠ flag then
    match getCTEncodeString charset with
    | none => .fail
    | some encodeString =>
      if (state.out.length : ℤ) + encodeString.length + width ≥ toLeft then .stop state
      else .next { state with out := state.out ++ encodeString, flag := flag }
  else .next state

/-- The branches of the loop: a character of a character set, as some bytes. -/
def putCharacter (toLeft : ℤ) (charset : List Char) (flag : ℕ) (bytes : List UInt8)
    (state : CTState) : Turn :=
  match putEncodeString toLeft charset flag bytes.length state with
  | .next state' =>
    if (state'.out.length : ℤ) + bytes.length ≥ toLeft then .stop state'
    else .next { state' with i := state'.i + bytes.length, out := state'.out ++ bytes }
  | turn => turn

/-- One turn of the loop of `gb18030_mbstocts`. -/
def mbstoctsTurn (inbuf : ℕ → UInt8) (toLeft : ℤ) (state : CTState) : Turn :=
  let c := fun k ↦ inbuf (state.i + k)
  if isgb (c 0) (c 1) then
    putCharacter toLeft "GB2312".toList 2 [c 0 &&& 0x7f, c 1 &&& 0x7f] state
  else if isgb18030_2 (c 0) (c 1) then
    putCharacter toLeft "GB18030-0".toList 4 [c 0 &&& 0xff, c 1 &&& 0xff] state
  else if isgb18030_4 (c 0) (c 1) (c 2) (c 3) then
    putCharacter toLeft "GB18030-1".toList 5 [c 0, c 1, c 2, c 3] state
  else if isASCII (c 0) then
    putCharacter toLeft "ASCII".toList 3 [c 0] state
  else .next { state with i := state.i + 1, unconvNum := state.unconvNum + 1 }

theorem lt_of_putCharacter {toLeft : ℤ} {charset : List Char} {flag : ℕ} {bytes : List UInt8}
    {state state' : CTState} (hbytes : bytes ≠ [])
    (h : putCharacter toLeft charset flag bytes state = .next state') :
    state.i < state'.i := by
  have hpos := List.length_pos_of_ne_nil hbytes
  have hencode : ∀ state', putEncodeString toLeft charset flag bytes.length state = .next state' →
      state'.i = state.i := by
    intro state' h
    unfold putEncodeString at h
    split_ifs at h
    · split at h
      · cases h
      · split_ifs at h
        cases h
        rfl
    · cases h
      rfl
  unfold putCharacter at h
  split at h
  · rename_i found hfound
    split_ifs at h
    obtain rfl := Turn.next.inj h
    have hi := hencode found hfound
    dsimp only
    omega
  · rename_i hturn
    exact absurd h (hturn state')

theorem lt_of_mbstoctsTurn {inbuf : ℕ → UInt8} {toLeft : ℤ} {state state' : CTState}
    (h : mbstoctsTurn inbuf toLeft state = .next state') : state.i < state'.i := by
  unfold mbstoctsTurn at h
  dsimp only at h
  split_ifs at h
  · exact lt_of_putCharacter (List.cons_ne_nil _ _) h
  · exact lt_of_putCharacter (List.cons_ne_nil _ _) h
  · exact lt_of_putCharacter (List.cons_ne_nil _ _) h
  · exact lt_of_putCharacter (List.cons_ne_nil _ _) h
  · obtain rfl := Turn.next.inj h
    exact Nat.lt_succ_self _

/-- The loop of `gb18030_mbstocts`, or none if it returns -1. -/
def mbstoctsLoop (inbuf : ℕ → UInt8) (fromLeft : ℕ) (toLeft : ℤ) (state : CTState) :
    Option CTState :=
  if state.i < fromLeft ∧ (state.out.length : ℤ) < toLeft then
    match _h : mbstoctsTurn inbuf toLeft state with
    | .next state' => mbstoctsLoop inbuf fromLeft toLeft state'
    | .stop state' => some state'
    | .fail => none
  else some state
termination_by fromLeft - state.i
decreasing_by
  have hlt := lt_of_mbstoctsTurn _h
  omega

/-- `gb18030_mbstocts(conv, from, from_left, to, to_left, args, num_args)`, or none if it returns
-1. -/
def mbstocts (inbuf : ℕ → UInt8) (fromLeft : ℕ) (toLeft : ℤ) : Option Converted :=
  (mbstoctsLoop inbuf fromLeft toLeft ⟨0, [], 0, 0⟩).map fun state ↦
    ⟨state.unconvNum, state.i, state.out, fromLeft - state.i, toLeft - state.out.length⟩

/-! ### From compound text -/

/-- The loops of `gb18030_ctstombs`: the outer one, and for each character set an inner one. -/
inductive Loop
  | outer
  | inner (charset : CharSetType)

/-- The ASCII characters that are converted. -/
def isPlain (ch : UInt8) : Bool := (ch = 0x0a || ch = 0x09 || ch ≥ 0x20) && isASCII ch

/-- The character that an inner loop finds. -/
def accept (inbuf : ℕ → UInt8) (i : ℕ) (charset : CharSetType) : Option (List UInt8) :=
  match charset with
  | .ascii => if isPlain (inbuf i) then some [inbuf i] else none
  | .gb2312 =>
    let first := (inbuf i &&& 0x7f) ||| 0x80
    let second := (inbuf (i + 1) &&& 0x7f) ||| 0x80
    if isgb first second then some [first, second] else none
  | .gb18030_0 =>
    if isgb18030_2 (inbuf i) (inbuf (i + 1)) then some [inbuf i, inbuf (i + 1)] else none
  | .gb18030_1 =>
    if isgb18030_4 (inbuf i) (inbuf (i + 1)) (inbuf (i + 2)) (inbuf (i + 3)) then
      some [inbuf i &&& 0xff, inbuf (i + 1) &&& 0xff, inbuf (i + 2) &&& 0xff,
        inbuf (i + 3) &&& 0xff]
    else none

/-- The variables of `gb18030_ctstombs`, of which `j` is the number of bytes in `out`. -/
structure MBState where
  i : ℕ
  out : List UInt8
  toLeft : ℤ
  unconvNum : ℕ

/-- A character goes into the output buffer, unless that is `NULL`. -/
def MBState.put (state : MBState) (saveOutbuf : Bool) (bytes : List UInt8) : MBState :=
  { state with
    i := state.i + bytes.length
    out := if saveOutbuf then state.out ++ bytes else state.out
    toLeft := state.toLeft - bytes.length }

theorem length_pos_of_accept {inbuf : ℕ → UInt8} {i : ℕ} {charset : CharSetType}
    {bytes : List UInt8} (h : accept inbuf i charset = some bytes) : 0 < bytes.length := by
  cases charset with
  | ascii | gb2312 | gb18030_0 | gb18030_1 =>
    simp only [accept] at h
    split_ifs at h
    obtain rfl := Option.some.inj h
    exact Nat.succ_pos _

theorem length_pos_of_getCharset {inbuf : ℕ → UInt8} {i length : ℕ} {charset : CharSetType}
    (h : getCharsetWithEncodeString inbuf i = some (charset, length)) : 0 < length := by
  obtain ⟨entry, hentry, heq⟩ := Option.map_eq_some_iff.mp h
  obtain ⟨-, rfl⟩ := Prod.mk.inj heq
  have hlengths : ∀ entry ∈ defaultCTData, 0 < entry.2.2.length := by decide
  exact hlengths entry (List.mem_of_find?_eq_some hentry)

/-- The loops of `gb18030_ctstombs`. -/
def ctstombsLoop (inbuf : ℕ → UInt8) (fromLeft : ℕ) (saveOutbuf : Bool) (loop : Loop)
    (state : MBState) :
    MBState :=
  match loop with
  | .outer =>
    if state.i < fromLeft then
      if inbuf state.i = ESC then
        match _h : getCharsetWithEncodeString inbuf state.i with
        | some (charset, length) =>
          ctstombsLoop inbuf fromLeft saveOutbuf (.inner charset)
            { state with i := state.i + length }
        | none =>
          ctstombsLoop inbuf fromLeft saveOutbuf .outer
            { state with i := state.i + 1, unconvNum := state.unconvNum + 1 }
      else if isPlain (inbuf state.i) then
        if state.toLeft < 1 then state
        else ctstombsLoop inbuf fromLeft saveOutbuf .outer (state.put saveOutbuf [inbuf state.i])
      else
        ctstombsLoop inbuf fromLeft saveOutbuf .outer
          { state with i := state.i + 1, unconvNum := state.unconvNum + 1 }
    else state
  | .inner charset =>
    if fromLeft ≤ state.i then state
    else
      match _h : accept inbuf state.i charset with
      | some bytes =>
        -- for ASCII there is no test of `from_left`, but it is not less than 1 here
        if state.toLeft < bytes.length ∨ fromLeft < bytes.length then state
        else ctstombsLoop inbuf fromLeft saveOutbuf (.inner charset) (state.put saveOutbuf bytes)
      | none => ctstombsLoop inbuf fromLeft saveOutbuf .outer state
termination_by 2 * (fromLeft - state.i) + match loop with
  | .outer => 0
  | .inner _ => 1
decreasing_by
  · have hlength := length_pos_of_getCharset _h
    omega
  · omega
  · dsimp only [MBState.put, List.length_cons, List.length_nil]
    omega
  · omega
  · have hlength := length_pos_of_accept _h
    dsimp only [MBState.put]
    omega
  · exact Nat.lt_succ_self _

/-- `gb18030_ctstombs(conv, from, from_left, to, to_left, args, num_args)`, where `saveOutbuf` tells
whether the output buffer is not `NULL`. -/
def ctstombs (inbuf : ℕ → UInt8) (fromLeft : ℕ) (saveOutbuf : Bool) (toLeft : ℤ) : Converted :=
  let state := ctstombsLoop inbuf fromLeft saveOutbuf .outer ⟨0, [], toLeft, 0⟩
  ⟨state.unconvNum, state.i, state.out, if state.i ≥ fromLeft then 0
    else fromLeft - state.i, state.toLeft⟩

end Userland.X11.GB18030
