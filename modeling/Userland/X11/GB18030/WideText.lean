import Userland.X11.GB18030.RoundTrip

/-!
# Compound text of wide characters

`gb18030_wcstocts` of `modules/lc/gb18030/lcGB18030.c` beside `gb18030_mbstocts`. It sets the high
bits of GB2312 characters, where the other one clears them, it counts a character that it has no
room for, and it does not ask whether there is room for an ASCII character behind another one.

Scope. `wctomb` gives the bytes of a character of GB18030 (`Code`). What the buffer for these bytes
holds at first is arbitrary, as it is not set.
-/

set_option autoImplicit false
set_option relaxedAutoImplicit false

namespace Userland.X11.GB18030

/-! ### Characters -/

/-- The bytes of an ASCII character, a two-byte or a four-byte code. -/
def IsCode : List UInt8 → Prop
  | [a] => isASCII a = true
  | [a, b] => isgb18030_2 a b = true
  | [a, b, c, d] => isgb18030_4 a b c d = true
  | _ => False

/-- A character of GB18030. -/
structure Code where
  bytes : List UInt8
  valid : IsCode bytes

namespace Code

/-- The character set of a character. Two-byte codes are taken for GB2312 where they may be. -/
def charset (c : Code) : CharSetType :=
  match c.bytes with
  | [a, b] => if isgb a b then .gb2312 else .gb18030_0
  | [_, _, _, _] => .gb18030_1
  | _ => .ascii

/-- The bytes of a character in compound text, which are seven bits wide for GB2312. -/
def text (c : Code) : List UInt8 := if c.charset = .gb2312 then c.bytes.map (· &&& 0x7f)
    else c.bytes

theorem cases {P : Code → Prop}
    (ascii : ∀ (c : Code) (a : UInt8), c.bytes = [a] → c.charset = .ascii → c.text = [a] →
      isASCII a = true → P c)
    (gb2312 : ∀ (c : Code) (a b : UInt8), c.bytes = [a, b] → c.charset = .gb2312 →
      c.text = [a &&& 0x7f, b &&& 0x7f] → isgb a b = true → P c)
    (gb18030_0 : ∀ (c : Code) (a b : UInt8), c.bytes = [a, b] → c.charset = .gb18030_0 →
      c.text = [a, b] →
      isgb a b = false → isgb18030_2 a b = true → P c)
    (gb18030_1 : ∀ (c : Code) (a b a' b' : UInt8), c.bytes = [a, b, a', b'] →
      c.charset = .gb18030_1 →
      c.text = [a, b, a', b'] → isgb18030_4 a b a' b' = true → P c) (c : Code) : P c := by
  obtain ⟨bytes, valid⟩ := c
  match bytes, valid with
  | [a], h => exact ascii _ a rfl rfl rfl h
  | [a, b], h =>
    by_cases hgb : isgb a b = true
    · refine gb2312 _ a b rfl ?_ ?_ hgb
      · simp [charset, hgb]
      · simp [text, charset, hgb]
    · refine gb18030_0 _ a b rfl ?_ ?_ ((Bool.not_eq_true _).mp hgb) h
      · simp [charset, hgb]
      · simp [text, charset, hgb]
  | [a, b, a', b'], h => exact gb18030_1 _ a b a' b' rfl rfl rfl h

end Code

/-- The multibyte string of some characters. -/
def codeString (cs : List Code) : List UInt8 := cs.flatMap Code.bytes

/-- The compound text of some characters behind one of the character set `current`. -/
def compoundText : Option CharSetType → List Code → List UInt8
  | _, [] => []
  | current, c :: cs => designation current c.charset ++ c.text ++ compoundText (some c.charset) cs

/-! ### Wide characters to compound text -/

/-- `wctomb(inbufptr, wc)`: the bytes of a character, and behind them what was there before. -/
def wctomb (inbuf : ℕ → UInt8) (bytes : List UInt8) : ℕ → UInt8 := fun i ↦ bytes.getD i (inbuf i)

/-- A branch of the loop: a character of a character set, as some bytes. -/
def putWide (toLeft : ℤ) (charset : List Char) (flag : ℕ) (bytes : List UInt8) (state : CTState) :
    Turn :=
  match putEncodeString toLeft charset flag bytes.length state with
  | .next state' =>
    if (state'.out.length : ℤ) + bytes.length ≥ toLeft then .stop state'
    else .next { state' with out := state'.out ++ bytes }
  | turn => turn

/-- The branch for ASCII characters. -/
def putWideASCII (toLeft : ℤ) (byte : UInt8) (state : CTState) : Turn :=
  match putEncodeString toLeft "ASCII".toList 3 1 state with
  | .next state' => .next { state' with out := state'.out ++ [byte] }
  | turn => turn

/-- What a turn of the loop of `gb18030_wcstocts` does with the bytes that `wctomb` has written. -/
def wcstoctsTurn (inbuf : ℕ → UInt8) (toLeft : ℤ) (state : CTState) : Turn :=
  if isgb (inbuf 0) (inbuf 1) then putWide toLeft "GB2312".toList 1 [inbuf 0, inbuf 1] state
  else if isgb18030_2 (inbuf 0) (inbuf 1) then putWide toLeft "GB18030-0".toList 2 [inbuf 0,
    inbuf 1] state
  else if isgb18030_4 (inbuf 0) (inbuf 1) (inbuf 2) (inbuf 3) then
    putWide toLeft "GB18030-1".toList 6 [inbuf 0, inbuf 1, inbuf 2, inbuf 3] state
  else if isASCII (inbuf 0) then putWideASCII toLeft (inbuf 0) state
  else .next { state with unconvNum := state.unconvNum + 1 }

section Wide

variable {W : Type} (encode : W → Code)

/-- The loop of `gb18030_wcstocts` over the wide characters that are left, or none if it returns -1.
The number `i` of the state is the `k` of the source. -/
def wcstoctsLoop (toLeft : ℤ) : List W → (ℕ → UInt8) → CTState → Option CTState
  | [], _, state => some state
  | wc :: pwc, inbuf, state =>
    -- `k` advances before anything is written
    match wcstoctsTurn (wctomb inbuf (encode wc).bytes) toLeft { state with i := state.i + 1 } with
    | .next state' => wcstoctsLoop toLeft pwc (wctomb inbuf (encode wc).bytes) state'
    | .stop state' => some state'
    | .fail => none

/-- `gb18030_wcstocts(conv, from, from_left, to, to_left, args, num_args)`, or none if it returns
-1. -/
def wcstocts (inbuf : ℕ → UInt8) (pwc : List W) (toLeft : ℤ) : Option Converted :=
  (wcstoctsLoop encode toLeft pwc inbuf ⟨0, [], 0, 0⟩).map fun state ↦
    ⟨state.unconvNum, state.i, state.out, pwc.length - state.i, toLeft - state.out.length⟩

/-- The bytes at the start of a buffer. -/
def bufferOf (bytes : List UInt8) : ℕ → UInt8 := fun i ↦ bytes.getD i 0

/-- The call writes the same bytes as `gb18030_mbstocts` on the multibyte string, no more than there
is room for, and reports those characters as consumed whose compound text it has written. -/
def Agrees (inbuf : ℕ → UInt8) (pwc : List W) (toLeft : ℤ) : Prop :=
  ∃ wide multibyte, wcstocts encode inbuf pwc toLeft = some wide ∧
    mbstocts (bufferOf (codeString (pwc.map encode))) (codeString (pwc.map encode)).length toLeft =
      some multibyte ∧
    wide.written = multibyte.written ∧ (wide.written.length : ℤ) ≤ toLeft ∧ wide.read ≤ pwc.length ∧
    wide.written = compoundText none ((pwc.take wide.read).map encode) ∧
    wide.read + wide.fromLeft = pwc.length ∧ wide.written.length + wide.toLeft = toLeft

end Wide

/-! ### One character -/

/-- The flag of a character set in `gb18030_wcstocts`. -/
def CharSetType.wideFlag : CharSetType → ℕ
  | .ascii => 3
  | .gb2312 => 1
  | .gb18030_0 => 2
  | .gb18030_1 => 6

def wideFlagOf : Option CharSetType → ℕ
  | none => 0
  | some charset => charset.wideFlag

theorem wideFlagOf_eq_iff (current : Option CharSetType) (charset : CharSetType) :
    wideFlagOf current = 0 ∨ wideFlagOf current ≠ charset.wideFlag ↔ current ≠ some charset := by
  cases current with
  | none => simp [wideFlagOf]
  | some other => cases other <;> cases charset <;> simp [wideFlagOf, CharSetType.wideFlag]

theorem putEncodeString_wide (toLeft : ℤ) (charset : CharSetType) (width : ℕ) (state : CTState)
    (current : Option CharSetType) (hflag : state.flag = wideFlagOf current) :
    putEncodeString toLeft charset.name charset.wideFlag width state =
      if current = some charset then .next state
      else if (state.out.length : ℤ) + charset.encodeString.length + width ≥ toLeft then .stop state
      else .next
      { state with out := state.out ++ charset.encodeString, flag := charset.wideFlag } := by
  have hiff := wideFlagOf_eq_iff current charset
  rw [← hflag] at hiff
  unfold putEncodeString
  by_cases hcurrent : current = some charset
  · rw [if_pos hcurrent, if_neg fun h ↦ hiff.mp h hcurrent]
  · rw [if_neg hcurrent, if_pos (hiff.mpr hcurrent), getCTEncodeString_name]

theorem putWide_eq (toLeft : ℤ) (charset : CharSetType) (bytes : List UInt8) (state : CTState)
    (current : Option CharSetType) (hflag : state.flag = wideFlagOf current) :
    putWide toLeft charset.name charset.wideFlag bytes state =
      if (state.out.length : ℤ) + ((designation current charset).length + bytes.length) ≥
      toLeft then .stop state
      else .next { state with
        out := state.out ++ (designation current charset ++ bytes), flag := charset.wideFlag } := by
  unfold putWide
  rw [putEncodeString_wide toLeft charset bytes.length state current hflag]
  unfold designation
  by_cases hcurrent : current = some charset
  · have hflag' : state.flag = charset.wideFlag := by rw [hflag, hcurrent, wideFlagOf]
    rw [if_pos hcurrent, if_pos hcurrent, ← hflag']
    simp
  · rw [if_neg hcurrent, if_neg hcurrent]
    by_cases hroom : (state.out.length : ℤ) + charset.encodeString.length + bytes.length ≥ toLeft
    · rw [if_pos hroom, if_pos (by omega)]
    · rw [if_neg hroom, if_neg (by omega)]
      dsimp only
      rw [if_neg (by rw [List.length_append]; omega), List.append_assoc]

theorem putWideASCII_eq (toLeft : ℤ) (byte : UInt8) (state : CTState) (current : Option CharSetType)
    (hflag : state.flag = wideFlagOf current) :
    putWideASCII toLeft byte state =
      if (state.out.length : ℤ) + ((designation current .ascii).length + 1) ≥ toLeft ∧
      current ≠ some .ascii then
        .stop state
      else .next
      { state with out := state.out ++ (designation current .ascii ++ [byte]), flag := 3 } := by
  have hencode : putEncodeString toLeft "ASCII".toList 3 1 state = _ :=
    putEncodeString_wide toLeft .ascii 1 state current hflag
  unfold putWideASCII
  rw [hencode]
  unfold designation
  by_cases hcurrent : current = some .ascii
  · have hflag' : state.flag = 3 := by rw [hflag, hcurrent, wideFlagOf, CharSetType.wideFlag]
    rw [if_pos hcurrent, if_pos hcurrent, ← hflag', if_neg fun h ↦ h.2 hcurrent]
    rfl
  · rw [if_neg hcurrent, if_neg hcurrent]
    by_cases hroom : (state.out.length : ℤ) + CharSetType.ascii.encodeString.length +
      (1 : ℕ) ≥ toLeft
    · rw [if_pos hroom, if_pos ⟨by omega, hcurrent⟩]
    · rw [if_neg hroom, if_neg (by omega)]
      dsimp only
      rw [List.append_assoc]
      rfl

theorem isgb_of_isASCII {a : UInt8} (h : isASCII a = true) (b : UInt8) : isgb a b = false := by
  simp only [isASCII, isgb] at h ⊢
  grind

theorem isgb18030_2_of_isASCII {a : UInt8} (h : isASCII a = true) (b : UInt8) :
    isgb18030_2 a b = false := by
  simp only [isASCII, isgb18030_2] at h ⊢
  grind

theorem isgb18030_4_of_isASCII {a : UInt8} (h : isASCII a = true) (b a' b' : UInt8) :
    isgb18030_4 a b a' b' = false := by
  simp only [isASCII, isgb18030_4] at h ⊢
  grind

theorem isgb_of_isgb18030_4 {a b a' b' : UInt8} (h : isgb18030_4 a b a' b' = true) :
    isgb a b = false := by
  simp only [isgb18030_4, isgb] at h ⊢
  grind

theorem isgb18030_2_of_isgb18030_4 {a b a' b' : UInt8} (h : isgb18030_4 a b a' b' = true) :
    isgb18030_2 a b = false := by
  simp only [isgb18030_4, isgb18030_2] at h ⊢
  grind

/-- What a turn does with a character: it takes it, unless there is no room for it, which is not
asked of an ASCII character behind another one. -/
theorem wcstoctsTurn_eq (inbuf : ℕ → UInt8) (toLeft : ℤ) (c : Code) (state : CTState)
    (current : Option CharSetType) (hflag : state.flag = wideFlagOf current) :
    wcstoctsTurn (wctomb inbuf c.bytes) toLeft state =
      if (state.out.length : ℤ) + ((designation current c.charset).length + c.bytes.length) ≥
      toLeft ∧
          ¬ (c.charset = .ascii ∧ current = some .ascii) then .stop state
      else .next { state with
        out := state.out ++ (designation current c.charset ++ c.bytes), flag :=
        c.charset.wideFlag } := by
  unfold wcstoctsTurn
  cases c using Code.cases with
  | ascii c a hbytes hcharset htext hascii =>
    have hzero : wctomb inbuf [a] 0 = a := rfl
    rw [hbytes, hcharset]
    simp only [hzero, isgb_of_isASCII hascii, isgb18030_2_of_isASCII hascii,
      isgb18030_4_of_isASCII hascii, hascii, Bool.false_eq_true, ↓reduceIte, true_and]
    exact putWideASCII_eq toLeft a state current hflag
  | gb2312 c a b hbytes hcharset htext hgb =>
    have hzero : wctomb inbuf [a, b] 0 = a := rfl
    have hone : wctomb inbuf [a, b] 1 = b := rfl
    rw [hbytes, hcharset, hzero, hone, if_pos hgb]
    simp only [reduceCtorEq, false_and, not_false_eq_true, and_true]
    exact putWide_eq toLeft .gb2312 [a, b] state current hflag
  | gb18030_0 c a b hbytes hcharset htext hgb htwo =>
    have hzero : wctomb inbuf [a, b] 0 = a := rfl
    have hone : wctomb inbuf [a, b] 1 = b := rfl
    rw [hbytes, hcharset, hzero, hone, hgb, if_neg Bool.false_ne_true, if_pos htwo]
    simp only [reduceCtorEq, false_and, not_false_eq_true, and_true]
    exact putWide_eq toLeft .gb18030_0 [a, b] state current hflag
  | gb18030_1 c a b a' b' hbytes hcharset htext hfour =>
    have hzero : wctomb inbuf [a, b, a', b'] 0 = a := rfl
    have hone : wctomb inbuf [a, b, a', b'] 1 = b := rfl
    have htwo : wctomb inbuf [a, b, a', b'] 2 = a' := rfl
    have hthree : wctomb inbuf [a, b, a', b'] 3 = b' := rfl
    rw [hbytes, hcharset, hzero, hone, htwo, hthree, isgb_of_isgb18030_4 hfour, isgb18030_2_of_isgb18030_4 hfour,
      if_neg Bool.false_ne_true, if_neg Bool.false_ne_true, if_pos hfour]
    simp only [reduceCtorEq, false_and, not_false_eq_true, and_true]
    exact putWide_eq toLeft .gb18030_1 [a, b, a', b'] state current hflag

namespace Code

theorem length_bytes_pos (c : Code) : 0 < c.bytes.length := by
  cases c using Code.cases with
  | ascii c a hbytes | gb2312 c a b hbytes | gb18030_0 c a b hbytes | gb18030_1 c a b a' b' hbytes =>
    rw [hbytes]
    exact Nat.succ_pos _

theorem length_text (c : Code) : c.text.length = c.bytes.length := by
  unfold text
  split_ifs
  · exact List.length_map _
  · rfl

/-- Only for GB2312 are the bytes in compound text others. -/
theorem text_eq_bytes_iff (c : Code) : c.text = c.bytes ↔ c.charset ≠ .gb2312 := by
  cases c using Code.cases with
  | ascii c a hbytes hcharset htext | gb18030_0 c a b hbytes hcharset htext
  | gb18030_1 c a b a' b' hbytes hcharset htext => simp [hbytes, hcharset, htext]
  | gb2312 c a b hbytes hcharset htext hgb =>
    have hseven : ∀ byte : UInt8, byte &&& 0x7f ≤ 0x7f := by
      intro byte
      have hall : ∀ bits : BitVec 8, bits &&& 0x7f#8 ≤ 0x7f#8 := by decide
      exact hall byte.toBitVec
    have hlow := hseven a
    simp only [isgb] at hgb
    rw [hbytes, hcharset, htext]
    grind

end Code

/-- A turn of the loop of `gb18030_mbstocts` at a character puts its text there. -/
theorem mbstoctsTurn_code {inbuf : ℕ → UInt8} {toLeft : ℤ} {state : CTState} {c : Code}
    (h : startsWith inbuf state.i c.bytes = true) :
    mbstoctsTurn inbuf toLeft state = putCharacter toLeft c.charset.name c.charset.flag
    c.text state := by
  unfold mbstoctsTurn
  cases c using Code.cases with
  | ascii c a hbytes hcharset htext hascii =>
    rw [hbytes, startsWith, Bool.and_eq_true, decide_eq_true_eq] at h
    rw [hcharset, htext]
    simp only [Nat.add_zero, h.1, isgb_of_isASCII hascii, isgb18030_2_of_isASCII hascii,
      isgb18030_4_of_isASCII hascii, hascii, Bool.false_eq_true, ↓reduceIte]
    rfl
  | gb2312 c a b hbytes hcharset htext hgb =>
    simp only [hbytes, startsWith, Bool.and_eq_true, decide_eq_true_eq] at h
    rw [hcharset, htext]
    simp only [Nat.add_zero, h, hgb, ↓reduceIte]
    rfl
  | gb18030_0 c a b hbytes hcharset htext hgb htwo =>
    simp only [hbytes, startsWith, Bool.and_eq_true, decide_eq_true_eq] at h
    rw [hcharset, htext]
    simp only [Nat.add_zero, h, hgb, htwo, and_0xff, Bool.false_eq_true, ↓reduceIte]
    rfl
  | gb18030_1 c a b a' b' hbytes hcharset htext hfour =>
    simp only [hbytes, startsWith, Bool.and_eq_true, decide_eq_true_eq] at h
    rw [hcharset, htext]
    simp only [Nat.add_zero, Nat.add_assoc, Nat.reduceAdd] at h ⊢
    simp only [h, isgb_of_isgb18030_4 hfour, isgb18030_2_of_isgb18030_4 hfour, hfour,
      Bool.false_eq_true, ↓reduceIte]
    rfl

theorem codeString_cons (c : Code) (cs : List Code) :
    codeString (c :: cs) = c.bytes ++ codeString cs :=
  List.flatMap_cons

/-- The loop of `gb18030_mbstocts` takes a character if there is room for it. -/
theorem mbstoctsLoop_code {inbuf : ℕ → UInt8} (toLeft : ℤ) (c : Code) {fromLeft : ℕ}
    {state : CTState}
    {current : Option CharSetType} (hflag : state.flag = flagOf current)
    (hleft : state.i < fromLeft) (h : startsWith inbuf state.i c.bytes = true) :
    mbstoctsLoop inbuf fromLeft toLeft state =
      if (state.out.length : ℤ) + ((designation current c.charset).length + c.bytes.length) ≥
      toLeft then some state
      else mbstoctsLoop inbuf fromLeft toLeft ⟨state.i + c.bytes.length,
        state.out ++ (designation current c.charset ++ c.text), c.charset.flag,
        state.unconvNum⟩ := by
  have hturn : mbstoctsTurn inbuf toLeft state = _ := mbstoctsTurn_code h
  rw [putCharacter_eq toLeft c.charset c.text state current hflag, c.length_text] at hturn
  rw [mbstoctsLoop]
  by_cases hroom : (state.out.length : ℤ) +
    ((designation current c.charset).length + c.bytes.length) ≥ toLeft
  · rw [if_pos hroom] at hturn
    rw [if_pos hroom, hturn]
    exact ite_self (some state)
  · rw [if_neg hroom] at hturn
    rw [if_neg hroom, if_pos ⟨hleft, by omega⟩, hturn, List.append_assoc]

theorem length_compoundText_cons (current : Option CharSetType) (c : Code) (cs : List Code) :
    (compoundText current (c :: cs)).length =
      (designation current c.charset).length + c.bytes.length +
      (compoundText (some c.charset) cs).length := by
  rw [compoundText, List.length_append, List.length_append, c.length_text]

/-! ### Strings -/

/-- The loop of `gb18030_mbstocts` takes everything there is room for. -/
theorem mbstoctsLoop_codes {inbuf : ℕ → UInt8} {toLeft : ℤ} {cs : List Code}
    {current : Option CharSetType}
    {state : CTState} (hflag : state.flag = flagOf current)
    (h : startsWith inbuf state.i (codeString cs) = true)
    (hroom : cs = [] ∨ state.out.length + (compoundText current cs).length < toLeft) :
    ∃ flag, mbstoctsLoop inbuf (state.i + (codeString cs).length) toLeft state =
      some ⟨state.i + (codeString cs).length, state.out ++ compoundText current cs, flag,
        state.unconvNum⟩ := by
  induction cs generalizing state current with
  | nil =>
    refine ⟨state.flag, ?_⟩
    rw [mbstoctsLoop, if_neg fun hleft ↦ Nat.lt_irrefl _ hleft.1]
    simp [codeString, compoundText]
  | cons c cs ih =>
    have hpos := c.length_bytes_pos
    have hfits := hroom.resolve_left (List.cons_ne_nil _ _)
    rw [length_compoundText_cons] at hfits
    rw [codeString_cons, startsWith_append] at h
    rw [codeString_cons, List.length_append]
    rw [mbstoctsLoop_code toLeft c hflag (by omega) h.1, if_neg (by omega)]
    have hnext : (⟨state.i + c.bytes.length, state.out ++ (designation current c.charset ++ c.text),
        c.charset.flag, state.unconvNum⟩ : CTState).flag = flagOf (some c.charset) := rfl
    obtain ⟨flag, hloop⟩ := ih hnext h.2 (Or.inr (by
      simp only [List.length_append, c.length_text]
      omega))
    refine ⟨flag, ?_⟩
    rw [← Nat.add_assoc, hloop, compoundText]
    simp only [List.append_assoc]

section Wide

variable {W : Type} {encode : W → Code} {toLeft : ℤ} {wc : W} {pwc : List W} {inbuf : ℕ → UInt8}
  {state : CTState} {current : Option CharSetType}

/-- The variables after a character that `gb18030_wcstocts` has taken. -/
def wideNext (current : Option CharSetType) (c : Code) (state : CTState) : CTState :=
  ⟨state.i + 1, state.out ++ (designation current c.charset ++ c.bytes), c.charset.wideFlag,
    state.unconvNum⟩

theorem wcstoctsLoop_stop (hflag : state.flag = wideFlagOf current)
    (hfull : (state.out.length : ℤ) + ((designation current (encode wc).charset).length +
        (encode wc).bytes.length) ≥ toLeft)
    (hmode : ¬ ((encode wc).charset = .ascii ∧ current = some .ascii)) :
    wcstoctsLoop encode toLeft (wc :: pwc) inbuf state = some { state with i := state.i + 1 } := by
  have hturn := wcstoctsTurn_eq inbuf toLeft (encode wc)
    { state with i := state.i + 1 } current hflag
  rw [if_pos ⟨hfull, hmode⟩] at hturn
  rw [wcstoctsLoop, hturn]

theorem wcstoctsLoop_next (hflag : state.flag = wideFlagOf current)
    (h : (state.out.length : ℤ) + ((designation current (encode wc).charset).length +
        (encode wc).bytes.length) < toLeft ∨ (encode wc).charset = .ascii ∧ current = some .ascii) :
    wcstoctsLoop encode toLeft (wc :: pwc) inbuf state =
      wcstoctsLoop encode toLeft pwc (wctomb inbuf (encode wc).bytes)
      (wideNext current (encode wc) state) := by
  have hgoes : ¬ ((state.out.length : ℤ) + ((designation current (encode wc).charset).length +
      (encode wc).bytes.length) ≥ toLeft ∧
          ¬ ((encode wc).charset = .ascii ∧ current = some .ascii)) := by
    rintro ⟨hfull, hmode⟩
    exact hmode (h.resolve_left (by omega))
  have hturn := wcstoctsTurn_eq inbuf toLeft (encode wc)
    { state with i := state.i + 1 } current hflag
  rw [if_neg hgoes] at hturn
  rw [wcstoctsLoop, hturn]
  rfl

/-- The loop only adds to what has been written and counted. -/
theorem prefix_of_wcstoctsLoop {last : CTState} (hflag : state.flag = wideFlagOf current)
    (h : wcstoctsLoop encode toLeft pwc inbuf state = some last) :
    state.i ≤ last.i ∧ state.out <+: last.out := by
  induction pwc generalizing state inbuf current with
  | nil =>
    rw [← Option.some.inj h]
    exact ⟨Nat.le_refl _, List.prefix_rfl⟩
  | cons wc pwc ih =>
    by_cases hgoes : (state.out.length : ℤ) + ((designation current (encode wc).charset).length +
        (encode wc).bytes.length) < toLeft ∨ (encode wc).charset = .ascii ∧ current = some .ascii
    · rw [wcstoctsLoop_next hflag hgoes] at h
      have hnext : (wideNext current (encode wc) state).flag =
        wideFlagOf (some (encode wc).charset) := rfl
      obtain ⟨hi, hout⟩ := ih hnext h
      exact ⟨Nat.le_of_succ_le hi, (List.prefix_append _ _).trans hout⟩
    · rw [not_or] at hgoes
      rw [wcstoctsLoop_stop hflag (by omega) hgoes.2] at h
      rw [← Option.some.inj h]
      exact ⟨Nat.le_succ _, List.prefix_rfl⟩

/-- The loop of `gb18030_wcstocts` takes everything there is room for. -/
theorem wcstoctsLoop_codes (hflag : state.flag = wideFlagOf current)
    (hgb : ∀ wc ∈ pwc, (encode wc).charset ≠ .gb2312)
    (hroom : pwc = [] ∨ state.out.length + (compoundText current (pwc.map encode)).length <
      toLeft) :
    ∃ flag, wcstoctsLoop encode toLeft pwc inbuf state =
      some ⟨state.i + pwc.length, state.out ++ compoundText current (pwc.map encode), flag,
        state.unconvNum⟩ := by
  induction pwc generalizing state inbuf current with
  | nil => exact ⟨state.flag, by simp [wcstoctsLoop, compoundText]⟩
  | cons wc pwc ih =>
    have hfits := hroom.resolve_left (List.cons_ne_nil _ _)
    rw [List.map_cons, length_compoundText_cons] at hfits
    have htext := (encode wc).text_eq_bytes_iff.mpr (hgb wc List.mem_cons_self)
    have hnext : (wideNext current (encode wc) state).flag =
      wideFlagOf (some (encode wc).charset) := rfl
    have hrest : (wideNext current (encode wc) state).out.length +
        (compoundText (some (encode wc).charset) (pwc.map encode)).length < toLeft := by
      simp only [wideNext, List.length_append]
      omega
    obtain ⟨flag, hloop⟩ := ih hnext (fun wc hwc ↦ hgb wc (List.mem_cons_of_mem _ hwc))
      (Or.inr hrest)
    refine ⟨flag, ?_⟩
    rw [wcstoctsLoop_next hflag (Or.inl (by omega)), hloop, List.map_cons, compoundText, htext]
    simp only [wideNext, List.append_assoc, List.length_cons, Nat.add_assoc, Nat.add_comm 1]

/-- If both converters write the same, and what the wide one reports, then there was room for
everything, and no GB2312 character. -/
theorem room_of_agree {multi last lastMulti : CTState} {buf : ℕ → UInt8}
    (hflag : state.flag = wideFlagOf current)
    (hflagMulti : multi.flag = flagOf current) (hout : state.out = multi.out)
    (hstart : startsWith buf multi.i (codeString (pwc.map encode)) = true)
    (hlast : wcstoctsLoop encode toLeft pwc inbuf state = some last)
    (hlastMulti : mbstoctsLoop buf (multi.i + (codeString (pwc.map encode)).length) toLeft multi =
      some lastMulti)
    (hsame : last.out = lastMulti.out)
    (hreport : last.out = state.out ++ compoundText current
      ((pwc.take (last.i - state.i)).map encode)) :
    (pwc = [] ∨ state.out.length + (compoundText current (pwc.map encode)).length < toLeft) ∧
      ∀ wc ∈ pwc, (encode wc).charset ≠ .gb2312 := by
  induction pwc generalizing state inbuf current multi with
  | nil => exact ⟨Or.inl rfl, fun wc hwc ↦ absurd hwc List.not_mem_nil⟩
  | cons wc pwc ih =>
    have hpos := (encode wc).length_bytes_pos
    rw [List.map_cons, codeString_cons, startsWith_append] at hstart
    rw [List.map_cons, codeString_cons, List.length_append,
      mbstoctsLoop_code toLeft (encode wc) hflagMulti (by omega) hstart.1, ← hout] at hlastMulti
    by_cases hfull : (state.out.length : ℤ) + ((designation current (encode wc).charset).length +
        (encode wc).bytes.length) ≥ toLeft
    · -- the multibyte converter stops here, and the wide one has gone on or counted the character
      rw [if_pos hfull] at hlastMulti
      have hstay : last.out = state.out := by rw [hsame, ← Option.some.inj hlastMulti, hout]
      by_cases hmode : (encode wc).charset = .ascii ∧ current = some .ascii
      · rw [wcstoctsLoop_next hflag (Or.inr hmode)] at hlast
        have hnext : (wideNext current (encode wc) state).flag =
          wideFlagOf (some (encode wc).charset) := rfl
        have hlength := (prefix_of_wcstoctsLoop hnext hlast).2.length_le
        rw [hstay] at hlength
        simp only [wideNext, List.length_append] at hlength
        omega
      · rw [wcstoctsLoop_stop hflag hfull hmode] at hlast
        have hi : last.i - state.i = 1 := by
          rw [← Option.some.inj hlast]
          exact Nat.add_sub_cancel_left _ _
        have hlength := congrArg List.length hreport
        rw [hstay, hi, List.take_succ_cons, List.map_cons, List.length_append,
          length_compoundText_cons] at hlength
        omega
    · rw [if_neg hfull, ← Nat.add_assoc] at hlastMulti
      have hmulti : (⟨multi.i + (encode wc).bytes.length,
          state.out ++ (designation current (encode wc).charset ++
          (encode wc).text), (encode wc).charset.flag, multi.unconvNum⟩ : CTState).flag =
          flagOf (some (encode wc).charset) := rfl
      rw [wcstoctsLoop_next hflag (Or.inl (by omega))] at hlast
      have hnext : (wideNext current (encode wc) state).flag =
        wideFlagOf (some (encode wc).charset) := rfl
      obtain ⟨hi, added, hadded⟩ := prefix_of_wcstoctsLoop hnext hlast
      have htake : last.i - state.i = last.i - (wideNext current (encode wc) state).i + 1 := by
        simp only [wideNext] at hi ⊢
        omega
      rw [htake, List.take_succ_cons, List.map_cons, compoundText, ← hadded] at hreport
      simp only [wideNext, List.append_assoc, List.append_cancel_left_eq] at hreport
      obtain ⟨htext, hrest⟩ := List.append_inj hreport (encode wc).length_text.symm
      have hnextOut : (wideNext current (encode wc) state).out =
          state.out ++ (designation current (encode wc).charset ++ (encode wc).text) := by
        rw [wideNext, htext]
      obtain ⟨hroom, hgb⟩ := ih hnext hmulti hnextOut hstart.2 hlast hlastMulti
        (by rw [← hadded, hrest]; rfl)
      refine ⟨Or.inr ?_, fun wc' hwc' ↦ ?_⟩
      · rw [List.map_cons, length_compoundText_cons]
        obtain rfl | hroom := hroom
        · simp only [List.map_nil, compoundText, List.length_nil]
          omega
        · simp only [wideNext, List.length_append] at hroom
          omega
      · obtain rfl | hwc' := List.mem_cons.mp hwc'
        · exact (encode wc').text_eq_bytes_iff.mp htext.symm
        · exact hgb wc' hwc'

theorem startsWith_bufferOf (bytes : List UInt8) : startsWith (bufferOf bytes) 0 bytes = true := by
  have hat : ∀ (start rest : List UInt8),
      startsWith (bufferOf (start ++ rest)) start.length rest = true := by
    intro start rest
    induction rest generalizing start with
    | nil => rfl
    | cons byte rest ih =>
      have hbyte : bufferOf (start ++ byte :: rest) start.length = byte := by
        rw [bufferOf, List.getD_eq_getElem?_getD, List.getElem?_append_right (Nat.le_refl _),
          Nat.sub_self]
        rfl
      have hrest := ih (start ++ [byte])
      rw [List.append_assoc, List.singleton_append, List.length_append] at hrest
      rw [startsWith, hbyte, decide_eq_true rfl, Bool.true_and]
      exact hrest
  exact hat [] bytes

/-- `gb18030_wcstocts` does the same as `gb18030_mbstocts`, stays inside its buffer and loses no
character exactly where there is no GB2312 character and the output buffer is longer than the
compound text. -/
theorem agrees_iff (encode : W → Code) (inbuf : ℕ → UInt8) (pwc : List W) (toLeft : ℕ) :
    Agrees encode inbuf pwc toLeft ↔
      (pwc = [] ∨ (compoundText none (pwc.map encode)).length < toLeft) ∧
        ∀ wc ∈ pwc, (encode wc).charset ≠ .gb2312 := by
  have hstart : (⟨0, [], 0, 0⟩ : CTState).flag = wideFlagOf none := rfl
  have hstartMulti : (⟨0, [], 0, 0⟩ : CTState).flag = flagOf none := rfl
  have hbuffer := startsWith_bufferOf (codeString (pwc.map encode))
  constructor
  · rintro ⟨wide, multibyte, hwide, hmultibyte, hsame, -, -, hreport, -, -⟩
    obtain ⟨last, hlast, rfl⟩ := Option.map_eq_some_iff.mp hwide
    obtain ⟨lastMulti, hlastMulti, rfl⟩ := Option.map_eq_some_iff.mp hmultibyte
    rw [← Nat.zero_add (codeString (pwc.map encode)).length] at hlastMulti
    obtain ⟨hroom, hgb⟩ :=
      room_of_agree hstart hstartMulti rfl hbuffer hlast hlastMulti hsame hreport
    refine ⟨hroom.imp_right fun hroom ↦ ?_, hgb⟩
    rw [List.length_nil] at hroom
    omega
  · rintro ⟨hroom, hgb⟩
    have hfits : pwc = [] ∨ (([] : List UInt8).length : ℤ) +
        (compoundText none (pwc.map encode)).length < toLeft := by
      refine hroom.imp_right fun hroom ↦ ?_
      rw [List.length_nil]
      omega
    obtain ⟨flag, hlast⟩ : ∃ flag, wcstoctsLoop encode toLeft pwc inbuf ⟨0, [], 0, 0⟩ =
        some ⟨0 + pwc.length,
        [] ++ compoundText none (pwc.map encode), flag, 0⟩ := wcstoctsLoop_codes hstart hgb hfits
    obtain ⟨flag', hlastMulti⟩ := mbstoctsLoop_codes hstartMulti hbuffer
      (hfits.imp_left fun hnil ↦ by rw [hnil, List.map_nil])
    dsimp only at hlastMulti
    rw [Nat.zero_add] at hlastMulti
    refine ⟨_, _, congrArg _ hlast, congrArg _ hlastMulti, rfl, ?_, ?_, ?_, ?_, ?_⟩
    · obtain rfl | hroom := hroom
      · exact Int.natCast_nonneg _
      · dsimp only [List.nil_append]
        omega
    · dsimp only
      omega
    · dsimp only
      rw [Nat.zero_add, List.take_length, List.nil_append]
    · dsimp only
      omega
    · dsimp only
      omega

theorem isCode_gb2312 : IsCode [0xb0, 0xa1] := rfl

/-- One GB2312 character, in a buffer of 16 bytes. -/
theorem not_agrees_gb2312 :
    ¬ ∀ (encode : Unit → Code) (inbuf : ℕ → UInt8) (pwc : List Unit) (toLeft : ℕ),
      Agrees encode inbuf pwc toLeft := by
  intro h
  obtain ⟨wide, -, hwide, -, -, -, -, hreport, -⟩ :=
    h (fun _ ↦ ⟨[0xb0, 0xa1], isCode_gb2312⟩) (fun _ ↦ 0) [()] 16
  have hlast : wcstocts (fun _ ↦ ⟨[0xb0, 0xa1], isCode_gb2312⟩) (fun _ ↦ 0) [()] 16 =
      some ⟨0, 1, [0x1b, 0x24, 0x28, 0x41, 0xb0, 0xa1], 0, 10⟩ := rfl
  obtain rfl := Option.some.inj (hlast.symm.trans hwide)
  exact absurd hreport (by decide)

end Wide

end Userland.X11.GB18030
