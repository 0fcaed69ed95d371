import Userland.X11.GB18030.Buffers

/-!
# Compound text on buffers with an end

`gb18030_mbstocts` and `gb18030_ctstombs` of `modules/lc/gb18030/lcGB18030.c` once more, on input
buffers that end. Where a turn of the first, or a step of the second, has a result, it is the one
that it has on every longer buffer (`mbstoctsTurnIn_refines`, `getCharsetIn_refines`,
`acceptIn_refines`).

Scope. The output buffer of `gb18030_ctstombs` is not `NULL`.
-/

set_option autoImplicit false
set_option relaxedAutoImplicit false

namespace Userland.X11.GB18030

/-! ### To compound text -/

/-- One turn of the loop of `gb18030_mbstocts`, or none if it looks behind the end. -/
def mbstoctsTurnIn (inbuf : List UInt8) (toLeft : ℤ) (state : CTState) : Option Turn :=
  let c := fun k ↦ inbuf.getD (state.i + k) 0
  let here := inbuf.drop state.i
  (testAll isgbTests here).bind fun isGb ↦
    if isGb then some (putCharacter toLeft "GB2312".toList 2 [c 0 &&& 0x7f, c 1 &&& 0x7f] state)
    else
      (testAll isgb18030_2Tests here).bind fun isTwo ↦
        if isTwo then some (putCharacter toLeft "GB18030-0".toList 4 [c 0 &&& 0xff,
          c 1 &&& 0xff] state)
        else
          (testAll isgb18030_4Tests here).bind fun isFour ↦
            if isFour then some (putCharacter toLeft "GB18030-1".toList 5 [c 0, c 1,
              c 2, c 3] state)
            else
              (testAll [isASCII] here).bind fun isAscii ↦
                if isAscii then some (putCharacter toLeft "ASCII".toList 3 [c 0] state)
                else some (.next { state with i := state.i + 1, unconvNum := state.unconvNum + 1 })

/-- A buffer that starts with some bytes. -/
def Extends (inbuf : List UInt8) (longer : ℕ → UInt8) :
    Prop := ∀ i byte, inbuf[i]? = some byte → longer i = byte

/-- The same tests in a buffer without an end. -/
def testAllAt (longer : ℕ → UInt8) : List (UInt8 → Bool) → ℕ → Bool
  | [], _ => true
  | test :: tests, i => test (longer i) && testAllAt longer tests (i + 1)

variable {inbuf : List UInt8} {longer : ℕ → UInt8} {tests : List (UInt8 → Bool)}
  {found : Bool} {i : ℕ}

/-- Tests that end before the end of the buffer find the same in a longer one. -/
theorem testAllAt_eq (h : Extends inbuf longer)
    (htest : testAll tests (inbuf.drop i) = some found) : testAllAt longer tests i = found := by
  induction tests generalizing i with
  | nil =>
    rw [testAll, Option.some.injEq] at htest
    exact htest
  | cons test tests ih =>
    cases hdrop : inbuf.drop i with
    | nil =>
      rw [hdrop, testAll] at htest
      cases htest
    | cons byte bytes =>
      have hbyte : longer i = byte := by
        apply h i byte
        rw [← Nat.add_zero i, ← List.getElem?_drop, hdrop]
        rfl
      have hbytes : inbuf.drop (i + 1) = bytes := by rw [← List.tail_drop, hdrop, List.tail_cons]
      rw [hdrop, testAll] at htest
      rw [testAllAt, hbyte]
      by_cases hheld : test byte = true
      · rw [if_pos hheld, ← hbytes] at htest
        rw [hheld, Bool.true_and, ih htest]
      · rw [if_neg hheld, Option.some.injEq] at htest
        rw [(Bool.not_eq_true _).mp hheld, Bool.false_and, htest]

theorem isgb_of_testAll (h : Extends inbuf longer)
    (htest : testAll isgbTests (inbuf.drop i) = some found) :
    isgb (longer i) (longer (i + 1)) = found := by
  rw [← testAllAt_eq h htest]
  simp only [isgbTests, testAllAt, isgb, Bool.and_true, Bool.and_assoc]

theorem isgb18030_2_of_testAll (h : Extends inbuf longer)
    (htest : testAll isgb18030_2Tests (inbuf.drop i) = some found) :
    isgb18030_2 (longer i) (longer (i + 1)) = found := by
  rw [← testAllAt_eq h htest]
  simp only [isgb18030_2Tests, testAllAt, isgb18030_2, Bool.and_true, Bool.and_assoc]

theorem isgb18030_4_of_testAll (h : Extends inbuf longer)
    (htest : testAll isgb18030_4Tests (inbuf.drop i) = some found) :
    isgb18030_4 (longer i) (longer (i + 1)) (longer (i + 2)) (longer (i + 3)) = found := by
  rw [← testAllAt_eq h htest]
  simp only [isgb18030_4Tests, testAllAt, isgb18030_4, Bool.and_true, Bool.and_assoc]

theorem startsWith_of_testAll (h : Extends inbuf longer) {text : List UInt8}
    (htest : testAll (textTests text) (inbuf.drop i) = some found) :
    startsWith longer i text = found := by
  have hat : ∀ (text : List UInt8) (i : ℕ), testAllAt longer (textTests text) i =
      startsWith longer i text := by
    intro text
    induction text with
    | nil => exact fun i ↦ rfl
    | cons byte text ih => exact fun i ↦ congrArg _ (ih (i + 1))
  rw [← hat, testAllAt_eq h htest]

/-- Tests that hold see as many bytes as there are tests. -/
theorem length_of_testAll {bytes : List UInt8}
    (h : testAll tests bytes = some true) : tests.length ≤ bytes.length := by
  induction tests generalizing bytes with
  | nil => exact Nat.zero_le _
  | cons test tests ih =>
    cases bytes with
    | nil => cases h
    | cons byte bytes =>
      rw [testAll] at h
      by_cases hheld : test byte = true
      · rw [if_pos hheld] at h
        exact Nat.succ_le_succ (ih h)
      · rw [if_neg hheld] at h
        cases h

/-- Where tests hold, the bytes of the buffer are those of a longer one. -/
theorem getD_of_testAll (h : Extends inbuf longer) {i k : ℕ}
    (htest : testAll tests (inbuf.drop i) = some true) (hk : k < tests.length) :
    inbuf.getD (i + k) 0 = longer (i + k) := by
  have hlength := length_of_testAll htest
  rw [List.length_drop] at hlength
  have hget : inbuf[i + k]? = some inbuf[i + k] := List.getElem?_eq_getElem (by omega)
  rw [List.getD_eq_getElem?_getD, hget, h _ _ hget]
  rfl

/-- A turn that looks at nothing behind the end is the one on a longer buffer. -/
theorem mbstoctsTurnIn_refines (h : Extends inbuf longer) {toLeft : ℤ} {state : CTState}
    {turn : Turn}
    (hturn : mbstoctsTurnIn inbuf toLeft state = some turn) :
    mbstoctsTurn longer toLeft state = turn := by
  unfold mbstoctsTurnIn at hturn
  dsimp only at hturn
  obtain ⟨isGb, hgb, hturn⟩ := Option.bind_eq_some_iff.mp hturn
  unfold mbstoctsTurn
  dsimp only
  simp only [Nat.add_zero]
  rw [isgb_of_testAll h hgb]
  by_cases his : isGb = true
  · subst his
    have h0 := getD_of_testAll (k := 0) h hgb (by decide)
    have h1 := getD_of_testAll (k := 1) h hgb (by decide)
    rw [if_pos rfl, Option.some.injEq] at hturn
    rw [if_pos rfl, ← hturn, h0, h1]
    rfl
  rw [if_neg his] at hturn
  obtain ⟨isTwo, htwo, hturn⟩ := Option.bind_eq_some_iff.mp hturn
  rw [if_neg his, isgb18030_2_of_testAll h htwo]
  by_cases his : isTwo = true
  · subst his
    have h0 := getD_of_testAll (k := 0) h htwo (by decide)
    have h1 := getD_of_testAll (k := 1) h htwo (by decide)
    rw [if_pos rfl, Option.some.injEq] at hturn
    rw [if_pos rfl, ← hturn, h0, h1]
    rfl
  rw [if_neg his] at hturn
  obtain ⟨isFour, hfour, hturn⟩ := Option.bind_eq_some_iff.mp hturn
  rw [if_neg his, isgb18030_4_of_testAll h hfour]
  by_cases his : isFour = true
  · subst his
    have hbyte : ∀ k < 4, inbuf.getD (state.i + k) 0 = longer (state.i + k) :=
      fun k hk ↦ getD_of_testAll h hfour hk
    rw [if_pos rfl, Option.some.injEq] at hturn
    rw [if_pos rfl, ← hturn, hbyte 0 (by decide), hbyte 1 (by decide), hbyte 2 (by decide),
      hbyte 3 (by decide)]
    rfl
  rw [if_neg his] at hturn
  obtain ⟨isAscii, hascii, hturn⟩ := Option.bind_eq_some_iff.mp hturn
  have hat := testAllAt_eq h hascii
  rw [testAllAt, testAllAt, Bool.and_true] at hat
  rw [if_neg his, hat]
  by_cases his : isAscii = true
  · subst his
    have h0 := getD_of_testAll (k := 0) h hascii (by decide)
    rw [if_pos rfl, Option.some.injEq] at hturn
    rw [if_pos rfl, ← hturn, h0]
    rfl
  rw [if_neg his, Option.some.injEq] at hturn
  rw [if_neg his, hturn]

theorem extends_getD (inbuf : List UInt8) : Extends inbuf fun i ↦ inbuf.getD i 0 := by
  intro i byte hbyte
  show inbuf.getD i 0 = byte
  rw [List.getD_eq_getElem?_getD, hbyte]
  rfl

theorem lt_of_mbstoctsTurnIn {toLeft : ℤ} {state state' : CTState}
    (h : mbstoctsTurnIn inbuf toLeft state = some (.next state')) : state.i < state'.i :=
  lt_of_mbstoctsTurn (mbstoctsTurnIn_refines (extends_getD inbuf) h)

/-- The loop of `gb18030_mbstocts`. -/
def mbstoctsLoopIn (inbuf : List UInt8) (toLeft : ℤ) (state : CTState) : Outcome CTState :=
  if state.i < inbuf.length ∧ (state.out.length : ℤ) < toLeft then
    match _h : mbstoctsTurnIn inbuf toLeft state with
    | none => .outside
    | some (.next state') => mbstoctsLoopIn inbuf toLeft state'
    | some (.stop state') => .returns state'
    | some .fail => .fails state.out
  else .returns state
termination_by inbuf.length - state.i
decreasing_by
  have hlt := lt_of_mbstoctsTurnIn _h
  omega

/-- `gb18030_mbstocts(conv, from, from_left, to, to_left, args, num_args)`. -/
def mbstoctsIn (inbuf : List UInt8) (toLeft : ℤ) : Outcome Converted :=
  (mbstoctsLoopIn inbuf toLeft ⟨0, [], 0, 0⟩).map fun state ↦
    ⟨state.unconvNum, state.i, state.out, inbuf.length - state.i, toLeft - state.out.length⟩

/-! ### From compound text -/

/-- `get_charset_with_encode_string(s)` over the rest of the table, or none if it looks behind the
end. -/
def getCharsetIn (here : List UInt8) :
    List (CharSetType × List Char × List UInt8) → Option (Option (CharSetType × ℕ))
  | [] => some none
  | entry :: entries =>
    (testAll (textTests entry.2.2) here).bind fun found ↦
      if found then some (some (entry.1, entry.2.2.length)) else getCharsetIn here entries

/-- The character that an inner loop finds, or none if it looks behind the end. -/
def acceptIn (here : List UInt8) (charset : CharSetType) : Option (Option (List UInt8)) :=
  match charset with
  | .ascii => here[0]?.map fun byte ↦ if isPlain byte then some [byte] else none
  | .gb2312 =>
    here[0]?.bind fun byte ↦ here[1]?.map fun byte' ↦
      let first := (byte &&& 0x7f) ||| 0x80
      let second := (byte' &&& 0x7f) ||| 0x80
      if isgb first second then some [first, second] else none
  | .gb18030_0 =>
    (testAll isgb18030_2Tests here).map fun isTwo ↦
      if isTwo then some [here.getD 0 0, here.getD 1 0] else none
  | .gb18030_1 =>
    (testAll isgb18030_4Tests here).map fun isFour ↦
      if isFour then
        some [here.getD 0 0 &&& 0xff, here.getD 1 0 &&& 0xff, here.getD 2 0 &&& 0xff,
          here.getD 3 0 &&& 0xff]
      else none

theorem getCharsetIn_refines (h : Extends inbuf longer) {found : Option (CharSetType × ℕ)}
    (hfound : getCharsetIn (inbuf.drop i) defaultCTData = some found) :
    getCharsetWithEncodeString longer i = found := by
  unfold getCharsetWithEncodeString
  generalize defaultCTData = entries at hfound ⊢
  induction entries with
  | nil => exact Option.some.inj hfound
  | cons entry entries ih =>
    rw [getCharsetIn] at hfound
    obtain ⟨held, htest, hfound⟩ := Option.bind_eq_some_iff.mp hfound
    have hstart := startsWith_of_testAll h htest
    rw [List.find?_cons, hstart]
    by_cases hheld : held = true
    · rw [if_pos hheld, Option.some.injEq] at hfound
      rw [hheld, ← hfound]
      rfl
    · rw [if_neg hheld] at hfound
      rw [(Bool.not_eq_true _).mp hheld]
      exact ih hfound

theorem acceptIn_refines (h : Extends inbuf longer) {charset : CharSetType}
    {found : Option (List UInt8)}
    (hfound : acceptIn (inbuf.drop i) charset = some found) : accept longer i charset = found := by
  have hget : ∀ k byte, (inbuf.drop i)[k]? = some byte → longer (i + k) = byte := by
    intro k byte hbyte
    rw [List.getElem?_drop] at hbyte
    exact h _ _ hbyte
  have hgetD : ∀ k, (inbuf.drop i).getD k 0 = inbuf.getD (i + k) 0 := by
    intro k
    rw [List.getD_eq_getElem?_getD, List.getElem?_drop, List.getD_eq_getElem?_getD]
  cases charset with
  | ascii =>
    obtain ⟨byte, hbyte, hfound⟩ := Option.map_eq_some_iff.mp hfound
    rw [accept, ← hfound, ← hget 0 byte hbyte, Nat.add_zero]
  | gb2312 =>
    obtain ⟨byte, hbyte, hfound⟩ := Option.bind_eq_some_iff.mp hfound
    obtain ⟨byte', hbyte', hfound⟩ := Option.map_eq_some_iff.mp hfound
    rw [accept, ← hfound, ← hget 0 byte hbyte, ← hget 1 byte' hbyte', Nat.add_zero]
    rfl
  | gb18030_0 =>
    obtain ⟨isTwo, htest, hfound⟩ := Option.map_eq_some_iff.mp hfound
    rw [accept, isgb18030_2_of_testAll h htest, ← hfound]
    by_cases his : isTwo = true
    · subst his
      rw [if_pos rfl, if_pos rfl, hgetD, hgetD, getD_of_testAll (k := 0) h htest (by decide),
        getD_of_testAll (k := 1) h htest (by decide)]
      rfl
    · rw [if_neg his, if_neg his]
  | gb18030_1 =>
    obtain ⟨isFour, htest, hfound⟩ := Option.map_eq_some_iff.mp hfound
    rw [accept, isgb18030_4_of_testAll h htest, ← hfound]
    by_cases his : isFour = true
    · subst his
      rw [if_pos rfl, if_pos rfl, hgetD, hgetD, hgetD, hgetD,
        getD_of_testAll (k := 0) h htest (by decide),
        getD_of_testAll (k := 1) h htest (by decide), getD_of_testAll (k := 2) h htest (by decide),
        getD_of_testAll (k := 3) h htest (by decide)]
      rfl
    · rw [if_neg his, if_neg his]

theorem length_pos_of_acceptIn {charset : CharSetType} {bytes : List UInt8}
    (h : acceptIn (inbuf.drop i) charset = some (some bytes)) : 0 < bytes.length :=
  length_pos_of_accept (acceptIn_refines (extends_getD inbuf) h)

theorem length_pos_of_getCharsetIn {i length : ℕ} {charset : CharSetType}
    (h : getCharsetIn (inbuf.drop i) defaultCTData = some (some (charset, length))) : 0 < length :=
  length_pos_of_getCharset (getCharsetIn_refines (extends_getD inbuf) h)

/-- The loops of `gb18030_ctstombs`, or none if they look behind the end. -/
def ctstombsLoopIn (inbuf : List UInt8) (loop : Loop) (state : MBState) : Option MBState :=
  match loop with
  | .outer =>
    match _hbyte : inbuf[state.i]? with
    | some byte =>
      if byte = ESC then
        match _h : getCharsetIn (inbuf.drop state.i) defaultCTData with
        | none => none
        | some (some (charset, length)) =>
          ctstombsLoopIn inbuf (.inner charset) { state with i := state.i + length }
        | some none =>
          ctstombsLoopIn inbuf .outer
            { state with i := state.i + 1, unconvNum := state.unconvNum + 1 }
      else if isPlain byte then
        if state.toLeft < 1 then some state else ctstombsLoopIn inbuf .outer (state.put true [byte])
      else ctstombsLoopIn inbuf .outer
        { state with i := state.i + 1, unconvNum := state.unconvNum + 1 }
    | none => some state
  | .inner charset =>
    if inbuf.length ≤ state.i then some state
    else
      match _h : acceptIn (inbuf.drop state.i) charset with
      | none => none
      | some (some bytes) =>
        if state.toLeft < bytes.length ∨ inbuf.length < bytes.length then some state
        else ctstombsLoopIn inbuf (.inner charset) (state.put true bytes)
      | some none => ctstombsLoopIn inbuf .outer state
termination_by 2 * (inbuf.length - state.i) + match loop with
  | .outer => 0
  | .inner _ => 1
decreasing_by
  · have hlt := (List.getElem?_eq_some_iff.mp _hbyte).1
    have hlength := length_pos_of_getCharsetIn _h
    omega
  · have hlt := (List.getElem?_eq_some_iff.mp _hbyte).1
    omega
  · have hlt := (List.getElem?_eq_some_iff.mp _hbyte).1
    dsimp only [MBState.put, List.length_cons, List.length_nil]
    omega
  · have hlt := (List.getElem?_eq_some_iff.mp _hbyte).1
    omega
  · have hlength := length_pos_of_acceptIn _h
    dsimp only [MBState.put]
    omega
  · exact Nat.lt_succ_self _

/-- `gb18030_ctstombs(conv, from, from_left, to, to_left, args, num_args)`. -/
def ctstombsIn (inbuf : List UInt8) (toLeft : ℤ) : Outcome Converted :=
  match ctstombsLoopIn inbuf .outer ⟨0, [], toLeft, 0⟩ with
  | none => .outside
  | some state =>
    .returns ⟨state.unconvNum, state.i, state.out,
      if state.i ≥ inbuf.length then 0 else (inbuf.length : ℤ) - state.i, state.toLeft⟩

end Userland.X11.GB18030
