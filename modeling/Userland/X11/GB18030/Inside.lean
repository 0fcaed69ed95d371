import Userland.X11.GB18030.CompoundBuffers
import Userland.X11.GB18030.RoundTrip

/-!
# Converters inside their buffers

The converters of `modules/lc/gb18030/lcGB18030.c` tell what a character is before they ask how many
bytes there are, so a character that is cut off at the end of the input makes them look behind it
(`cut`).
-/

set_option autoImplicit false
set_option relaxedAutoImplicit false

namespace Userland.X11.GB18030

/-- A call looks at no byte behind its input, writes no more bytes than there is room for, and if it
returns a count, it accounts for both buffers. -/
def StaysInside (inbuf : List UInt8) (toLeft : ℤ) : Outcome Converted → Prop
  | .outside => False
  | .fails written => (written.length : ℤ) ≤ toLeft
  | .returns result =>
    (result.written.length : ℤ) ≤ toLeft ∧ 0 ≤ result.fromLeft ∧
      result.read + result.fromLeft = inbuf.length ∧ result.written.length + result.toLeft = toLeft

/-! ### Characters that are cut off -/

def isLead (s : UInt8) : Bool := s ≥ 0x81 && s ≤ 0xfe

def isDigit (s : UInt8) : Bool := s ≥ 0x30 && s ≤ 0x39

/-- The bytes end before it is clear which character they start with. -/
def cut : List UInt8 → Bool
  | [] => true
  | [a] => isLead a
  | [a, b] => isLead a && isDigit b
  | [a, b, c] => isLead a && isDigit b && isLead c
  | _ => false

/-- The second byte of a two-byte code. -/
def isTrail (s : UInt8) : Bool := s ≥ 0x40 && s ≤ 0x7e || s ≥ 0x80 && s ≤ 0xfe

theorem isgb18030_2Tests_eq : isgb18030_2Tests = [isLead, isTrail] := rfl

theorem isgb18030_4Tests_eq : isgb18030_4Tests = [isLead, isDigit, isLead, isDigit] := rfl

theorem isTrail_of_isDigit {s : UInt8} (h : isDigit s = true) : isTrail s = false := by
  simp only [isDigit, isTrail] at h ⊢
  grind

theorem isASCII_of_isLead {s : UInt8} (h : isLead s = true) : isASCII s = false := by
  simp only [isLead, isASCII] at h ⊢
  grind

/-- The tests look behind the end where a character is cut off. -/
theorem kindOf_eq_none_iff (src : List UInt8) : kindOf src = none ↔ cut src = true := by
  unfold kindOf
  rw [isgb18030_2Tests_eq, isgb18030_4Tests_eq]
  match src with
  | [] => simp [testAll, cut]
  | [a] =>
    cases ha : isLead a with
    | true => simp [testAll, cut, ha]
    | false => cases hascii : isASCII a <;> simp [testAll, cut, ha, hascii]
  | [a, b] =>
    cases ha : isLead a with
    | true =>
      cases hb : isDigit b with
      | true => simp [testAll, cut, ha, hb, isTrail_of_isDigit hb]
      | false => cases htrail : isTrail b <;>
        simp [testAll, cut, ha, hb, htrail, isASCII_of_isLead ha]
    | false => cases hascii : isASCII a <;> simp [testAll, cut, ha, hascii]
  | [a, b, c] =>
    cases ha : isLead a with
    | true =>
      cases hb : isDigit b with
      | true => cases hc : isLead c <;> simp [testAll, cut, ha, hb, hc, isTrail_of_isDigit hb,
        isASCII_of_isLead ha]
      | false => cases htrail : isTrail b <;>
        simp [testAll, cut, ha, hb, htrail, isASCII_of_isLead ha]
    | false => cases hascii : isASCII a <;> simp [testAll, cut, ha, hascii]
  | a :: b :: c :: d :: rest =>
    simp only [testAll, cut]
    grind

variable {src : List UInt8}

theorem width_le_of_kindOf {kind : Kind} (h : kindOf src = some kind) :
    kind.width ≤ src.length := by
  unfold kindOf at h
  obtain ⟨isTwo, htwo, h⟩ := Option.bind_eq_some_iff.mp h
  cases isTwo with
  | true =>
    rw [if_pos rfl, Option.some.injEq] at h
    rw [← h]
    exact length_of_testAll htwo
  | false =>
    rw [if_neg Bool.false_ne_true] at h
    obtain ⟨isFour, hfour, h⟩ := Option.bind_eq_some_iff.mp h
    cases isFour with
    | true =>
      rw [if_pos rfl, Option.some.injEq] at h
      rw [← h]
      exact length_of_testAll hfour
    | false =>
      rw [if_neg Bool.false_ne_true] at h
      obtain ⟨isAscii, hascii, h⟩ := Option.bind_eq_some_iff.mp h
      have hpos : 1 ≤ src.length := by
        cases src with
        | nil => cases hascii
        | cons byte src => exact Nat.succ_pos _
      cases isAscii with
      | true | false =>
        obtain rfl := Option.some.inj h
        exact hpos

theorem width_pos (kind : Kind) : 0 < kind.width := by
  cases kind <;> decide

theorem length_convert {kind : Kind} (h : kind.width ≤ src.length) :
    (kind.convert src).length = kind.size := by
  cases kind with
  | two =>
    match src, h with
    | _ :: _ :: _, _ => rfl
  | four =>
    match src, h with
    | _ :: _ :: _ :: _ :: _, _ => rfl
  | ascii =>
    match src, h with
    | _ :: _, _ => rfl
  | unknown => cases src <;> rfl

/-! ### Single characters -/

theorem mbtocs_inside (locale : Locale) (inbuf : List UInt8) (toLeft : ℤ) (htoLeft : 0 ≤ toLeft) :
    StaysInside inbuf toLeft ((mbtocs locale.lcd inbuf toLeft).map Segment.toConverted) ↔
    cut inbuf = false := by
  have hthree := locale.three_le
  have hfails : (([] : List UInt8).length : ℤ) ≤ toLeft := htoLeft
  cases hkind : kindOf inbuf with
  | none =>
    rw [(kindOf_eq_none_iff inbuf).mp hkind, mbtocs, hkind]
    exact iff_of_false id Bool.true_eq_false.mp
  | some kind =>
    have hcut : cut inbuf = false := by
      rw [← Bool.not_eq_true, ← kindOf_eq_none_iff, hkind]
      exact Option.some_ne_none kind
    have hwidth := width_le_of_kindOf hkind
    have hconvert := length_convert hwidth
    refine iff_of_true ?_ hcut
    unfold mbtocs
    rw [hkind]
    cases kind with
    | two =>
      have hcharset : locale.lcd.cs1 = some (locale.charset .two) :=
        locale.charset_eq .two Kind.noConfusion
      have hsize := locale.charSize_eq .two Kind.noConfusion
      dsimp only
      rw [if_neg (by omega), hcharset]
      dsimp only
      simp only [Kind.size, Kind.width] at hsize hwidth hconvert
      rw [hsize]
      split_ifs with hroom
      · refine ⟨?_, ?_, ?_, ?_⟩ <;> simp only [hconvert] <;> omega
      · exact hfails
    | four =>
      have hcharset : locale.lcd.cs2 = some (locale.charset .four) :=
        locale.charset_eq .four Kind.noConfusion
      have hsize := locale.charSize_eq .four Kind.noConfusion
      dsimp only
      rw [if_neg (by omega), hcharset]
      dsimp only
      simp only [Kind.size, Kind.width] at hsize hwidth hconvert
      rw [hsize]
      split_ifs with hroom
      · refine ⟨?_, ?_, ?_, ?_⟩ <;> simp only [hconvert] <;> omega
      · exact hfails
    | ascii =>
      have hcharset : locale.lcd.cs0 = some (locale.charset .ascii) :=
        locale.charset_eq .ascii Kind.noConfusion
      have hsize := locale.charSize_eq .ascii Kind.noConfusion
      dsimp only
      rw [if_neg (by omega), hcharset]
      dsimp only
      simp only [Kind.size, Kind.width] at hsize hwidth hconvert
      rw [hsize]
      split_ifs with hroom
      · refine ⟨?_, ?_, ?_, ?_⟩ <;> simp only [hconvert] <;> omega
      · exact hfails
    | unknown =>
      simp only [Kind.width] at hwidth
      refine ⟨htoLeft, ?_, ?_, ?_⟩ <;> simp only [List.length_nil] <;> omega

/-! ### Runs of characters -/

/-- The bytes from which `gb18030_mbstocs` goes on with a flag: up to the end, or up to a character
of another kind, no character is cut off. -/
inductive WholeRun : ℕ → List UInt8 → Prop
  | other {flag : ℕ} {src : List UInt8} {kind : Kind} (hkind : kindOf src = some kind)
  (hknown : kind ≠ .unknown)
      (hother : flag ≠ 0 ∧ flag ≠ kind.flag) : WholeRun flag src
  | same {flag : ℕ} {src : List UInt8} {kind : Kind} (hkind : kindOf src = some kind)
      (hknown : kind ≠ .unknown)
      (hsame : ¬ (flag ≠ 0 ∧ flag ≠ kind.flag))
      (hrest : src.drop kind.width ≠ [] → WholeRun kind.flag (src.drop kind.width)) :
        WholeRun flag src
  | unknown {flag : ℕ} {src : List UInt8} (hkind : kindOf src = some .unknown)
      (hrest : src.drop 1 ≠ [] → WholeRun flag (src.drop 1)) : WholeRun flag src

/-- The variables of `gb18030_mbstocs` account for its buffers. -/
structure Accounts (inbuf : List UInt8) (toLeft : ℤ) (state : CSState) : Prop where
  flag_le : state.flag ≤ 3
  fromLeft_eq : state.fromLeft = state.src.length
  src_le : state.src.length ≤ inbuf.length
  toLeft_nonneg : 0 ≤ state.toLeft
  toLeft_eq : state.written.length + state.toLeft = toLeft

variable {inbuf : List UInt8} {toLeft : ℤ} {state : CSState}

theorem Accounts.settle (h : Accounts inbuf toLeft state) (kind : Kind) (charset : CharSet) :
    Accounts inbuf toLeft (state.settle kind charset) :=
  ⟨kind.flag_le, h.fromLeft_eq, h.src_le, h.toLeft_nonneg, h.toLeft_eq⟩

theorem Accounts.take (h : Accounts inbuf toLeft state) {kind : Kind}
    (hkind : kindOf state.src = some kind)
    (hroom : state.toLeft ≥ kind.size) : Accounts inbuf toLeft (state.take kind) := by
  have hwidth := width_le_of_kindOf hkind
  have hconvert := length_convert hwidth
  have hfromLeft := h.fromLeft_eq
  have hsrc := h.src_le
  have htoLeft := h.toLeft_eq
  refine ⟨h.flag_le, ?_, ?_, ?_, ?_⟩
  · simp only [CSState.take, List.length_drop]
    omega
  · simp only [CSState.take, List.length_drop]
    omega
  · simp only [CSState.take]
    omega
  · simp only [CSState.take, List.length_append, hconvert]
    omega

theorem Accounts.skip (h : Accounts inbuf toLeft state) (hkind : kindOf state.src = some .unknown) :
    Accounts inbuf toLeft state.skip := by
  have hwidth := width_le_of_kindOf hkind
  have hfromLeft := h.fromLeft_eq
  have hsrc := h.src_le
  simp only [Kind.width] at hwidth
  refine ⟨h.flag_le, ?_, ?_, h.toLeft_nonneg, h.toLeft_eq⟩
  · simp only [CSState.skip, List.length_drop]
    omega
  · simp only [CSState.skip, List.length_drop]
    omega

theorem endTurn_of_nil (h : Accounts inbuf toLeft state) (hend : state.src = []) :
    state.endTurn = .stop state := by
  have hfromLeft := h.fromLeft_eq
  rw [hend] at hfromLeft
  exact if_pos (Int.le_of_eq hfromLeft)

theorem endTurn_of_ne_nil (h : Accounts inbuf toLeft state) (hend : state.src ≠ []) :
    state.endTurn = .next state := by
  have hpos := List.length_pos_of_ne_nil hend
  have hfromLeft := h.fromLeft_eq
  rw [CSState.endTurn, if_neg (by omega)]

/-- What `gb18030_mbstocs` makes of the last variables of its loop. -/
def finish (inbuf : List UInt8) (state : CSState) : Segment :=
  ⟨⟨state.unconvNum, inbuf.length - state.src.length, state.written, state.fromLeft, state.toLeft⟩,
    state.charset⟩

theorem staysInside_finish (h : Accounts inbuf toLeft state) :
    StaysInside inbuf toLeft (.returns (finish inbuf state).toConverted) := by
  have hfromLeft := h.fromLeft_eq
  have hsrc := h.src_le
  have hnonneg := h.toLeft_nonneg
  have htoLeft := h.toLeft_eq
  refine ⟨?_, ?_, ?_, htoLeft⟩ <;> simp only [finish] <;> omega

/-- The loop of `gb18030_mbstocs`, and what comes of it. -/
def mbstocsFrom (lcd : LCD) (inbuf : List UInt8) (state : CSState) : Outcome Converted :=
  ((mbstocsLoop lcd state).map (finish inbuf)).map Segment.toConverted

theorem mbstocsFrom_stop {lcd : LCD} {state' : CSState} (h : mbstocsTurn lcd state = .stop state') :
    mbstocsFrom lcd inbuf state = .returns (finish inbuf state').toConverted := by
  rw [mbstocsFrom, mbstocsLoop, h]
  rfl

theorem mbstocsFrom_fail {lcd : LCD} {written : List UInt8}
    (h : mbstocsTurn lcd state = .fail written) :
    mbstocsFrom lcd inbuf state = .fails written := by
  rw [mbstocsFrom, mbstocsLoop, h]
  rfl

theorem mbstocsFrom_next {lcd : LCD} {state' : CSState} (h : mbstocsTurn lcd state = .next state') :
    mbstocsFrom lcd inbuf state = mbstocsFrom lcd inbuf state' := by
  rw [mbstocsFrom, mbstocsLoop, h]
  rfl

/-- Where no character is cut off, the loop stays inside its buffers. -/
theorem mbstocsFrom_inside (locale : Locale) {flag : ℕ} (hrun : WholeRun flag src)
    (hflag : state.flag = flag) (hsrc : state.src = src) (h : Accounts inbuf toLeft state) :
    StaysInside inbuf toLeft (mbstocsFrom locale.lcd inbuf state) := by
  induction hrun generalizing state with
  | other hkind hknown hother =>
    rw [← hsrc] at hkind
    rw [← hflag] at hother
    have hturn := mbstocsTurn_eq locale hkind hknown h.flag_le
    rw [if_pos hother] at hturn
    rw [mbstocsFrom_stop hturn]
    exact staysInside_finish h
  | @same flag src kind hkind hknown hsame hrest ih =>
    rw [← hsrc] at hkind hrest ih
    rw [← hflag] at hsame
    have hturn := mbstocsTurn_eq locale hkind hknown h.flag_le
    have hwidth := width_le_of_kindOf hkind
    have hfromLeft := h.fromLeft_eq
    have hsettled := h.settle kind (locale.charset kind)
    rw [if_neg hsame] at hturn
    split_ifs at hturn with hroom hascii
    · have htaken := hsettled.take hkind hroom.2
      by_cases hend : ((state.settle kind (locale.charset kind)).take kind).src = []
      · rw [endTurn_of_nil htaken hend] at hturn
        rw [mbstocsFrom_stop hturn]
        exact staysInside_finish htaken
      · rw [endTurn_of_ne_nil htaken hend] at hturn
        rw [mbstocsFrom_next hturn]
        exact ih hend rfl rfl htaken
    · rw [mbstocsFrom_stop hturn]
      exact staysInside_finish hsettled
    · rw [mbstocsFrom_fail hturn]
      have hnonneg := h.toLeft_nonneg
      have htoLeft := h.toLeft_eq
      show (state.written.length : ℤ) ≤ toLeft
      omega
  | unknown hkind hrest ih =>
    rw [← hsrc] at hkind hrest ih
    have hturn : mbstocsTurn locale.lcd state = _ := mbstocsTurn_unknown hkind
    have hskipped := h.skip hkind
    by_cases hend : state.skip.src = []
    · rw [endTurn_of_nil hskipped hend] at hturn
      rw [mbstocsFrom_stop hturn]
      exact staysInside_finish hskipped
    · rw [endTurn_of_ne_nil hskipped hend] at hturn
      rw [mbstocsFrom_next hturn]
      exact ih hend hflag rfl hskipped

/-- With room for all that is left, the loop looks at every character up to the end or up to one of
another kind. -/
theorem wholeRun_of_inside (locale : Locale) (h : Accounts inbuf toLeft state)
    (hroom : state.toLeft ≥ state.src.length)
    (hinside : mbstocsFrom locale.lcd inbuf state ≠ .outside) : WholeRun state.flag state.src := by
  induction hlength : state.src.length using Nat.strongRecOn generalizing state with
  | ind length ih =>
    cases hkind : kindOf state.src with
    | none =>
      have hturn : mbstocsTurn locale.lcd state = .outside := by
        rw [mbstocsTurn, hkind]
      refine absurd ?_ hinside
      rw [mbstocsFrom, mbstocsLoop, hturn]
      rfl
    | some kind =>
      have hwidth := width_le_of_kindOf hkind
      have hpos := width_pos kind
      have hsize : kind.size ≤ kind.width := by cases kind <;> decide
      have hfromLeft := h.fromLeft_eq
      have hdrop : (state.src.drop kind.width).length = state.src.length - kind.width :=
        List.length_drop
      by_cases hknown : kind = .unknown
      · subst hknown
        have hturn : mbstocsTurn locale.lcd state = _ := mbstocsTurn_unknown hkind
        have hskipped := h.skip hkind
        refine WholeRun.unknown hkind fun hend ↦ ?_
        rw [endTurn_of_ne_nil hskipped hend] at hturn
        rw [mbstocsFrom_next hturn] at hinside
        simp only [Kind.width] at hdrop
        refine ih _ ?_ hskipped ?_ hinside rfl
        · simp only [CSState.skip]
          omega
        · simp only [CSState.skip]
          omega
      · have hturn := mbstocsTurn_eq locale hkind hknown h.flag_le
        by_cases hother : state.flag ≠ 0 ∧ state.flag ≠ kind.flag
        · exact .other hkind hknown hother
        · refine .same hkind hknown hother fun hend ↦ ?_
          have htaken := (h.settle kind (locale.charset kind)).take hkind
            (show state.toLeft ≥ kind.size by omega)
          rw [if_neg hother, if_pos (by omega), endTurn_of_ne_nil htaken hend] at hturn
          rw [mbstocsFrom_next hturn] at hinside
          refine ih _ ?_ htaken ?_ hinside rfl
          · simp only [CSState.take, CSState.settle]
            omega
          · simp only [CSState.take, CSState.settle]
            omega

theorem accounts_start (inbuf : List UInt8) {toLeft : ℤ} (htoLeft : 0 ≤ toLeft) :
    Accounts inbuf toLeft ⟨inbuf, inbuf.length, [], toLeft, 0, 0, none⟩ :=
  ⟨Nat.zero_le _, rfl, Nat.le_refl _, htoLeft, Int.zero_add _⟩

theorem mbstocs_inside (locale : Locale) (inbuf : List UInt8) :
    (∀ toLeft : ℤ, 0 ≤ toLeft →
      StaysInside inbuf toLeft ((mbstocs locale.lcd inbuf toLeft).map Segment.toConverted)) ↔
      WholeRun 0 inbuf := by
  constructor
  · intro h
    have hlength : (0 : ℤ) ≤ inbuf.length := Int.natCast_nonneg _
    refine wholeRun_of_inside locale (accounts_start inbuf hlength) (Int.le_refl _) fun houtside ↦
      ?_
    have hinside : StaysInside inbuf inbuf.length (mbstocsFrom locale.lcd inbuf _) :=
      h inbuf.length hlength
    rw [houtside] at hinside
    exact hinside
  · intro hrun toLeft htoLeft
    exact mbstocsFrom_inside locale hrun rfl rfl (accounts_start inbuf htoLeft)

/-! ### Whole strings -/

/-- No character is cut off at the end of the bytes. -/
inductive Whole : List UInt8 → Prop
  | nil : Whole []
  | cons {src : List UInt8} {kind : Kind} (hkind : kindOf src = some kind)
      (hrest : Whole (src.drop kind.width)) : Whole src

theorem isgb_of_testAll_none {here : List UInt8} (h : testAll isgbTests here = none) :
    kindOf here = none := by
  rw [kindOf_eq_none_iff]
  match here with
  | [] => rfl
  | [a] =>
    simp only [isgbTests, testAll] at h
    simp only [cut, isLead]
    grind
  | a :: b :: rest =>
    simp only [isgbTests, testAll] at h
    grind

theorem kindOf_of_isgb {here : List UInt8} (h : testAll isgbTests here = some true) :
    kindOf here = some .two := by
  match here with
  | [] => cases h
  | [a] =>
    simp only [isgbTests, testAll] at h
    grind
  | a :: b :: rest =>
    have htwo : testAll isgb18030_2Tests (a :: b :: rest) = some true := by
      simp only [isgbTests, testAll] at h
      simp only [isgb18030_2Tests, testAll]
      grind
    rw [kindOf, htwo]
    rfl

/-- What a turn of the loop of `gb18030_mbstocts` does, by the kind of character that it finds. -/
inductive TurnsTo (toLeft : ℤ) (state : CTState) : Option Kind → Option Turn → Prop
  | outside : TurnsTo toLeft state none none
  | unknown : TurnsTo toLeft state (some .unknown)
      (some (.next { state with i := state.i + 1, unconvNum := state.unconvNum + 1 }))
  | character {kind : Kind} (charset : CharSetType) (bytes : List UInt8)
      (hlength : bytes.length = kind.width) :
      TurnsTo toLeft state (some kind)
        (some (putCharacter toLeft charset.name charset.flag bytes state))

theorem turnsTo (inbuf : List UInt8) (toLeft : ℤ) (state : CTState) :
    TurnsTo toLeft state (kindOf (inbuf.drop state.i)) (mbstoctsTurnIn inbuf toLeft state) := by
  unfold mbstoctsTurnIn
  dsimp only
  cases hgb : testAll isgbTests (inbuf.drop state.i) with
  | none =>
    rw [isgb_of_testAll_none hgb]
    exact .outside
  | some isGb =>
    cases isGb with
    | true =>
      rw [kindOf_of_isgb hgb]
      exact .character .gb2312 _ rfl
    | false =>
      unfold kindOf
      cases htwo : testAll isgb18030_2Tests (inbuf.drop state.i) with
      | none => exact .outside
      | some isTwo =>
        cases isTwo with
        | true => exact .character .gb18030_0 _ rfl
        | false =>
          cases hfour : testAll isgb18030_4Tests (inbuf.drop state.i) with
          | none => exact .outside
          | some isFour =>
            cases isFour with
            | true => exact .character .gb18030_1 _ rfl
            | false =>
              cases hascii : testAll [isASCII] (inbuf.drop state.i) with
              | none => exact .outside
              | some isAscii =>
                cases isAscii with
                | true => exact .character .ascii _ rfl
                | false => exact .unknown

/-- What `gb18030_mbstocts` makes of the last variables of its loop. -/
def finishText (inbuf : List UInt8) (toLeft : ℤ) (state : CTState) : Converted :=
  ⟨state.unconvNum, state.i, state.out, inbuf.length - state.i, toLeft - state.out.length⟩

/-- The loop of `gb18030_mbstocts` has not left its buffers. -/
structure Inside (inbuf : List UInt8) (toLeft : ℤ) (state : CTState) : Prop where
  i_le : state.i ≤ inbuf.length
  out_le : (state.out.length : ℤ) ≤ toLeft
  flag_eq : ∃ current, state.flag = flagOf current

variable {text : CTState}

theorem staysInside_finishText (h : Inside inbuf toLeft text) :
    StaysInside inbuf toLeft (.returns (finishText inbuf toLeft text)) := by
  have hi := h.i_le
  have hout := h.out_le
  refine ⟨hout, ?_, ?_, ?_⟩ <;> simp only [finishText] <;> omega

/-- A character is taken, or there is no room for it. -/
theorem Inside.putCharacter (h : Inside inbuf toLeft text) {kind : Kind}
    (hkind : kindOf (inbuf.drop text.i) = some kind) (charset : CharSetType) {bytes : List UInt8}
    (hlength : bytes.length = kind.width) :
    (∃ next, putCharacter toLeft charset.name charset.flag bytes text = .next next ∧
      next.i = text.i + kind.width ∧ next.out.length ≤ text.out.length + 23 ∧
      Inside inbuf toLeft next) ∨
    (putCharacter toLeft charset.name charset.flag bytes text = .stop text ∧
      toLeft ≤ text.out.length + 23) := by
  obtain ⟨current, hflag⟩ := h.flag_eq
  have hwidth := width_le_of_kindOf hkind
  have hi := h.i_le
  have hdesignation : (designation current charset).length ≤ 19 := by
    unfold designation
    split_ifs
    · exact Nat.zero_le _
    · cases charset <;> decide
  have hfour : kind.width ≤ 4 := by cases kind <;> decide
  rw [List.length_drop] at hwidth
  rw [putCharacter_eq toLeft charset bytes text current hflag]
  split_ifs with hfull
  · exact Or.inr ⟨rfl, by omega⟩
  · refine Or.inl ⟨_, rfl, by rw [hlength], ?_, ?_, ?_, some charset, rfl⟩
    · simp only [List.length_append]
      omega
    · simp only [hlength]
      omega
    · simp only [List.length_append]
      omega

/-- The loop of `gb18030_mbstocts`, and what comes of it. -/
def mbstoctsFrom (inbuf : List UInt8) (toLeft : ℤ) (state : CTState) : Outcome Converted :=
  (mbstoctsLoopIn inbuf toLeft state).map (finishText inbuf toLeft)

theorem mbstoctsFrom_end (hend : ¬ (text.i < inbuf.length ∧ (text.out.length : ℤ) < toLeft)) :
    mbstoctsFrom inbuf toLeft text = .returns (finishText inbuf toLeft text) := by
  rw [mbstoctsFrom, mbstoctsLoopIn, if_neg hend]
  rfl

theorem mbstoctsFrom_turn (hroom : text.i < inbuf.length ∧ (text.out.length : ℤ) < toLeft)
    {turn : Turn}
    (hturn : mbstoctsTurnIn inbuf toLeft text = some turn) {outcome : Outcome Converted}
    (hnext : ∀ next, turn = .next next → mbstoctsFrom inbuf toLeft next = outcome)
    (hstop : ∀ last, turn = .stop last → .returns (finishText inbuf toLeft last) = outcome)
    (hfail : turn ≠ .fail) :
    mbstoctsFrom inbuf toLeft text = outcome := by
  rw [mbstoctsFrom, mbstoctsLoopIn, if_pos hroom, hturn]
  cases turn with
  | next next => exact hnext next rfl
  | stop last => exact hstop last rfl
  | fail => exact absurd rfl hfail

theorem Inside.skip (h : Inside inbuf toLeft text) (hroom : text.i < inbuf.length) :
    Inside inbuf toLeft { text with i := text.i + 1, unconvNum := text.unconvNum + 1 } :=
  ⟨hroom, h.out_le, h.flag_eq⟩

/-- Where no character is cut off, the loop stays inside its buffers. -/
theorem mbstoctsFrom_inside (hwhole : Whole src) (hsrc : inbuf.drop text.i = src)
    (h : Inside inbuf toLeft text) : StaysInside inbuf toLeft (mbstoctsFrom inbuf toLeft text) := by
  induction hwhole generalizing text with
  | nil =>
    have hend := List.drop_eq_nil_iff.mp hsrc
    rw [mbstoctsFrom_end (by omega)]
    exact staysInside_finishText h
  | @cons src kind hkind hrest ih =>
    by_cases hroom : text.i < inbuf.length ∧ (text.out.length : ℤ) < toLeft
    · have hturns := turnsTo inbuf toLeft text
      rw [← hsrc] at hkind ih
      rw [hkind] at hturns
      generalize hturn : mbstoctsTurnIn inbuf toLeft text = turn at hturns
      cases hturns with
      | unknown =>
        rw [mbstoctsFrom_turn hroom hturn (fun next hnext ↦ congrArg _ (Turn.next.inj hnext).symm)
          (by simp) (by simp)]
        exact ih List.drop_drop.symm (h.skip hroom.1)
      | character charset bytes hlength =>
        obtain ⟨next, hnext, hi, -, hinside⟩ | ⟨hstop, -⟩ := h.putCharacter hkind charset hlength
        · rw [hnext] at hturn
          rw [mbstoctsFrom_turn hroom hturn (fun next' hnext' ↦
            congrArg _ (Turn.next.inj hnext').symm) (by simp)
            (by simp)]
          refine ih ?_ hinside
          rw [hi, List.drop_drop]
        · rw [hstop] at hturn
          rw [mbstoctsFrom_turn hroom hturn (by simp)
            (fun last hlast ↦ congrArg (fun last ↦ Outcome.returns (finishText inbuf toLeft last))
              (Turn.stop.inj hlast).symm) (by simp)]
          exact staysInside_finishText h
    · rw [mbstoctsFrom_end hroom]
      exact staysInside_finishText h

/-- With room for all that is left, the loop looks at every character up to the end. -/
theorem whole_of_inside (h : Inside inbuf toLeft text)
    (hroom : text.out.length + 23 * (inbuf.length - text.i) < toLeft)
    (hinside : mbstoctsFrom inbuf toLeft text ≠ .outside) : Whole (inbuf.drop text.i) := by
  induction hleft : inbuf.length - text.i using Nat.strongRecOn generalizing text with
  | ind left ih =>
    have hi := h.i_le
    by_cases hend : text.i = inbuf.length
    · rw [hend, List.drop_length]
      exact .nil
    · have hloop : text.i < inbuf.length ∧ (text.out.length : ℤ) < toLeft := by omega
      have hturns := turnsTo inbuf toLeft text
      cases hkind : kindOf (inbuf.drop text.i) with
      | none =>
        rw [hkind] at hturns
        generalize hturn : mbstoctsTurnIn inbuf toLeft text = turn at hturns
        cases hturns
        refine absurd ?_ hinside
        rw [mbstoctsFrom, mbstoctsLoopIn, if_pos hloop, hturn]
        rfl
      | some kind =>
        have hpos := width_pos kind
        have hwidth := width_le_of_kindOf hkind
        rw [List.length_drop] at hwidth
        refine .cons hkind ?_
        rw [List.drop_drop]
        rw [hkind] at hturns
        generalize hturn : mbstoctsTurnIn inbuf toLeft text = turn at hturns
        cases hturns with
        | unknown =>
          rw [mbstoctsFrom_turn hloop hturn (fun next hnext ↦ congrArg _ (Turn.next.inj hnext).symm)
            (by simp) (by simp)]
            at hinside
          refine ih _ ?_ (h.skip hloop.1) ?_ hinside rfl
          · dsimp only
            omega
          · dsimp only
            omega
        | character charset bytes hlength =>
          obtain ⟨next, hnext, hi, hout, hinside'⟩ | ⟨-, hfull⟩ :=
            h.putCharacter hkind charset hlength
          · rw [hnext] at hturn
            rw [mbstoctsFrom_turn hloop hturn (fun next' hnext' ↦
              congrArg _ (Turn.next.inj hnext').symm) (by simp)
              (by simp)] at hinside
            rw [← hi]
            exact ih _ (by omega) hinside' (by omega) hinside rfl
          · omega

theorem mbstocts_inside (inbuf : List UInt8) :
    (∀ toLeft : ℤ, 0 ≤ toLeft → StaysInside inbuf toLeft (mbstoctsIn inbuf toLeft)) ↔
    Whole inbuf := by
  have hstart : ∀ toLeft : ℤ, 0 ≤ toLeft → Inside inbuf toLeft ⟨0, [], 0, 0⟩ :=
    fun toLeft htoLeft ↦ ⟨Nat.zero_le _, htoLeft, none, rfl⟩
  constructor
  · intro h
    have hroom : (0 : ℤ) ≤ 23 * inbuf.length + 1 := by omega
    refine whole_of_inside (hstart _ hroom) ?_ fun houtside ↦ ?_
    · simp only [List.length_nil]
      omega
    · have hinside : StaysInside inbuf _ (mbstoctsFrom inbuf _ _) := h _ hroom
      rw [houtside] at hinside
      exact hinside
  · intro hwhole toLeft htoLeft
    exact mbstoctsFrom_inside hwhole List.drop_zero (hstart toLeft htoLeft)

/-! ### Compound text -/

/-- The bytes from which a loop of `gb18030_ctstombs` goes on: neither a designation nor a character
is cut off. -/
inductive WholeText : Loop → List UInt8 → Prop
  | nil {loop : Loop} : WholeText loop []
  | designation {src : List UInt8} {charset : CharSetType} {length : ℕ}
      (hcharset : getCharsetIn (ESC :: src) defaultCTData = some (some (charset, length)))
      (hrest : WholeText (.inner charset) ((ESC :: src).drop length)) :
        WholeText .outer (ESC :: src)
  | escape {src : List UInt8} (hcharset : getCharsetIn (ESC :: src) defaultCTData = some none)
      (hrest : WholeText .outer src) : WholeText .outer (ESC :: src)
  | byte {byte : UInt8} {src : List UInt8} (hbyte : byte ≠ ESC) (hrest : WholeText .outer src) :
      WholeText .outer (byte :: src)
  | character {charset : CharSetType} {src bytes : List UInt8}
      (hbytes : acceptIn src charset = some (some bytes))
      (hrest : WholeText (.inner charset) (src.drop bytes.length)) : WholeText (.inner charset) src
  | leave {charset : CharSetType} {src : List UInt8} (hbytes : acceptIn src charset = some none)
      (hrest : WholeText .outer src) : WholeText (.inner charset) src

/-- The loops of `gb18030_ctstombs` have not left their buffers. -/
structure InsideText (inbuf : List UInt8) (toLeft : ℤ) (state : MBState) : Prop where
  i_le : state.i ≤ inbuf.length
  toLeft_nonneg : 0 ≤ state.toLeft
  toLeft_eq : state.out.length + state.toLeft = toLeft

theorem length_of_getCharsetIn {here : List UInt8} {charset : CharSetType} {length : ℕ}
    (h : getCharsetIn here defaultCTData = some (some (charset, length))) :
    length ≤ here.length := by
  generalize defaultCTData = entries at h
  induction entries with
  | nil => cases h
  | cons entry entries ih =>
    rw [getCharsetIn] at h
    obtain ⟨found, htest, h⟩ := Option.bind_eq_some_iff.mp h
    cases found with
    | true =>
      rw [if_pos rfl, Option.some.injEq, Option.some.injEq, Prod.mk.injEq] at h
      rw [← h.2]
      simpa only [textTests, List.length_map] using length_of_testAll htest
    | false => exact ih h

theorem length_of_acceptIn {here bytes : List UInt8} {charset : CharSetType}
    (h : acceptIn here charset = some (some bytes)) : bytes.length ≤ here.length := by
  cases charset with
  | ascii =>
    obtain ⟨byte, hbyte, h⟩ := Option.map_eq_some_iff.mp h
    have hlt := (List.getElem?_eq_some_iff.mp hbyte).1
    split_ifs at h
    obtain rfl := Option.some.inj h
    exact hlt
  | gb2312 =>
    obtain ⟨byte, -, h⟩ := Option.bind_eq_some_iff.mp h
    obtain ⟨byte', hbyte', h⟩ := Option.map_eq_some_iff.mp h
    have hlt := (List.getElem?_eq_some_iff.mp hbyte').1
    dsimp only at h
    split_ifs at h
    obtain rfl := Option.some.inj h
    exact hlt
  | gb18030_0 | gb18030_1 =>
    obtain ⟨found, htest, h⟩ := Option.map_eq_some_iff.mp h
    cases found with
    | true =>
      obtain rfl := Option.some.inj h
      exact length_of_testAll htest
    | false => cases h

variable {state : MBState}

theorem InsideText.advance (h : InsideText inbuf toLeft state) {i : ℕ} (hi : i ≤ inbuf.length)
    (unconvNum : ℕ) :
    InsideText inbuf toLeft { state with i := i, unconvNum := unconvNum } :=
  ⟨hi, h.toLeft_nonneg, h.toLeft_eq⟩

theorem InsideText.put (h : InsideText inbuf toLeft state) {bytes : List UInt8}
    (hi : state.i + bytes.length ≤ inbuf.length) (hroom : ¬ state.toLeft < bytes.length) :
    InsideText inbuf toLeft (state.put true bytes) := by
  have htoLeft := h.toLeft_eq
  refine ⟨hi, ?_, ?_⟩
  · simp only [MBState.put]
    omega
  · simp only [MBState.put, ↓reduceIte, List.length_append]
    omega

/-! One turn of the outer loop, by the byte that it finds. -/

theorem ctstombsLoopIn_of_charset {charset : CharSetType} {length : ℕ}
    (hbyte : inbuf[state.i]? = some ESC)
    (hcharset : getCharsetIn (inbuf.drop state.i) defaultCTData = some (some (charset, length))) :
    ctstombsLoopIn inbuf .outer state =
      ctstombsLoopIn inbuf (.inner charset) { state with i := state.i + length } := by
  rw [ctstombsLoopIn, hbyte]
  dsimp only
  rw [if_pos rfl, hcharset]

theorem ctstombsLoopIn_of_escape (hbyte : inbuf[state.i]? = some ESC)
    (hcharset : getCharsetIn (inbuf.drop state.i) defaultCTData = some none) :
    ctstombsLoopIn inbuf .outer state =
      ctstombsLoopIn inbuf .outer
      { state with i := state.i + 1, unconvNum := state.unconvNum + 1 } := by
  rw [ctstombsLoopIn, hbyte]
  dsimp only
  rw [if_pos rfl, hcharset]

theorem ctstombsLoopIn_of_plain {byte : UInt8} (hbyte : inbuf[state.i]? = some byte)
    (hesc : byte ≠ ESC) (hplain : isPlain byte = true) (hspace : ¬ state.toLeft < 1) :
    ctstombsLoopIn inbuf .outer state = ctstombsLoopIn inbuf .outer (state.put true [byte]) := by
  rw [ctstombsLoopIn, hbyte]
  dsimp only
  rw [if_neg hesc, if_pos hplain, if_neg hspace]

theorem ctstombsLoopIn_of_other {byte : UInt8} (hbyte : inbuf[state.i]? = some byte)
    (hesc : byte ≠ ESC) (hplain : ¬ isPlain byte = true) :
    ctstombsLoopIn inbuf .outer state =
      ctstombsLoopIn inbuf .outer
      { state with i := state.i + 1, unconvNum := state.unconvNum + 1 } := by
  rw [ctstombsLoopIn, hbyte]
  dsimp only
  rw [if_neg hesc, if_neg hplain]

theorem drop_of_getElem? {i : ℕ} {byte : UInt8} (hbyte : inbuf[i]? = some byte) :
    inbuf.drop i = byte :: inbuf.drop (i + 1) ∧ i + 1 ≤ inbuf.length := by
  obtain ⟨hlt, hget⟩ := List.getElem?_eq_some_iff.mp hbyte
  exact ⟨by rw [List.drop_eq_getElem_cons hlt, hget], hlt⟩

/-- Where nothing is cut off, the loops stay inside their buffers. -/
theorem ctstombsLoopIn_inside {loop : Loop} (hwhole : WholeText loop src)
    (hsrc : inbuf.drop state.i = src) (h : InsideText inbuf toLeft state) :
    ∃ last, ctstombsLoopIn inbuf loop state = some last ∧ InsideText inbuf toLeft last := by
  have hget : ∀ {i : ℕ} {byte : UInt8} {src : List UInt8}, inbuf.drop i = byte :: src →
      inbuf[i]? = some byte ∧ inbuf.drop (i + 1) = src ∧ i + 1 ≤ inbuf.length := by
    intro i byte src hsrc
    have hlength := congrArg List.length hsrc
    rw [List.length_drop, List.length_cons] at hlength
    refine ⟨?_, ?_, by omega⟩
    · rw [← Nat.add_zero i, ← List.getElem?_drop, hsrc]
      rfl
    · rw [← List.tail_drop, hsrc, List.tail_cons]
  induction hwhole generalizing state with
  | @nil loop =>
    have hend := List.drop_eq_nil_iff.mp hsrc
    refine ⟨state, ?_, h⟩
    cases loop with
    | outer => rw [ctstombsLoopIn, List.getElem?_eq_none hend]
    | inner charset => rw [ctstombsLoopIn, if_pos hend]
  | @designation src charset length hcharset hrest ih =>
    obtain ⟨hbyte, -, -⟩ := hget hsrc
    have hlength := length_of_getCharsetIn hcharset
    rw [← hsrc] at hcharset hlength ih
    rw [List.length_drop] at hlength
    have hi := h.i_le
    rw [ctstombsLoopIn_of_charset hbyte hcharset]
    refine ih ?_ (h.advance (by omega) state.unconvNum)
    rw [List.drop_drop]
  | escape hcharset hrest ih =>
    obtain ⟨hbyte, hdrop, hi⟩ := hget hsrc
    rw [← hsrc] at hcharset
    rw [ctstombsLoopIn_of_escape hbyte hcharset]
    exact ih hdrop (h.advance hi _)
  | byte hesc hrest ih =>
    obtain ⟨hbyte, hdrop, hi⟩ := hget hsrc
    rw [ctstombsLoopIn, hbyte]
    dsimp only
    rw [if_neg hesc]
    split_ifs with hplain hfull
    · exact ⟨state, rfl, h⟩
    · exact ih hdrop (h.put hi (by simp only [List.length_cons, List.length_nil]; omega))
    · exact ih hdrop (h.advance hi _)
  | @character charset src bytes hbytes hrest ih =>
    have hlength := length_of_acceptIn hbytes
    rw [← hsrc] at hbytes hlength ih
    have hpos := length_pos_of_acceptIn hbytes
    rw [List.length_drop] at hlength
    rw [ctstombsLoopIn, if_neg (by omega), hbytes]
    dsimp only
    split_ifs with hfull
    · exact ⟨state, rfl, h⟩
    · refine ih ?_ (h.put (by omega) (not_or.mp hfull).1)
      rw [List.drop_drop]
      rfl
  | leave hbytes hrest ih =>
    rw [← hsrc] at hbytes
    rw [ctstombsLoopIn]
    split_ifs with hend
    · exact ⟨state, rfl, h⟩
    · rw [hbytes]
      exact ih hsrc h

/-- With room for all that is left, the loops look at everything up to the end. -/
theorem wholeText_of_inside {loop : Loop} (h : InsideText inbuf toLeft state)
    (hroom : (inbuf.length : ℤ) - state.i ≤ state.toLeft) {last : MBState}
    (hloop : ctstombsLoopIn inbuf loop state = some last) :
    WholeText loop (inbuf.drop state.i) := by
  induction loop, state using ctstombsLoopIn.induct inbuf with
  | case1 state hnone hbyte =>
    rw [ctstombsLoopIn, hbyte] at hloop
    dsimp only at hloop
    rw [if_pos rfl, hnone] at hloop
    cases hloop
  | case2 state charset length hcharset hbyte ih =>
    have hlength := length_of_getCharsetIn hcharset
    rw [List.length_drop] at hlength
    have hi := h.i_le
    rw [ctstombsLoopIn_of_charset hbyte hcharset] at hloop
    have hrest := ih (h.advance (by omega) _) (by dsimp only; omega) hloop
    rw [← List.drop_drop] at hrest
    rw [(drop_of_getElem? hbyte).1] at hcharset hrest ⊢
    exact .designation hcharset hrest
  | case3 state hcharset hbyte ih =>
    obtain ⟨hsrc, hi⟩ := drop_of_getElem? hbyte
    rw [ctstombsLoopIn_of_escape hbyte hcharset] at hloop
    rw [hsrc] at hcharset ⊢
    exact .escape hcharset (ih (h.advance hi _) (by dsimp only; omega) hloop)
  | case4 state byte hbyte hesc hplain hfull =>
    obtain ⟨-, hi⟩ := drop_of_getElem? hbyte
    omega
  | case5 state byte hbyte hesc hplain hspace ih =>
    obtain ⟨hsrc, hi⟩ := drop_of_getElem? hbyte
    rw [ctstombsLoopIn_of_plain hbyte hesc hplain hspace] at hloop
    rw [hsrc]
    refine .byte hesc (ih (h.put hi ?_) ?_ hloop)
    · simp only [List.length_cons, List.length_nil]
      omega
    · simp only [MBState.put, List.length_cons, List.length_nil]
      omega
  | case6 state byte hbyte hesc hplain ih =>
    obtain ⟨hsrc, hi⟩ := drop_of_getElem? hbyte
    rw [ctstombsLoopIn_of_other hbyte hesc hplain] at hloop
    rw [hsrc]
    exact .byte hesc (ih (h.advance hi _) (by dsimp only; omega) hloop)
  | case7 state hnone =>
    rw [List.drop_eq_nil_iff.mpr (List.getElem?_eq_none_iff.mp hnone)]
    exact .nil
  | case8 state charset hend =>
    rw [List.drop_eq_nil_iff.mpr hend]
    exact .nil
  | case9 state charset hspace hnone =>
    rw [ctstombsLoopIn, if_neg hspace, hnone] at hloop
    cases hloop
  | case10 state charset hspace bytes haccept hfull =>
    have hlength := length_of_acceptIn haccept
    rw [List.length_drop] at hlength
    omega
  | case11 state charset hspace bytes haccept hfull ih =>
    have hlength := length_of_acceptIn haccept
    rw [List.length_drop] at hlength
    rw [ctstombsLoopIn, if_neg hspace, haccept] at hloop
    dsimp only at hloop
    rw [if_neg hfull] at hloop
    refine .character haccept ?_
    rw [List.drop_drop]
    refine ih (h.put (by omega) (not_or.mp hfull).1) ?_ hloop
    simp only [MBState.put]
    omega
  | case12 state charset hspace haccept ih =>
    rw [ctstombsLoopIn, if_neg hspace, haccept] at hloop
    exact .leave haccept (ih h hroom hloop)

theorem ctstombs_inside (inbuf : List UInt8) :
    (∀ toLeft : ℤ, 0 ≤ toLeft → StaysInside inbuf toLeft (ctstombsIn inbuf toLeft)) ↔
    WholeText .outer inbuf := by
  have hstart : ∀ toLeft : ℤ, 0 ≤ toLeft → InsideText inbuf toLeft ⟨0, [], toLeft, 0⟩ :=
    fun toLeft htoLeft ↦ ⟨Nat.zero_le _, htoLeft, Int.zero_add _⟩
  constructor
  · intro h
    have hlength : (0 : ℤ) ≤ inbuf.length := Int.natCast_nonneg _
    have hinside := h _ hlength
    unfold ctstombsIn at hinside
    split at hinside
    · exact absurd hinside id
    · rename_i last hloop
      refine wholeText_of_inside (hstart _ hlength) ?_ hloop
      dsimp only
      omega
  · intro hwhole toLeft htoLeft
    obtain ⟨last, hloop, hinside⟩ :=
      ctstombsLoopIn_inside hwhole List.drop_zero (hstart toLeft htoLeft)
    have hi := hinside.i_le
    have hnonneg := hinside.toLeft_nonneg
    have htoLeft_eq := hinside.toLeft_eq
    rw [ctstombsIn, hloop]
    refine ⟨?_, ?_, ?_, htoLeft_eq⟩
    · dsimp only
      omega
    · dsimp only
      split_ifs <;> omega
    · dsimp only
      split_ifs <;> omega

/-- `gb18030_mbtocs`, `gb18030_mbstocs`, `gb18030_mbstocts` and `gb18030_ctstombs` stay inside their
buffers exactly where the end of the input cuts off no character, and for the last one no
designation, that they look at. -/
theorem staysInside_iff (locale : Locale) (inbuf : List UInt8) :
    ((∀ toLeft : ℤ, 0 ≤ toLeft →
        StaysInside inbuf toLeft ((mbtocs locale.lcd inbuf toLeft).map Segment.toConverted)) ↔
      cut inbuf = false) ∧
    ((∀ toLeft : ℤ, 0 ≤ toLeft →
        StaysInside inbuf toLeft ((mbstocs locale.lcd inbuf toLeft).map Segment.toConverted)) ↔
      WholeRun 0 inbuf) ∧
    ((∀ toLeft : ℤ, 0 ≤ toLeft → StaysInside inbuf toLeft (mbstoctsIn inbuf toLeft)) ↔
      Whole inbuf) ∧
    ((∀ toLeft : ℤ, 0 ≤ toLeft → StaysInside inbuf toLeft (ctstombsIn inbuf toLeft)) ↔
      WholeText .outer inbuf) := by
  refine ⟨⟨fun h ↦ ?_, fun h toLeft htoLeft ↦ ?_⟩, mbstocs_inside locale inbuf,
    mbstocts_inside inbuf, ctstombs_inside inbuf⟩
  · exact (mbtocs_inside locale inbuf 0 (Int.le_refl 0)).mp (h 0 (Int.le_refl 0))
  · exact (mbtocs_inside locale inbuf toLeft htoLeft).mpr h

/-- A string of one byte, which would be the first one of a character. -/
theorem not_staysInside_lead :
    ¬ ∀ (locale : Locale) (inbuf : List UInt8) (toLeft : ℤ), 0 ≤ toLeft →
      StaysInside inbuf toLeft ((mbtocs locale.lcd inbuf toLeft).map Segment.toConverted) ∧
      StaysInside inbuf toLeft ((mbstocs locale.lcd inbuf toLeft).map Segment.toConverted) ∧
      StaysInside inbuf toLeft (mbstoctsIn inbuf toLeft) ∧
      StaysInside inbuf toLeft (ctstombsIn inbuf toLeft) := by
  intro h
  have hoff : mbtocs plainLocale.lcd [0x81] 8 = .outside := rfl
  have hinside := (h plainLocale [0x81] 8 (by decide)).1
  rw [hoff] at hinside
  exact hinside

end Userland.X11.GB18030
