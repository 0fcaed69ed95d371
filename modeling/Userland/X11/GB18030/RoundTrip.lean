import Userland.X11.GB18030.CompoundText

/-!
# Compound text and back

`gb18030_mbstocts` writes, of whole characters at the start of a string, the compound text
(`ctext`): before each character of another character set than the last one, the designation of its
own. `gb18030_ctstombs` reads these characters back (`roundtrip`).
-/

set_option autoImplicit false
set_option relaxedAutoImplicit false

namespace Userland.X11.GB18030

/-! ### Characters -/

/-- The bytes of a tab, a newline, a printable ASCII character, a two-byte or a four-byte code. -/
def IsCharacter : List UInt8 → Prop
  | [c] => c = 0x09 ∨ c = 0x0a ∨ 0x20 ≤ c ∧ c ≤ 0x7e
  | [a, b] => (0x81 ≤ a ∧ a ≤ 0xfe) ∧ (0x40 ≤ b ∧ b ≤ 0x7e ∨ 0x80 ≤ b ∧ b ≤ 0xfe)
  | [a, b, c, d] => (0x81 ≤ a ∧ a ≤ 0xfe) ∧ (0x30 ≤ b ∧ b ≤ 0x39) ∧ (0x81 ≤ c ∧ c ≤ 0xfe) ∧
    0x30 ≤ d ∧ d ≤ 0x39
  | _ => False

/-- A character of a valid multibyte string. -/
structure MBChar where
  bytes : List UInt8
  valid : IsCharacter bytes

/-- The multibyte string of some characters. -/
def mbstring (cs : List MBChar) : List UInt8 := cs.flatMap MBChar.bytes

/-- The character set of a character. Two-byte codes are taken for GB2312 where they may be. -/
def MBChar.charset (c : MBChar) : CharSetType :=
  match c.bytes with
  | [a, b] => if isgb a b then .gb2312 else .gb18030_0
  | [_, _, _, _] => .gb18030_1
  | _ => .ascii

/-- The bytes of a character in compound text, which are seven bits wide for GB2312. -/
def MBChar.code (c : MBChar) : List UInt8 :=
  if c.charset = .gb2312 then c.bytes.map (· &&& 0x7f) else c.bytes

/-- The name of a character set, and the `flag` for it. -/
def CharSetType.name : CharSetType → List Char
  | .ascii => "ASCII".toList
  | .gb2312 => "GB2312".toList
  | .gb18030_0 => "GB18030-0".toList
  | .gb18030_1 => "GB18030-1".toList

def CharSetType.flag : CharSetType → ℕ
  | .ascii => 3
  | .gb2312 => 2
  | .gb18030_0 => 4
  | .gb18030_1 => 5

def CharSetType.encodeString : CharSetType → List UInt8
  | .ascii => ESC :: textBytes "(B"
  | .gb2312 => ESC :: textBytes "$(A"
  | .gb18030_0 => ESC :: textBytes "%/2??SUN-GB18030-0"
  | .gb18030_1 => ESC :: textBytes "%/2??SUN-GB18030-1"

theorem getCTEncodeString_name (charset : CharSetType) :
    getCTEncodeString charset.name = some charset.encodeString := by
  cases charset <;> decide

/-- What goes before a character, if the last one was of the character set `current`. -/
def designation (current : Option CharSetType) (charset : CharSetType) : List UInt8 :=
  if current = some charset then [] else charset.encodeString

/-- The compound text of some characters behind one of the character set `current`. -/
def ctext : Option CharSetType → List MBChar → List UInt8
  | _, [] => []
  | current, c :: cs => designation current c.charset ++ c.code ++ ctext (some c.charset) cs

theorem MBChar.cases {P : MBChar → Prop}
    (ascii : ∀ (c : MBChar) (a : UInt8), c.bytes = [a] → c.charset = .ascii → c.code = [a] →
      (a = 0x09 ∨ a = 0x0a ∨ 0x20 ≤ a ∧ a ≤ 0x7e) → P c)
    (gb2312 : ∀ (c : MBChar) (a b : UInt8), c.bytes = [a, b] → c.charset = .gb2312 →
      c.code = [a &&& 0x7f, b &&& 0x7f] → isgb a b = true → P c)
    (gb18030_0 : ∀ (c : MBChar) (a b : UInt8), c.bytes = [a, b] → c.charset = .gb18030_0 →
      c.code = [a, b] →
      isgb a b = false → isgb18030_2 a b = true → P c)
    (gb18030_1 : ∀ (c : MBChar) (a b a' b' : UInt8), c.bytes = [a, b, a', b'] →
      c.charset = .gb18030_1 →
      c.code = [a, b, a', b'] → isgb18030_4 a b a' b' = true → P c) (c : MBChar) : P c := by
  obtain ⟨bytes, valid⟩ := c
  match bytes, valid with
  | [a], h => exact ascii _ a rfl rfl rfl h
  | [a, b], h =>
    have htwo : isgb18030_2 a b = true := by
      simpa [isgb18030_2, IsCharacter, and_assoc] using h
    by_cases hgb : isgb a b = true
    · refine gb2312 _ a b rfl ?_ ?_ hgb
      · simp [MBChar.charset, hgb]
      · simp [MBChar.code, MBChar.charset, hgb]
    · refine gb18030_0 _ a b rfl ?_ ?_ ((Bool.not_eq_true _).mp hgb) htwo
      · simp [MBChar.charset, hgb]
      · simp [MBChar.code, MBChar.charset, hgb]
  | [a, b, a', b'], h =>
    refine gb18030_1 _ a b a' b' rfl rfl rfl ?_
    simpa [isgb18030_4, IsCharacter, and_assoc] using h

/-! ### Texts in buffers -/

theorem startsWith_append (buf : ℕ → UInt8) (i : ℕ) (first second : List UInt8) :
    startsWith buf i (first ++ second) = true ↔
      startsWith buf i first = true ∧ startsWith buf (i + first.length) second = true := by
  induction first generalizing i with
  | nil => simp [startsWith]
  | cons byte first ih =>
    rw [List.cons_append, startsWith, startsWith, Bool.and_eq_true, ih, Bool.and_eq_true, and_assoc,
      List.length_cons, Nat.add_assoc, Nat.add_comm 1]

/-- Of two texts at one place, one is a prefix of the other. -/
theorem prefix_or_prefix_of_startsWith {buf : ℕ → UInt8} {i : ℕ} {first second : List UInt8}
    (h : startsWith buf i first = true) (h' : startsWith buf i second = true) :
    first <+: second ∨ second <+: first := by
  induction first generalizing i second with
  | nil => exact Or.inl List.nil_prefix
  | cons byte first ih =>
    cases second with
    | nil => exact Or.inr List.nil_prefix
    | cons byte' second =>
      simp only [startsWith, Bool.and_eq_true, decide_eq_true_eq] at h h'
      rw [← h.1, ← h'.1]
      simpa only [List.cons_prefix_cons, true_and] using ih h.2 h'.2

theorem getCharsetWithEncodeString_of_startsWith {buf : ℕ → UInt8} {i : ℕ} {charset : CharSetType}
    (h : startsWith buf i charset.encodeString = true) :
    getCharsetWithEncodeString buf i = some (charset, charset.encodeString.length) := by
  have hother : ∀ other : CharSetType, other ≠ charset →
      startsWith buf i other.encodeString = false := by
    intro other hne
    refine (Bool.not_eq_true _).mp fun hstart ↦ ?_
    have hbegins := prefix_or_prefix_of_startsWith hstart h
    cases other <;> cases charset <;> first | exact hne rfl | exact absurd hbegins (by decide)
  have hdata : defaultCTData = [CharSetType.ascii, .gb2312, .gb18030_0, .gb18030_1].map
      fun charset ↦ (charset, charset.name, charset.encodeString) := rfl
  rw [getCharsetWithEncodeString, hdata, List.find?_map]
  have hfind : [CharSetType.ascii, .gb2312, .gb18030_0, .gb18030_1].find?
      ((fun entry : CharSetType × List Char × List UInt8 ↦ startsWith buf i entry.2.2) ∘
        fun charset ↦ (charset, charset.name, charset.encodeString)) = some charset := by
    simp only [List.find?_cons, Function.comp_def]
    cases charset <;> simp [h, hother]
  rw [hfind]
  rfl

/-! ### To compound text -/

theorem length_encodeString_pos (charset : CharSetType) : 0 < charset.encodeString.length := by
  cases charset <;> decide

/-- The `flag` after a character of a character set, or at the start. -/
def flagOf : Option CharSetType → ℕ
  | none => 0
  | some charset => charset.flag

theorem flagOf_eq_iff (current : Option CharSetType) (charset : CharSetType) :
    flagOf current = 0 ∨ flagOf current ≠ charset.flag ↔ current ≠ some charset := by
  cases current with
  | none => simp [flagOf]
  | some other => cases other <;> cases charset <;> simp [flagOf, CharSetType.flag]

theorem putCharacter_eq (toLeft : ℤ) (charset : CharSetType) (bytes : List UInt8) (state : CTState)
    (current : Option CharSetType) (hflag : state.flag = flagOf current) :
    putCharacter toLeft charset.name charset.flag bytes state =
      if (state.out.length : ℤ) + ((designation current charset).length + bytes.length) ≥
      toLeft then .stop state
      else .next ⟨state.i + bytes.length, state.out ++ designation current charset ++ bytes,
        charset.flag, state.unconvNum⟩ := by
  have hiff := flagOf_eq_iff current charset
  rw [← hflag] at hiff
  by_cases hcurrent : current = some charset
  · have hencode : putEncodeString toLeft charset.name charset.flag bytes.length state =
        .next state := by
      rw [putEncodeString, if_neg fun h ↦ hiff.mp h hcurrent]
    have hflag' : state.flag = charset.flag := by
      rw [hflag, hcurrent]
      rfl
    rw [putCharacter, hencode]
    simp [designation, hcurrent, hflag']
  · rw [putCharacter, putEncodeString, if_pos (hiff.mpr hcurrent), getCTEncodeString_name]
    simp only [designation, if_neg hcurrent]
    by_cases hroom : (state.out.length : ℤ) + (charset.encodeString.length + bytes.length) ≥ toLeft
    · rw [if_pos hroom, if_pos (by omega)]
    · rw [if_neg hroom, if_neg (by omega)]
      dsimp only
      rw [if_neg (by rw [List.length_append]; omega)]

theorem and_0xff (byte : UInt8) : byte &&& 0xff = byte := by
  have hall : ∀ bits : BitVec 8, bits &&& 0xff#8 = bits := by decide
  exact UInt8.toBitVec_inj.mp (hall byte.toBitVec)

/-- A turn of the loop at a character puts its code there. -/
theorem mbstoctsTurn_of_startsWith {inbuf : ℕ → UInt8} {toLeft : ℤ} {state : CTState} {c : MBChar}
    (h : startsWith inbuf state.i c.bytes = true) :
    mbstoctsTurn inbuf toLeft state = putCharacter toLeft c.charset.name c.charset.flag
    c.code state := by
  cases c using MBChar.cases with
  | ascii c a hbytes hcharset hcode ha =>
    rw [hbytes, startsWith, Bool.and_eq_true, decide_eq_true_eq] at h
    rw [hcharset, hcode, mbstoctsTurn]
    simp only [Nat.add_zero, h.1]
    have hascii : a ≤ 0x7f := by grind
    have hgb : ∀ b, isgb a b = false := fun b ↦ by simp only [isgb]; grind
    have htwo : ∀ b, isgb18030_2 a b = false := fun b ↦ by simp only [isgb18030_2]; grind
    have hfour : ∀ b a' b', isgb18030_4 a b a' b' = false := fun b a' b' ↦ by
      simp only [isgb18030_4]; grind
    simp only [hgb, htwo, hfour, isASCII, hascii, decide_true, Bool.false_eq_true, ↓reduceIte]
    rfl
  | gb2312 c a b hbytes hcharset hcode hgb =>
    simp only [hbytes, startsWith, Bool.and_eq_true, decide_eq_true_eq] at h
    rw [hcharset, hcode, mbstoctsTurn]
    simp only [Nat.add_zero, h, hgb, ↓reduceIte]
    rfl
  | gb18030_0 c a b hbytes hcharset hcode hgb htwo =>
    simp only [hbytes, startsWith, Bool.and_eq_true, decide_eq_true_eq] at h
    rw [hcharset, hcode, mbstoctsTurn]
    simp only [Nat.add_zero, h, hgb, htwo, and_0xff, Bool.false_eq_true, ↓reduceIte]
    rfl
  | gb18030_1 c a b a' b' hbytes hcharset hcode hfour =>
    simp only [hbytes, startsWith, Bool.and_eq_true, decide_eq_true_eq] at h
    rw [hcharset, hcode, mbstoctsTurn]
    have hgb : isgb a b = false := by simp only [isgb, isgb18030_4] at hfour ⊢; grind
    have htwo : isgb18030_2 a b = false := by simp only [isgb18030_2, isgb18030_4] at hfour ⊢; grind
    simp only [Nat.add_zero, Nat.add_assoc, Nat.reduceAdd] at h ⊢
    simp only [h, hgb, htwo, hfour, Bool.false_eq_true, ↓reduceIte]
    rfl

theorem length_code (c : MBChar) : c.code.length = c.bytes.length := by
  unfold MBChar.code
  split_ifs
  · exact List.length_map _
  · rfl

theorem length_bytes_pos (c : MBChar) : 0 < c.bytes.length := by
  cases c using MBChar.cases with
  | ascii c a hbytes | gb2312 c a b hbytes | gb18030_0 c a b hbytes | gb18030_1 c a b a' b' hbytes =>
    rw [hbytes]
    exact Nat.succ_pos _

theorem mbstring_cons (c : MBChar) (cs : List MBChar) :
    mbstring (c :: cs) = c.bytes ++ mbstring cs :=
  List.flatMap_cons

/-- The loop takes whole characters and writes their compound text. -/
theorem mbstoctsLoop_spec {inbuf : ℕ → UInt8} (toLeft : ℤ) (cs : List MBChar)
    (current : Option CharSetType) (state : CTState) (hflag : state.flag = flagOf current)
    (h : startsWith inbuf state.i (mbstring cs) = true) :
    ∃ n state', mbstoctsLoop inbuf (state.i + (mbstring cs).length) toLeft state = some state' ∧
      state'.i = state.i + (mbstring (cs.take n)).length ∧
      state'.out = state.out ++ ctext current (cs.take n) ∧
      state'.unconvNum = state.unconvNum ∧ (state'.out.length : ℤ) ≤
      max toLeft state.out.length := by
  have hstay : ∃ n state', some state = some state' ∧
      state'.i = state.i + (mbstring (cs.take n)).length ∧
      state'.out = state.out ++ ctext current (cs.take n) ∧
      state'.unconvNum = state.unconvNum ∧ (state'.out.length : ℤ) ≤ max toLeft state.out.length :=
    ⟨0, state, rfl, rfl, by simp [ctext], rfl, Int.le_max_right _ _⟩
  induction cs generalizing current state with
  | nil =>
    rw [mbstoctsLoop, if_neg fun hroom ↦ Nat.lt_irrefl _ hroom.1]
    exact hstay
  | cons c cs ih =>
    rw [mbstoctsLoop]
    split_ifs with hroom
    · rw [mbstring_cons, startsWith_append] at h
      have hturn : mbstoctsTurn inbuf toLeft state = _ := mbstoctsTurn_of_startsWith h.1
      rw [putCharacter_eq toLeft c.charset c.code state current hflag] at hturn
      split_ifs at hturn with hfull
      · rw [hturn]
        exact hstay
      · rw [hturn]
        dsimp only
        set next : CTState := ⟨state.i + c.code.length,
          state.out ++ designation current c.charset ++ c.code,
          c.charset.flag, state.unconvNum⟩ with hnext
        have hi : next.i = state.i + c.bytes.length := by rw [hnext, length_code]
        obtain ⟨n, state', hloop, hi', hout, hunconv, hlength⟩ :=
          ih (some c.charset) next rfl (hi ▸ h.2)
          ⟨0, next, rfl, rfl, by simp [ctext], rfl, Int.le_max_right _ _⟩
        refine ⟨n + 1, state', ?_, ?_, ?_, hunconv, ?_⟩
        · rw [mbstring_cons, List.length_append, ← Nat.add_assoc, ← hi]
          exact hloop
        · rw [hi', hi, List.take_succ_cons, mbstring_cons, List.length_append, Nat.add_assoc]
        · rw [hout, List.take_succ_cons, ctext]
          simp [hnext]
        · have hout' : (next.out.length : ℤ) < toLeft := by
            simp only [hnext, List.length_append]
            omega
          omega
    · exact hstay

/-! ### From compound text -/

variable {ct : ℕ → UInt8}

theorem accept_code {i : ℕ} {c : MBChar} (h : startsWith ct i c.code = true) :
    accept ct i c.charset = some c.bytes := by
  cases c using MBChar.cases with
  | ascii c a hbytes hcharset hcode ha =>
    simp only [hcode, startsWith, Bool.and_eq_true, decide_eq_true_eq] at h
    have hplain : isPlain a = true := by simp only [isPlain, isASCII]; grind
    rw [hcharset, hbytes, accept, h.1, if_pos hplain]
  | gb2312 c a b hbytes hcharset hcode hgb =>
    simp only [hcode, startsWith, Bool.and_eq_true, decide_eq_true_eq] at h
    have hsevenbits : ∀ byte : UInt8, 0xa1 ≤ byte → (byte &&& 0x7f &&& 0x7f) ||| 0x80 = byte := by
      intro byte hbyte
      have hall : ∀ bits : BitVec 8, 0xa1#8 ≤ bits →
        ((bits &&& 0x7f#8) &&& 0x7f#8) ||| 0x80#8 = bits := by decide
      exact UInt8.toBitVec_inj.mp (hall byte.toBitVec hbyte)
    have hrange : 0xa1 ≤ a ∧ 0xa1 ≤ b := by simp only [isgb] at hgb; grind
    rw [hcharset, hbytes, accept]
    simp only [h, hsevenbits a hrange.1, hsevenbits b hrange.2, hgb, ↓reduceIte]
  | gb18030_0 c a b hbytes hcharset hcode hgb htwo =>
    simp only [hcode, startsWith, Bool.and_eq_true, decide_eq_true_eq] at h
    rw [hcharset, hbytes, accept]
    simp only [h, htwo, ↓reduceIte]
  | gb18030_1 c a b a' b' hbytes hcharset hcode hfour =>
    simp only [hcode, startsWith, Bool.and_eq_true, decide_eq_true_eq, Nat.add_assoc,
      Nat.reduceAdd] at h
    rw [hcharset, hbytes, accept]
    simp only [h, hfour, and_0xff, ↓reduceIte]

/-- No character starts with an escape. -/
theorem accept_ESC {i : ℕ} (h : ct i = ESC) (charset : CharSetType) :
    accept ct i charset = none := by
  have hgb : ∀ b, isgb ((ESC &&& 0x7f) ||| 0x80) b = false := fun b ↦ by
    have hbyte : (ESC &&& 0x7f) ||| 0x80 = 0x9b := by decide
    rw [hbyte]
    simp [isgb]
  have htwo : ∀ b, isgb18030_2 ESC b = false := fun b ↦ by simp [isgb18030_2, ESC]
  have hfour : ∀ b a' b', isgb18030_4 ESC b a' b' = false := fun b a' b' ↦ by
    simp [isgb18030_4, ESC]
  cases charset with
  | ascii =>
    rw [accept, h]
    rfl
  | gb2312 => simp only [accept, h, hgb, Bool.false_eq_true, ↓reduceIte]
  | gb18030_0 => simp only [accept, h, htwo, Bool.false_eq_true, ↓reduceIte]
  | gb18030_1 => simp only [accept, h, hfour, Bool.false_eq_true, ↓reduceIte]

theorem ct_eq_ESC {i : ℕ} {charset : CharSetType}
    (h : startsWith ct i charset.encodeString = true) : ct i = ESC := by
  cases charset with
  | ascii | gb2312 | gb18030_0 | gb18030_1 =>
    rw [CharSetType.encodeString, startsWith, Bool.and_eq_true, decide_eq_true_eq] at h
    exact h.1

variable {fromLeft : ℕ}

theorem ctstombsLoop_escape {charset : CharSetType} {state : MBState}
    (h : startsWith ct state.i charset.encodeString = true) (hlt : state.i < fromLeft) :
    ctstombsLoop ct fromLeft true .outer state = ctstombsLoop ct fromLeft true (.inner charset)
      { state with i := state.i + charset.encodeString.length } := by
  have hcharset := getCharsetWithEncodeString_of_startsWith h
  rw [ctstombsLoop, if_pos hlt, if_pos (ct_eq_ESC h)]
  split
  · rename_i found length hfound
    obtain ⟨rfl, rfl⟩ := Prod.mk.inj (Option.some.inj (hfound.symm.trans hcharset))
    rfl
  · rename_i hfound
    cases hfound.symm.trans hcharset

theorem ctstombsLoop_break (charset : CharSetType) {state : MBState}
    (h : ct state.i = ESC) (hlt : state.i < fromLeft) :
    ctstombsLoop ct fromLeft true (.inner charset) state =
    ctstombsLoop ct fromLeft true .outer state := by
  conv_lhs => rw [ctstombsLoop]
  rw [if_neg (Nat.not_le.mpr hlt)]
  split
  · rename_i bytes hbytes
    cases hbytes.symm.trans (accept_ESC h charset)
  · rfl

theorem ctstombsLoop_character {c : MBChar} {state : MBState}
    (h : startsWith ct state.i c.code = true) (hfrom : state.i + c.bytes.length ≤ fromLeft)
    (hto : (c.bytes.length : ℤ) ≤ state.toLeft) :
    ctstombsLoop ct fromLeft true (.inner c.charset) state =
      ctstombsLoop ct fromLeft true (.inner c.charset) (state.put true c.bytes) := by
  have hpos := length_bytes_pos c
  conv_lhs => rw [ctstombsLoop]
  rw [if_neg (by omega)]
  split
  · rename_i bytes hbytes
    obtain rfl := Option.some.inj (hbytes.symm.trans (accept_code h))
    rw [if_neg (by omega)]
  · rename_i hbytes
    cases hbytes.symm.trans (accept_code h)

/-- The loops read the compound text of some characters to its end. -/
theorem ctstombsLoop_inner (cs : List MBChar) (charset : CharSetType) (state : MBState)
    (h : startsWith ct state.i (ctext (some charset) cs) = true)
    (hfrom : fromLeft = state.i + (ctext (some charset) cs).length)
    (hto : ((mbstring cs).length : ℤ) ≤ state.toLeft) :
    ctstombsLoop ct fromLeft true (.inner charset) state =
      ⟨fromLeft, state.out ++ mbstring cs, state.toLeft - (mbstring cs).length,
        state.unconvNum⟩ := by
  induction cs generalizing charset state with
  | nil =>
    have hend : fromLeft ≤ state.i := by rw [hfrom]; exact Nat.le_refl _
    rw [ctstombsLoop, if_pos hend]
    obtain ⟨i, out, toLeft, unconvNum⟩ := state
    simp [mbstring, hfrom, ctext]
  | cons c cs ih =>
    -- in its own loop, a character is read
    have hown : ∀ state : MBState, startsWith ct state.i (ctext (some c.charset) (c :: cs)) = true →
        fromLeft = state.i + (ctext (some c.charset) (c :: cs)).length →
        ((mbstring (c :: cs)).length : ℤ) ≤ state.toLeft →
        ctstombsLoop ct fromLeft true (.inner c.charset) state =
          ⟨fromLeft, state.out ++ mbstring (c :: cs),
          state.toLeft - (mbstring (c :: cs)).length, state.unconvNum⟩ := by
      intro state h hfrom hto
      rw [ctext, designation, if_pos rfl, List.nil_append] at h hfrom
      rw [startsWith_append, length_code] at h
      rw [List.length_append, length_code] at hfrom
      rw [mbstring_cons, List.length_append] at hto ⊢
      rw [ctstombsLoop_character h.1 (by omega) (by omega),
        ih c.charset (state.put true c.bytes) h.2
        (by simp only [MBState.put]; omega) (by simp only [MBState.put]; omega)]
      simp only [MBState.put, if_true, List.append_assoc, MBState.mk.injEq, true_and, and_true]
      omega
    by_cases hcharset : c.charset = charset
    · rw [← hcharset] at h hfrom ⊢
      exact hown state h hfrom hto
    · -- the loop ends at the escape of another character set
      have hdesignation : designation (some charset) c.charset = c.charset.encodeString :=
        if_neg fun heq ↦ hcharset (Option.some.inj heq).symm
      have hown' : designation (some c.charset) c.charset = [] := if_pos rfl
      rw [ctext, hdesignation, List.append_assoc] at h hfrom
      rw [startsWith_append] at h
      rw [List.length_append] at hfrom
      have hpos := length_encodeString_pos c.charset
      rw [ctstombsLoop_break charset (ct_eq_ESC h.1) (by omega), ctstombsLoop_escape h.1 (by omega)]
      refine hown _ ?_ ?_ hto
      · rw [ctext, hown', List.nil_append]
        exact h.2
      · rw [ctext, hown', List.nil_append]
        dsimp only
        omega

/-- What was written is read back. -/
theorem ctstombsLoop_outer (cs : List MBChar) (toLeft : ℤ)
    (h : startsWith ct 0 (ctext none cs) = true) (hto : ((mbstring cs).length : ℤ) ≤ toLeft) :
    ctstombsLoop ct (ctext none cs).length true .outer ⟨0, [], toLeft, 0⟩ =
      ⟨(ctext none cs).length, mbstring cs, toLeft - (mbstring cs).length, 0⟩ := by
  cases cs with
  | nil =>
    rw [ctstombsLoop]
    refine (if_neg (Nat.lt_irrefl 0)).trans ?_
    simp [mbstring, ctext]
  | cons c cs =>
    have hdesignation : designation none c.charset = c.charset.encodeString :=
      if_neg fun h ↦ Option.some_ne_none c.charset h.symm
    have hown : ctext (some c.charset) (c :: cs) = c.code ++ ctext (some c.charset) cs := by
      rw [ctext, designation, if_pos rfl, List.nil_append]
    rw [ctext, hdesignation, List.append_assoc, ← hown] at h ⊢
    rw [startsWith_append] at h
    have hpos := length_encodeString_pos c.charset
    have hlt : 0 < (c.charset.encodeString ++ ctext (some c.charset) (c :: cs)).length := by
      rw [List.length_append]
      omega
    rw [ctstombsLoop_escape h.1 hlt, ctstombsLoop_inner (c :: cs) c.charset _ h.2 _ hto]
    · rfl
    · rw [List.length_append]
      dsimp only
      omega

/-- `gb18030_mbstocts` reads whole characters from the start of a valid multibyte string and writes
no more bytes than there is room for, and `gb18030_ctstombs` yields these characters from what was
written. -/
theorem roundtrip (cs : List MBChar) (inbuf : ℕ → UInt8)
    (hin : startsWith inbuf 0 (mbstring cs) = true) (toLeft : ℤ) :
    ∃ r, mbstocts inbuf (mbstring cs).length toLeft = some r ∧
      (∃ n, r.read = (mbstring (cs.take n)).length ∧
        ∀ (ct : ℕ → UInt8) (enough : ℤ), startsWith ct 0 r.written = true → (r.read : ℤ) ≤ enough →
          ctstombs ct r.written.length true enough =
            ⟨0, r.written.length, mbstring (cs.take n), 0, enough - r.read⟩) ∧
      r.unconvNum = 0 ∧ (r.written.length : ℤ) ≤ max toLeft 0 ∧
      r.fromLeft = (mbstring cs).length - r.read ∧ r.toLeft = toLeft - r.written.length := by
  obtain ⟨n, state, hloop, hi, hout, hunconv, hlength⟩ :=
    mbstoctsLoop_spec toLeft cs none ⟨0, [], 0, 0⟩ rfl hin
  simp only [Nat.zero_add, List.nil_append] at hloop hi hout hunconv hlength
  refine ⟨_, congrArg (Option.map _) hloop, ⟨n, hi, fun ct enough hct henough ↦ ?_⟩, hunconv,
    hlength, rfl, rfl⟩
  dsimp only at hct henough ⊢
  rw [hout] at hct ⊢
  rw [hi] at henough ⊢
  rw [ctstombs, ctstombsLoop_outer (cs.take n) enough hct henough]
  simp

/-- A letter, a character of GB2312 and a four-byte code. -/
def mixed : List MBChar :=
  [⟨[0x41], Or.inr (Or.inr (by decide))⟩, ⟨[0xb0, 0xa1], by decide, by decide⟩,
    ⟨[0x81, 0x30, 0x81, 0x30], by decide, by decide, by decide, by decide⟩]

theorem roundtrip_mixed : ∃ r, mbstocts (fun i ↦ (mbstring mixed).getD i 0) 7 64 = some r ∧
    r.unconvNum = 0 := by
  obtain ⟨r, hr, -, hunconv, -⟩ := roundtrip mixed (fun i ↦ (mbstring mixed).getD i 0)
    (by decide) 64
  exact ⟨r, hr, hunconv⟩

end Userland.X11.GB18030
