import Userland.X11.GB18030.Buffers
import Userland.X11.GB18030.WideText
import Mathlib.Data.List.Chain
import Mathlib.Data.List.TakeWhile

/-!
# Splitting into character sets and back

`gb18030_mbstocs` of `modules/lc/gb18030/lcGB18030.c` takes a segment of characters of one length
from a string, and `gb18030_cstombs` makes a string of the segment. Two things go wrong with
four-byte codes: their number is packed into 16 bits (`twobyteToFourbyte_eq_iff`), and
`gb18030_cstombs` does not advance in such a segment, so that it repeats the first one
(`transcode_eq`).
-/

set_option autoImplicit false
set_option relaxedAutoImplicit false

namespace Userland.X11.GB18030

/-- `gb18030_mbstocs` again and again until the input is used up, and `gb18030_cstombs` on each
segment with its character set; none if one of them fails, or if the input is not used up after
`fuel` segments. -/
def transcode (lcd : LCD) (room : ℤ) : ℕ → List UInt8 → Option (List UInt8)
  | _, [] => some []
  | 0, _ :: _ => none
  | fuel + 1, byte :: bytes =>
    match mbstocs lcd (byte :: bytes) room with
    | .returns segment =>
      match segment.charset with
      | some charset =>
        match cstombs lcd charset segment.written room with
        | .returns back => (transcode lcd room fuel ((byte :: bytes).drop segment.read)).map
          fun rest ↦ back.written ++ rest
        | _ => none
      | none => none
    | _ => none

/-! ### Packed numbers -/

theorem eq_ofNat_iff (n : ℕ) (byte : UInt8) : UInt8.ofNat n = byte ↔ n % 256 = byte.toNat := by
  rw [← UInt8.toNat_inj, UInt8.toNat_ofNat']

/-- Two numbers with the digits of a four-byte code are the same. -/
theorem digits_eq_iff {a b c d n m : ℕ} (hb : b < 10) (hc : c < 126) (hd : d < 10)
    (hn : 12600 * a + 1260 * b + 10 * c + d = n) :
    (m / 10 / 126 / 10 = a ∧ m / 10 / 126 % 10 = b ∧ m / 10 % 126 = c ∧ m % 10 = d) ↔ m = n := by
  constructor
  · rintro ⟨ha, hb, hc, hd⟩
    have hfirst := Nat.div_add_mod (m / 10 / 126) 10
    have hsecond := Nat.div_add_mod (m / 10) 126
    have hthird := Nat.div_add_mod m 10
    omega
  · rintro rfl
    have hthree : m / 10 = 1260 * a + 126 * b + c := by omega
    have htwo : m / 10 / 126 = 10 * a + b := by omega
    omega

theorem mod_256_eq_iff {offset digit byte : ℕ} (hdigit : offset + digit < 256) :
    (offset + digit) % 256 = offset + byte ↔ digit = byte := by
  rw [Nat.mod_eq_of_lt hdigit, Nat.add_left_cancel_iff]

/-- The number of a four-byte code survives in two bytes if it is less than 2^16. -/
theorem twobyteToFourbyte_eq_iff {a b c d : UInt8} (h : isgb18030_4 a b c d = true)
    {first second : UInt8} (hpack : fourbyteToTwobyte a b c d = [first, second]) :
    twobyteToFourbyte first second = [a, b, c, d] ↔ fourbyteIndex a b c d < 65536 := by
  simp only [isgb18030_4, Bool.and_eq_true, decide_eq_true_eq, ge_iff_le, UInt8.le_iff_toNat_le,
    UInt8.reduceToNat] at h
  obtain ⟨⟨⟨⟨⟨⟨⟨ha, ha'⟩, hb⟩, hb'⟩, hc⟩, hc'⟩, hd⟩, hd'⟩ := h
  obtain ⟨a', ha'⟩ : ∃ a', a.toNat = 129 + a' := ⟨a.toNat - 129, by omega⟩
  obtain ⟨b', hb'⟩ : ∃ b', b.toNat = 48 + b' := ⟨b.toNat - 48, by omega⟩
  obtain ⟨c', hc'⟩ : ∃ c', c.toNat = 129 + c' := ⟨c.toNat - 129, by omega⟩
  obtain ⟨d', hd'⟩ : ∃ d', d.toNat = 48 + d' := ⟨d.toNat - 48, by omega⟩
  have hindex : fourbyteIndex a b c d = (12600 * a' + 1260 * b' + 10 * c' + d' : ℕ) := by
    simp only [fourbyteIndex, ha', hb', hc', hd']
    omega
  generalize hn : 12600 * a' + 1260 * b' + 10 * c' + d' = n at hindex
  have hpacked : first.toNat * 256 + second.toNat = n % 65536 := by
    simp only [fourbyteToTwobyte, hindex, List.cons.injEq, eq_ofNat_iff, and_true] at hpack
    omega
  have hrange : n % 65536 < 65536 := Nat.mod_lt _ (by decide)
  have hsame : n % 65536 = n ↔ (n : ℤ) < 65536 := by omega
  rw [hindex, ← hsame]
  simp only [twobyteToFourbyte, hpacked, List.cons.injEq, eq_ofNat_iff, and_true, ha',
    hb', hc', hd']
  generalize n % 65536 = m at hrange
  have hone : 129 + m / 10 / 126 / 10 < 256 := by omega
  have htwo : 48 + m / 10 / 126 % 10 < 256 := by omega
  have hthree : 129 + m / 10 % 126 < 256 := by omega
  have hfour : 48 + m % 10 < 256 := by omega
  rw [mod_256_eq_iff hone, mod_256_eq_iff htwo, mod_256_eq_iff hthree, mod_256_eq_iff hfour]
  exact digits_eq_iff (by omega) (by omega) (by omega) hn

/-! ### Characters -/

namespace Code

def kind (c : Code) : Kind :=
  match c.bytes with
  | [_] => .ascii
  | [_, _] => .two
  | _ => .four

theorem kinds {P : Code → Prop}
    (ascii : ∀ (c : Code) (a : UInt8), c.bytes = [a] → c.kind = .ascii → isASCII a = true → P c)
    (two : ∀ (c : Code) (a b : UInt8), c.bytes = [a, b] → c.kind = .two →
      isgb18030_2 a b = true → P c)
    (four : ∀ (c : Code) (a b a' b' : UInt8), c.bytes = [a, b, a', b'] → c.kind = .four →
      isgb18030_4 a b a' b' = true → P c) (c : Code) : P c := by
  obtain ⟨bytes, valid⟩ := c
  match bytes, valid with
  | [a], h => exact ascii _ a rfl rfl h
  | [a, b], h => exact two _ a b rfl rfl h
  | [a, b, a', b'], h => exact four _ a b a' b' rfl rfl h

theorem length_bytes (c : Code) : c.bytes.length = c.kind.width := by
  cases c using Code.kinds with
  | ascii c a hbytes hkind | two c a b hbytes hkind | four c a b a' b' hbytes hkind =>
    rw [hbytes, hkind]
    rfl

theorem kind_ne_unknown (c : Code) : c.kind ≠ .unknown := by
  cases c using Code.kinds with
  | ascii c a hbytes hkind | two c a b hbytes hkind | four c a b a' b' hbytes hkind =>
    rw [hkind]
    exact Kind.noConfusion

/-- What `gb18030_mbstocs` writes for a character. -/
def packed (c : Code) : List UInt8 := c.kind.convert c.bytes

theorem length_packed (c : Code) : c.packed.length = c.kind.size := by
  unfold packed
  cases c using Code.kinds with
  | ascii c a hbytes hkind | two c a b hbytes hkind | four c a b a' b' hbytes hkind =>
    rw [hbytes, hkind]
    rfl

/-- What `gb18030_cstombs` writes for the two bytes of a packed four-byte code. -/
def unpacked : List UInt8 → List UInt8
  | [first, second] => twobyteToFourbyte first second
  | _ => []

/-- The number of a four-byte code. -/
def index (c : Code) : ℤ :=
  match c.bytes with
  | [a, b, a', b'] => fourbyteIndex a b a' b'
  | _ => 0

theorem unpacked_packed_iff {c : Code} (hkind : c.kind = .four) :
    unpacked c.packed = c.bytes ↔ c.index < 65536 := by
  cases c using Code.kinds with
  | ascii c a hbytes hascii | two c a b hbytes hascii =>
    rw [hascii] at hkind
    cases hkind
  | four c a b a' b' hbytes hfour hcode =>
    rw [packed, index, hfour, hbytes]
    exact twobyteToFourbyte_eq_iff hcode rfl

theorem kindOf_append (c : Code) (rest : List UInt8) : kindOf (c.bytes ++ rest) = some c.kind := by
  unfold kindOf
  cases c using Code.kinds with
  | ascii c a hbytes hkind hascii =>
    rw [hbytes, hkind]
    simp only [isASCII, isgb18030_2Tests, isgb18030_4Tests, List.cons_append, testAll] at hascii ⊢
    grind
  | two c a b hbytes hkind hcode =>
    rw [hbytes, hkind]
    simp only [isgb18030_2, isgb18030_2Tests, List.cons_append, testAll] at hcode ⊢
    grind
  | four c a b a' b' hbytes hkind hcode =>
    rw [hbytes, hkind]
    simp only [isgb18030_4, isgb18030_2Tests, isgb18030_4Tests, List.cons_append,
      testAll] at hcode ⊢
    grind

end Code

/-! ### Segments -/

theorem drop_bytes (c : Code) (rest : List UInt8) : (c.bytes ++ rest).drop c.kind.width = rest := by
  rw [← c.length_bytes, List.drop_left]

theorem convert_bytes (c : Code) (rest : List UInt8) :
    c.kind.convert (c.bytes ++ rest) = c.packed := by
  unfold Code.packed
  cases c using Code.kinds with
  | ascii c a hbytes hkind | two c a b hbytes hkind | four c a b a' b' hbytes hkind =>
    rw [hbytes, hkind]
    rfl

/-- What `gb18030_mbstocs` writes for some characters. -/
def packedString (cs : List Code) : List UInt8 := cs.flatMap Code.packed

theorem packedString_cons (c : Code) (cs : List Code) :
    packedString (c :: cs) = c.packed ++ packedString cs :=
  List.flatMap_cons

theorem codeString_append (cs ds : List Code) :
    codeString (cs ++ ds) = codeString cs ++ codeString ds :=
  List.flatMap_append

theorem codeString_ne_nil {cs : List Code} (h : cs ≠ []) : codeString cs ≠ [] := by
  obtain ⟨c, cs, rfl⟩ := List.exists_cons_of_ne_nil h
  rw [codeString_cons]
  exact List.append_ne_nil_of_left_ne_nil (List.ne_nil_of_length_pos c.length_bytes_pos) _

theorem flag_inj {kind other : Kind} (h : kind.flag = other.flag) : kind = other := by
  cases kind <;> cases other <;> first | rfl | exact absurd h (by decide)

theorem flag_ne_zero {kind : Kind} (hknown : kind ≠ .unknown) : kind.flag ≠ 0 :=
  fun h ↦ hknown (flag_inj h)

/-- The loop of `gb18030_mbstocs` takes the characters of one kind. -/
theorem mbstocsLoop_run (locale : Locale) {kind : Kind} (hknown : kind ≠ .unknown)
    {run rest : List Code}
    (hrun : ∀ c ∈ run, c.kind = kind) (hrest : ∀ c ∈ rest.head?, c.kind ≠ kind) {state : CSState}
    (hsome : run ++ rest ≠ []) (hsrc : state.src = codeString (run ++ rest))
    (hfromLeft : state.fromLeft = state.src.length)
    (hflag : state.flag = kind.flag ∨ state.flag = 0 ∧ run ≠ [])
    (hcharset : state.charset = some (locale.charset kind) ∨ run ≠ [])
    (hroom : (packedString run).length ≤ state.toLeft) :
    ∃ last, mbstocsLoop locale.lcd state = .returns last ∧ last.src = codeString rest ∧
      last.written = state.written ++ packedString run ∧
      last.charset = some (locale.charset kind) := by
  have hle : state.flag ≤ 3 := by
    obtain hflag | ⟨hflag, -⟩ := hflag
    · exact hflag ▸ kind.flag_le
    · omega
  induction run generalizing state with
  | nil =>
    obtain ⟨c, rest, rfl⟩ := List.exists_cons_of_ne_nil hsome
    have hother := hrest c rfl
    have hsettled := hflag.resolve_right fun h ↦ h.2 rfl
    have hkind : kindOf state.src = some c.kind := by
      rw [hsrc, List.nil_append, codeString_cons, c.kindOf_append]
    have hturn := mbstocsTurn_eq locale hkind c.kind_ne_unknown hle
    rw [hsettled, if_pos ⟨flag_ne_zero hknown, fun h ↦ hother (flag_inj h).symm⟩] at hturn
    refine ⟨state, ?_, hsrc, ?_, hcharset.resolve_right fun h ↦ h rfl⟩
    · rw [mbstocsLoop, hturn]
    · rw [packedString, List.flatMap_nil, List.append_nil]
  | cons c run ih =>
    have hsame : c.kind = kind := hrun c List.mem_cons_self
    have hbytes : state.src = c.bytes ++ codeString (run ++ rest) := by
      rw [hsrc, List.cons_append, codeString_cons]
    have hkind : kindOf state.src = some kind := by rw [hbytes, c.kindOf_append, hsame]
    have hdrop : state.src.drop kind.width = codeString (run ++ rest) := by
      rw [hbytes, ← hsame, drop_bytes]
    have hconvert : kind.convert state.src = c.packed := by rw [hbytes, ← hsame, convert_bytes]
    have hlength := congrArg List.length hbytes
    have hpacked := c.length_packed
    rw [List.length_append, c.length_bytes, hsame] at hlength
    rw [hsame] at hpacked
    rw [packedString_cons, List.length_append, hpacked] at hroom
    have hturn := mbstocsTurn_eq locale hkind hknown hle
    rw [if_neg (by rintro ⟨hzero, hne⟩; exact hflag.elim hne fun h ↦ hzero h.1),
      if_pos (by omega)] at hturn
    generalize hnext : (state.settle kind (locale.charset kind)).take kind = next at hturn
    have hnextSrc : next.src = codeString (run ++ rest) := by rw [← hnext, ← hdrop]; rfl
    have hnextLeft : next.fromLeft = next.src.length := by
      rw [hnextSrc, ← hnext]
      simp only [CSState.take, CSState.settle]
      omega
    have hnextWritten : next.written = state.written ++ c.packed := by rw [← hnext, ← hconvert]; rfl
    have hnextCharset : next.charset = some (locale.charset kind) := by rw [← hnext]; rfl
    have hnextFlag : next.flag = kind.flag := by rw [← hnext]; rfl
    by_cases hend : run ++ rest = []
    · obtain ⟨rfl, rfl⟩ := List.append_eq_nil_iff.mp hend
      have hempty : next.src = [] := hnextSrc
      rw [CSState.endTurn, if_pos (by rw [hnextLeft, hempty]; exact Int.le_refl 0)] at hturn
      refine ⟨next, ?_, hnextSrc, ?_, hnextCharset⟩
      · rw [mbstocsLoop, hturn]
      · rw [hnextWritten, packedString_cons, packedString, List.flatMap_nil, List.append_nil]
    · have hpos := List.length_pos_of_ne_nil (codeString_ne_nil hend)
      rw [CSState.endTurn, if_neg (by rw [hnextLeft, hnextSrc]; omega)] at hturn
      have hnextRoom : (packedString run).length ≤ next.toLeft := by
        rw [← hnext]
        simp only [CSState.take, CSState.settle]
        omega
      obtain ⟨last, hlast, hlastSrc, hlastWritten, hlastCharset⟩ :=
        ih (fun c hc ↦ hrun c (List.mem_cons_of_mem _ hc)) hend hnextSrc hnextLeft
          (Or.inl hnextFlag)
          (Or.inl hnextCharset) hnextRoom (hnextFlag ▸ kind.flag_le)
      refine ⟨last, ?_, hlastSrc, ?_, hlastCharset⟩
      · rw [mbstocsLoop, hturn]
        exact hlast
      · rw [hlastWritten, hnextWritten, packedString_cons, List.append_assoc]

variable {c : Code}

theorem packed_eq_bytes (hkind : c.kind ≠ .four) : c.packed = c.bytes := by
  unfold Code.packed
  cases c using Code.kinds with
  | ascii c a hbytes hascii | two c a b hbytes hascii =>
    rw [hbytes, hascii]
    rfl
  | four c a b a' b' hbytes hfour => exact absurd hfour hkind

theorem isgb18030_2Tests_append (c : Code) (rest : List UInt8) (hkind : c.kind = .two) :
    testAll isgb18030_2Tests (c.bytes ++ rest) = some true := by
  cases c using Code.kinds with
  | two c a b hbytes htwo hcode =>
    rw [hbytes]
    simp only [isgb18030_2, isgb18030_2Tests, List.cons_append, testAll] at hcode ⊢
    grind
  | ascii c a hbytes hother | four c a b a' b' hbytes hother =>
    rw [hother] at hkind
    cases hkind

theorem asciiTests_append (c : Code) (rest : List UInt8) (hkind : c.kind = .ascii) :
    testAll isgb18030_2Tests (c.bytes ++ rest) = some false ∧
    testAll [isASCII] (c.bytes ++ rest) = some true := by
  cases c using Code.kinds with
  | ascii c a hbytes hother hascii =>
    rw [hbytes]
    simp only [isASCII, isgb18030_2Tests, List.cons_append, testAll] at hascii ⊢
    grind
  | two c a b hbytes hother | four c a b a' b' hbytes hother =>
    rw [hother] at hkind
    cases hkind

/-- One turn of the loop of `gb18030_cstombs` at a character that is not packed copies it. -/
theorem cstombsTurn_plain {codeset : CodeSet} (hcodeset : codeset.wcEncoding ≠ 0x5e84)
    {state : CombineState}
    {rest : List UInt8} (hkind : c.kind ≠ .four) (hsrc : state.src = c.bytes ++ rest)
    (hfromLeft : state.fromLeft = state.src.length) (hroom : c.bytes.length ≤ state.toLeft) :
    cstombsTurn codeset state =
      CombineState.endTurn ⟨rest, state.fromLeft, state.written ++ c.bytes,
        state.toLeft - c.bytes.length, state.unconvNum⟩ c.bytes.length := by
  have hdrop : ∀ n, c.bytes.length = n → state.src.drop n = rest ∧ state.src.take n = c.bytes := by
    rintro n rfl
    rw [hsrc]
    exact ⟨List.drop_left, List.take_left⟩
  have hlength := congrArg List.length hsrc
  rw [List.length_append] at hlength
  unfold cstombsTurn
  rw [if_neg hcodeset]
  cases hk : c.kind with
  | two =>
    have htwo : c.bytes.length = 2 := by rw [c.length_bytes, hk]; rfl
    rw [hsrc, isgb18030_2Tests_append c rest hk, ← hsrc]
    dsimp only
    rw [if_pos (by omega), (hdrop 2 htwo).1, (hdrop 2 htwo).2, htwo]
    rfl
  | ascii =>
    have hone : c.bytes.length = 1 := by rw [c.length_bytes, hk]; rfl
    rw [hsrc, (asciiTests_append c rest hk).1, (asciiTests_append c rest hk).2, ← hsrc]
    dsimp only
    rw [if_pos (by omega), (hdrop 1 hone).1, (hdrop 1 hone).2, hone]
    rfl
  | four => exact absurd hk hkind
  | unknown => exact absurd hk c.kind_ne_unknown

variable {run : List Code}

/-- The loop of `gb18030_cstombs` copies a segment of characters that are not packed. -/
theorem cstombsLoop_plain {codeset : CodeSet} (hcodeset : codeset.wcEncoding ≠ 0x5e84)
    (hrun : ∀ c ∈ run, c.kind ≠ .four) (hsome : run ≠ []) {state : CombineState}
    (hsrc : state.src = codeString run)
    (hfromLeft : state.fromLeft = state.src.length)
    (hroom : (codeString run).length ≤ state.toLeft) :
    ∃ last, cstombsLoop codeset state = .returns last ∧
    last.written = state.written ++ codeString run := by
  induction run generalizing state with
  | nil => exact absurd rfl hsome
  | cons c run ih =>
    rw [codeString_cons] at hsrc
    rw [codeString_cons, List.length_append] at hroom
    have hlength := congrArg List.length hsrc
    rw [List.length_append] at hlength
    have hturn := cstombsTurn_plain hcodeset (hrun c List.mem_cons_self) hsrc hfromLeft (by omega)
    unfold CombineState.endTurn at hturn
    dsimp only at hturn
    rw [cstombsLoop]
    by_cases hend : run = []
    · subst hend
      rw [if_pos (by rw [hfromLeft, hlength, codeString, List.flatMap_nil,
        List.length_nil]; omega)] at hturn
      rw [hturn, codeString_cons, codeString, List.flatMap_nil, List.append_nil]
      exact ⟨_, rfl, rfl⟩
    · have hpos := List.length_pos_of_ne_nil (codeString_ne_nil hend)
      rw [if_neg (by omega)] at hturn
      rw [hturn]
      generalize hnext : (⟨codeString run, state.fromLeft - c.bytes.length,
        state.written ++ c.bytes,
        state.toLeft - c.bytes.length, state.unconvNum⟩ : CombineState) = next
      have hnextSrc : next.src = codeString run := by rw [← hnext]
      have hnextLeft : next.fromLeft = next.src.length := by
        rw [← hnext]
        dsimp only
        omega
      have hnextRoom : (codeString run).length ≤ next.toLeft := by
        rw [← hnext]
        dsimp only
        omega
      obtain ⟨last, hlast, hwritten⟩ :=
        ih (fun c hc ↦ hrun c (List.mem_cons_of_mem _ hc)) hend hnextSrc hnextLeft hnextRoom
      exact ⟨last, hlast, by rw [hwritten, ← hnext, codeString_cons, List.append_assoc]⟩

/-- The loop of `gb18030_cstombs` repeats the first character of a packed segment. -/
theorem cstombsLoop_packed {codeset : CodeSet} (hcodeset : codeset.wcEncoding = 0x5e84)
    {first second : UInt8}
    {rest : List UInt8} {n : ℕ} {state : CombineState} (hsrc : state.src = first :: second :: rest)
    (hfromLeft : state.fromLeft = 2 * (n + 1)) (hroom : 4 * (n + 1) ≤ state.toLeft) :
    ∃ last, cstombsLoop codeset state = .returns last ∧
      last.written = state.written ++
      (List.replicate (n + 1) (twobyteToFourbyte first second)).flatten := by
  induction n generalizing state with
  | zero =>
    have hturn : cstombsTurn codeset state = .stop
        { state with
          fromLeft := state.fromLeft - 2
          written := state.written ++ twobyteToFourbyte first second
          toLeft := state.toLeft - 4 } := by
      unfold cstombsTurn CombineState.endTurn
      rw [if_pos hcodeset, if_pos (by omega), hsrc]
      exact if_pos (by dsimp only; omega)
    rw [cstombsLoop, hturn]
    exact ⟨_, rfl, by simp⟩
  | succ n ih =>
    have hturn : cstombsTurn codeset state = .next
        { state with
          fromLeft := state.fromLeft - 2
          written := state.written ++ twobyteToFourbyte first second
          toLeft := state.toLeft - 4 } := by
      unfold cstombsTurn CombineState.endTurn
      rw [if_pos hcodeset, if_pos (by omega), hsrc]
      exact if_neg (by dsimp only; omega)
    rw [cstombsLoop, hturn]
    dsimp only
    generalize hnext : ({ state with
      fromLeft := state.fromLeft - 2
      written := state.written ++ twobyteToFourbyte first second
      toLeft := state.toLeft - 4 } : CombineState) = next
    have hnextSrc : next.src = first :: second :: rest := by rw [← hnext, hsrc]
    have hnextLeft : next.fromLeft = 2 * (n + 1) := by
      rw [← hnext]
      dsimp only
      omega
    have hnextRoom : 4 * (n + 1) ≤ next.toLeft := by
      rw [← hnext]
      dsimp only
      omega
    obtain ⟨last, hlast, hwritten⟩ := ih hnextSrc hnextLeft hnextRoom
    refine ⟨last, hlast, ?_⟩
    rw [hwritten, ← hnext, List.replicate_succ (n := n + 1), List.flatten_cons, List.append_assoc]

/-! ### Whole strings -/

/-- What comes back of some characters, where `first` is what has come back of the first character
of the packed segment that is being taken. -/
def returned : Option (List UInt8) → List Code → List UInt8
  | _, [] => []
  | first, c :: cs =>
    if c.kind = .four then
      first.getD (Code.unpacked c.packed) ++ returned
        (some (first.getD (Code.unpacked c.packed))) cs
    else c.bytes ++ returned none cs

theorem returned_plain (hrun : ∀ c ∈ run, c.kind ≠ .four) (rest : List Code) :
    returned none (run ++ rest) = codeString run ++ returned none rest := by
  induction run with
  | nil => rfl
  | cons c run ih =>
    rw [List.cons_append, returned, if_neg (hrun c List.mem_cons_self), codeString_cons,
      List.append_assoc, ih fun c hc ↦ hrun c (List.mem_cons_of_mem _ hc)]

theorem returned_packed {run rest : List Code} (hrun : ∀ c ∈ run, c.kind = .four)
    (hrest : ∀ c ∈ rest.head?, c.kind ≠ .four) (first : List UInt8) :
    returned (some first) (run ++ rest) = (List.replicate run.length first).flatten ++
    returned none rest := by
  induction run with
  | nil =>
    cases rest with
    | nil => rfl
    | cons c rest =>
      rw [List.nil_append, returned, if_neg (hrest c rfl), returned, if_neg (hrest c rfl)]
      rfl
  | cons c run ih =>
    rw [List.cons_append, returned, if_pos (hrun c List.mem_cons_self), Option.getD_some,
      ih fun c hc ↦ hrun c (List.mem_cons_of_mem _ hc), List.length_cons, List.replicate_succ,
        List.flatten_cons,
      List.append_assoc]

theorem length_packedString_le (cs : List Code) :
    (packedString cs).length ≤ (codeString cs).length := by
  induction cs with
  | nil => exact Nat.le_refl _
  | cons c cs ih =>
    have hsize : c.kind.size ≤ c.kind.width := by cases c.kind <;> decide
    rw [packedString_cons, codeString_cons, List.length_append, List.length_append, c.length_packed,
      c.length_bytes]
    omega

theorem length_of_kind {kind : Kind} (hrun : ∀ c ∈ run, c.kind = kind) :
    (codeString run).length = kind.width * run.length ∧
    (packedString run).length = kind.size * run.length := by
  induction run with
  | nil => exact ⟨rfl, rfl⟩
  | cons c run ih =>
    have hc := hrun c List.mem_cons_self
    obtain ⟨hcode, hpacked⟩ := ih fun c hc ↦ hrun c (List.mem_cons_of_mem _ hc)
    rw [codeString_cons, packedString_cons, List.length_append, List.length_append, c.length_packed,
      c.length_bytes, hcode, hpacked, hc, List.length_cons, Nat.mul_succ, Nat.mul_succ]
    omega

/-- What `gb18030_cstombs` makes of a segment. -/
theorem cstombs_segment (locale : Locale) (hrun : ∀ d ∈ c :: run, d.kind = c.kind)
    {rest : List Code} (hrest : ∀ d ∈ rest.head?, d.kind ≠ c.kind) {room : ℤ}
    (hroom : (codeString (c :: run)).length ≤ room) :
    ∃ back, cstombs locale.lcd (locale.charset c.kind) (packedString (c :: run)) room =
    .returns back ∧
      returned none (c :: run ++ rest) = back.written ++ returned none rest := by
  have hcodeset := locale.wcEncoding_eq c.kind c.kind_ne_unknown
  obtain ⟨hcode, hpacked⟩ := length_of_kind hrun
  unfold cstombs
  rw [locale.codeset_eq c.kind c.kind_ne_unknown]
  by_cases hfour : c.kind = .four
  · have hlength : c.packed.length = 2 := by rw [c.length_packed, hfour]; rfl
    obtain ⟨first, second, hpair⟩ := List.length_eq_two.mp hlength
    have hwidth : c.kind.width = 4 := by rw [hfour]; rfl
    have hsize : c.kind.size = 2 := by rw [hfour]; rfl
    rw [hsize, List.length_cons] at hpacked
    rw [hwidth, List.length_cons] at hcode
    have hsrc : packedString (c :: run) = first :: second :: packedString run := by
      rw [packedString_cons, hpair]
      rfl
    have hleft : ((packedString (c :: run)).length : ℤ) = 2 * (run.length + 1) := by omega
    have hspace : 4 * ((run.length : ℤ) + 1) ≤ room := by omega
    obtain ⟨last, hlast, hwritten⟩ : ∃ last, cstombsLoop (locale.codeset c.kind)
        ⟨packedString (c :: run), (packedString (c :: run)).length, [], room, 0⟩ = .returns last ∧
        last.written = [] ++ (List.replicate (run.length + 1)
            (twobyteToFourbyte first second)).flatten :=
      cstombsLoop_packed (hcodeset.mpr hfour) hsrc hleft hspace
    dsimp only
    rw [hlast]
    refine ⟨_, rfl, ?_⟩
    dsimp only
    rw [hwritten, List.cons_append, returned, if_pos hfour, Option.getD_none, hpair,
      returned_packed (fun d hd ↦ (hrun d (List.mem_cons_of_mem _ hd)).trans hfour) (hfour ▸ hrest),
      List.nil_append, List.replicate_succ, List.flatten_cons, List.append_assoc]
    rfl
  · have hplain : ∀ d ∈ c :: run, d.kind ≠ .four := fun d hd ↦ hrun d hd ▸ hfour
    have hsame : packedString (c :: run) = codeString (c :: run) :=
      List.flatMap_congr fun d hd ↦ packed_eq_bytes (hplain d hd)
    obtain ⟨last, hlast, hwritten⟩ : ∃ last, cstombsLoop (locale.codeset c.kind)
        ⟨codeString (c :: run), (codeString (c :: run)).length, [], room, 0⟩ = .returns last ∧
        last.written = [] ++ codeString (c :: run) :=
      cstombsLoop_plain (fun h ↦ hfour (hcodeset.mp h)) hplain (List.cons_ne_nil _ _) rfl rfl hroom
    rw [hsame]
    dsimp only
    rw [hlast]
    refine ⟨_, rfl, ?_⟩
    rw [returned_plain hplain]
    dsimp only
    rw [hwritten, List.nil_append]

/-- The characters of one kind at the start of a string, and what is behind them. -/
theorem exists_run (c : Code) (cs : List Code) :
    ∃ run rest, cs = run ++ rest ∧ (∀ d ∈ c :: run, d.kind = c.kind) ∧ ∀ d ∈ rest.head?,
    d.kind ≠ c.kind := by
  refine ⟨cs.takeWhile fun d ↦ d.kind = c.kind, cs.dropWhile fun d ↦ d.kind = c.kind,
    List.takeWhile_append_dropWhile.symm, ?_, ?_⟩
  · intro d hd
    obtain rfl | hd := List.mem_cons.mp hd
    · rfl
    · have hsame := List.mem_takeWhile_imp hd
      exact of_decide_eq_true hsame
  · intro d hd
    have hnot := List.head?_dropWhile_not (fun d : Code ↦ decide (d.kind = c.kind)) cs
    rw [Option.mem_def.mp hd] at hnot
    simpa using hnot

/-- What `gb18030_mbstocs` makes of a string: the segment of the characters of one kind at its
start. -/
theorem mbstocs_segment (locale : Locale) {run rest : List Code}
    (hrun : ∀ d ∈ c :: run, d.kind = c.kind) (hrest : ∀ d ∈ rest.head?, d.kind ≠ c.kind) {room : ℤ}
    (hroom : (codeString (c :: run ++ rest)).length ≤ room) :
    ∃ segment, mbstocs locale.lcd (codeString (c :: run ++ rest)) room = .returns segment ∧
      segment.charset = some (locale.charset c.kind) ∧ segment.written = packedString (c :: run) ∧
      (codeString (c :: run ++ rest)).drop segment.read = codeString rest := by
  have hpacked := length_packedString_le (c :: run)
  have hlength : (codeString (c :: run ++ rest)).length = _ :=
    congrArg List.length (codeString_append _ _)
  rw [List.length_append] at hlength
  have hspace : ((packedString (c :: run)).length : ℤ) ≤ room := by omega
  obtain ⟨last, hlast, hsrc, hwritten, hcharset⟩ : ∃ last, mbstocsLoop locale.lcd
      ⟨codeString (c :: run ++ rest), (codeString (c :: run ++ rest)).length, [], room,
        0, 0, none⟩ =
        .returns last ∧ last.src = codeString rest ∧ last.written = [] ++ packedString (c :: run) ∧
        last.charset = some (locale.charset c.kind) :=
    mbstocsLoop_run locale c.kind_ne_unknown hrun hrest (List.cons_ne_nil _ _) rfl rfl
      (Or.inr ⟨rfl, List.cons_ne_nil _ _⟩) (Or.inr (List.cons_ne_nil _ _)) hspace
  unfold mbstocs
  rw [hlast]
  refine ⟨_, rfl, hcharset, hwritten, ?_⟩
  dsimp only
  rw [hsrc, hlength, Nat.add_sub_cancel, codeString_append, List.drop_left]

/-- What comes back of a string. -/
theorem transcode_eq (locale : Locale) (cs : List Code) {fuel : ℕ}
    (hfuel : (codeString cs).length ≤ fuel) {room : ℤ} (hroom : (codeString cs).length ≤ room) :
    transcode locale.lcd room fuel (codeString cs) = some (returned none cs) := by
  induction fuel generalizing cs with
  | zero =>
    obtain rfl : cs = [] := by
      by_contra hne
      exact codeString_ne_nil hne (List.length_eq_zero_iff.mp (Nat.le_zero.mp hfuel))
    rfl
  | succ fuel ih =>
    cases cs with
    | nil => rfl
    | cons c cs =>
      obtain ⟨run, rest, rfl, hrun, hrest⟩ := exists_run c cs
      rw [← List.cons_append] at hfuel hroom ⊢
      obtain ⟨segment, hsegment, hcharset, hwritten, hdrop⟩ :=
        mbstocs_segment locale hrun hrest hroom
      rw [codeString_append, List.length_append] at hfuel hroom
      have hpos := List.length_pos_of_ne_nil (codeString_ne_nil (List.cons_ne_nil c run))
      obtain ⟨back, hback, hreturned⟩ := cstombs_segment locale hrun hrest (show _ ≤ room by omega)
      obtain ⟨byte, bytes, hsrc⟩ := List.exists_cons_of_ne_nil
        (codeString_ne_nil (show c :: run ++ rest ≠ [] from List.cons_ne_nil _ _))
      have hstep : transcode locale.lcd room (fuel + 1) (codeString (c :: run ++ rest)) =
          (transcode locale.lcd room fuel (codeString rest)).map fun rest ↦
              back.written ++ rest := by
        rw [hsrc, transcode, ← hsrc, hsegment]
        dsimp only
        rw [hcharset]
        dsimp only
        rw [hwritten, hback]
        dsimp only
        rw [hdrop]
      rw [hstep, ih rest (by omega) (by omega), Option.map_some, hreturned]

/-! ### What survives -/

/-- The number of a four-byte code fits in two bytes. -/
def Fits (c : Code) : Prop := c.kind = .four → c.index < 65536

/-- Two neighbours are the same character, if they are four-byte codes. -/
def Repeats (c d : Code) : Prop := c.kind = .four → d.kind = .four → c.bytes = d.bytes

theorem length_unpacked (hkind : c.kind = .four) :
    (Code.unpacked c.packed).length = c.bytes.length := by
  cases c using Code.kinds with
  | ascii c a hbytes hother | two c a b hbytes hother =>
    rw [hother] at hkind
    cases hkind
  | four c a b a' b' hbytes hfour =>
    rw [Code.packed, hfour, hbytes]
    rfl

/-- Behind a four-byte code that has come back, another one comes back if it is the same. -/
theorem returned_some_iff (hkind : c.kind = .four) (hback : Code.unpacked c.packed = c.bytes)
    (cs : List Code) :
    returned (some c.bytes) cs = codeString cs ↔
      (∀ d ∈ cs.head?, Repeats c d) ∧ returned none cs = codeString cs := by
  cases cs with
  | nil => simp [returned, codeString]
  | cons d cs =>
    have hhead : (∀ e ∈ (d :: cs).head?, Repeats c e) ↔ Repeats c d := by simp
    rw [hhead]
    by_cases hd : d.kind = .four
    · have hlength : c.bytes.length = d.bytes.length := by
        rw [c.length_bytes, d.length_bytes, hkind, hd]
      have hrepeats : Repeats c d ↔ c.bytes = d.bytes := ⟨fun h ↦ h hkind hd, fun h _ _ ↦ h⟩
      have hsame : c.bytes = d.bytes → Code.unpacked d.packed = c.bytes := by
        intro h
        rw [← hback, Code.packed, Code.packed, hd, hkind, h]
      rw [hrepeats, returned, if_pos hd, returned, if_pos hd, codeString_cons, Option.getD_some,
        Option.getD_none]
      constructor
      · intro h
        obtain ⟨hbytes, hrest⟩ := List.append_inj h hlength
        refine ⟨hbytes, ?_⟩
        rw [hsame hbytes, hrest, hbytes]
      · rintro ⟨hbytes, h⟩
        rwa [hsame hbytes] at h
    · have hrepeats : Repeats c d := fun _ h ↦ absurd h hd
      rw [returned, if_neg hd, returned, if_neg hd, iff_true_intro hrepeats, true_and]

theorem returned_eq_iff (cs : List Code) :
    returned none cs = codeString cs ↔ (∀ c ∈ cs, Fits c) ∧ cs.IsChain Repeats := by
  induction cs with
  | nil => simp [returned, codeString]
  | cons c cs ih =>
    rw [List.forall_mem_cons, List.isChain_cons, returned, codeString_cons]
    by_cases hkind : c.kind = .four
    · have hfits : Fits c ↔ Code.unpacked c.packed = c.bytes := by
        rw [Code.unpacked_packed_iff hkind]
        exact ⟨fun h ↦ h hkind, fun h _ ↦ h⟩
      rw [if_pos hkind, Option.getD_none, hfits]
      constructor
      · intro h
        obtain ⟨hback, hrest⟩ := List.append_inj h (length_unpacked hkind)
        rw [hback, returned_some_iff hkind hback, ih] at hrest
        exact ⟨⟨hback, hrest.2.1⟩, hrest.1, hrest.2.2⟩
      · rintro ⟨⟨hback, hfit⟩, hhead, hchain⟩
        rw [hback, (returned_some_iff hkind hback cs).mpr ⟨hhead, ih.mpr ⟨hfit, hchain⟩⟩]
    · have hfits : Fits c := fun h ↦ absurd h hkind
      have hhead : ∀ d ∈ cs.head?, Repeats c d := fun d _ h ↦ absurd h hkind
      rw [if_neg hkind, List.append_cancel_left_eq, ih]
      simp only [iff_true_intro hfits, iff_true_intro hhead, true_and]

/-- A string comes back from its segments exactly where all its four-byte codes have numbers less
than 2^16 and those that follow one another are the same. -/
theorem transcode_iff (locale : Locale) (cs : List Code) (room : ℤ)
    (hroom : (codeString cs).length ≤ room) :
    transcode locale.lcd room (codeString cs).length (codeString cs) = some (codeString cs) ↔
      (∀ c ∈ cs, Fits c) ∧ cs.IsChain Repeats := by
  rw [transcode_eq locale cs (Nat.le_refl _) hroom, Option.some.injEq]
  exact returned_eq_iff cs

theorem isCode_first : IsCode [0x81, 0x30, 0x81, 0x30] := rfl

theorem isCode_letter : IsCode [0x61] := rfl

theorem isCode_hanzi : IsCode [0xB0, 0xA1] := rfl

theorem isCode_second : IsCode [0x81, 0x30, 0x81, 0x31] := rfl

/-- A letter, a code of four bytes twice, and one of two bytes. -/
theorem transcode_iff_mixed :
    transcode plainLocale.lcd 11 11 [0x61, 0x81, 0x30, 0x81, 0x30, 0x81, 0x30, 0x81, 0x30,
      0xB0, 0xA1] =
      some [0x61, 0x81, 0x30, 0x81, 0x30, 0x81, 0x30, 0x81, 0x30, 0xB0, 0xA1] := by
  refine (transcode_iff plainLocale [⟨[0x61], isCode_letter⟩,
    ⟨[0x81, 0x30, 0x81, 0x30], isCode_first⟩,
    ⟨[0x81, 0x30, 0x81, 0x30], isCode_first⟩,
      ⟨[0xB0, 0xA1], isCode_hanzi⟩] 11 (by decide)).mpr ⟨?_, ?_⟩
  · intro c hc _
    simp only [List.mem_cons, List.not_mem_nil, or_false] at hc
    rcases hc with rfl | rfl | rfl | rfl <;> decide
  · exact .cons_cons (fun hkind ↦ by cases hkind) (.cons_cons (fun _ _ ↦ rfl)
      (.cons_cons (fun _ hkind ↦ by cases hkind) (List.isChain_singleton _)))

/-- Two four-byte codes, one behind the other. -/
theorem not_transcode_two :
    ¬ ∀ (locale : Locale) (cs : List Code) (room : ℤ), (codeString cs).length ≤ room →
      transcode locale.lcd room (codeString cs).length (codeString cs) = some (codeString cs) := by
  intro h
  have htwo := h plainLocale [⟨[0x81, 0x30, 0x81, 0x30], isCode_first⟩,
    ⟨[0x81, 0x30, 0x81, 0x31], isCode_second⟩] 8
    (by decide)
  rw [transcode_eq plainLocale _ (Nat.le_refl _) (by decide)] at htwo
  exact absurd (Option.some.inj htwo) (by decide)

end Userland.X11.GB18030
