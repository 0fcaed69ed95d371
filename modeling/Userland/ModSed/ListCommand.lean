import Mathlib.Data.List.Basic
import Mathlib.Data.Int.Notation

/-!
# The l command

The `LCOM` branch of `command` in `mod_sed/sed1.c`: the pattern space is rendered byte by byte in
the general buffer, which is written with a backslash at the end each time 71 characters are in it.
No line is longer than 72 characters, and without the folds the lines are the rendering of the
pattern space, but for the first octal digit of a byte from 128 on where `char` is signed
(`lcom_faithful_iff`).

Scope. The pattern space is the text of `linebuf` up to its NUL. What `isprint` says and what the
write function returns are parameters.
-/

set_option autoImplicit false
set_option relaxedAutoImplicit false

namespace Userland.ModSed

/-- The characters of a C string without the NUL at its end. -/
def chars (text : String) : List UInt8 := text.toList.map fun c ↦ UInt8.ofNat c.toNat

def trans : List String :=
  ["\\01", "\\02", "\\03", "\\04", "\\05", "\\06", "\\07", "\\10", "\\11", "\n", "\\13", "\\14",
    "\\15", "\\16", "\\17",
    "\\20", "\\21", "\\22", "\\23", "\\24", "\\25", "\\26", "\\27", "\\30", "\\31", "\\32", "\\33",
      "\\34", "\\35",
    "\\36", "\\37"]

def rub : String := "\\177"

/-- The index in `genbuf` of `lcomend`. -/
def LCOMEND : ℕ := 71

def BACKSLASH : UInt8 := 92

/-- The general buffer with the index of `p2`, and the lines that have been written. -/
structure ListState where
  genbuf : List UInt8
  p2 : ℕ
  lines : List (List UInt8)

/-- `*p1` as an `int`. -/
def charValue (charSigned : Bool) (byte : UInt8) : ℤ :=
  if charSigned ∧ 128 ≤ byte then byte.toNat - 256 else byte.toNat

/-- An `int` in a `char`. -/
def asChar (value : ℤ) : UInt8 := UInt8.ofNat (value % 256).toNat

/-- The backslash and the three digits for a byte that does not print. -/
def octalDigits (charSigned : Bool) (byte : UInt8) : List UInt8 :=
  [BACKSLASH, asChar (charValue charSigned byte / 64 + 48),
    asChar (charValue charSigned byte / 8 % 8 + 48), asChar (charValue charSigned byte % 8 + 48)]

section Command

variable (charSigned : Bool) (isprint : UInt8 → Bool) (status : ℕ → Bool)

/-- `rv = wline(eval, eval->genbuf, strlen(eval->genbuf))`; a status other than `APR_SUCCESS` ends
the command. -/
def wline (s : ListState) : Except ListState ListState :=
  let written := { s with lines := s.lines ++ [s.genbuf.takeWhile (· ≠ 0)] }
  if status s.lines.length then .ok written else .error written

/-- `*p2++ = c; if(p2 >= eval->lcomend) { *p2 = '\\'; rv = wline(...); p2 = eval->genbuf; }`. -/
def emit (s : ListState) (c : UInt8) : Except ListState ListState :=
  let s := { s with genbuf := s.genbuf.set s.p2 c, p2 := s.p2 + 1 }
  if s.p2 ≥ LCOMEND then
    wline status { s with genbuf := s.genbuf.set s.p2 BACKSLASH } >>= fun s ↦ .ok { s with p2 := 0 }
  else .ok s

/-- `while ((*p2++ = *p3++) != 0) if(p2 >= eval->lcomend) { ... } p2--;`. -/
def emitString (s : ListState) (p3 : List UInt8) : Except ListState ListState :=
  p3.foldlM (emit status) s >>= fun s ↦ .ok { s with genbuf := s.genbuf.set s.p2 0 }

/-- One turn of `while(*p1)`. -/
def listByte (s : ListState) (byte : UInt8) : Except ListState ListState :=
  if 0x20 ≤ byte then
    if byte = 0x7F then emitString status s (chars rub)
    else if isprint byte = false then (octalDigits charSigned byte).foldlM (emit status) s
    else emit status s byte
  else emitString status s (chars (trans.getD (byte.toNat - 1) ""))

/-- The `LCOM` branch of `command`. -/
def lcom (genbuf linebuf : List UInt8) : Except ListState ListState :=
  linebuf.foldlM (listByte charSigned isprint status) ⟨genbuf.set 72 0, 0, []⟩ >>= fun s ↦
    wline status { s with genbuf := s.genbuf.set s.p2 0 }

end Command

/-! ### What the command is to write -/

/-- The rendering of a byte, where an octal number is the value of the byte from 0 to 255. -/
def rendering (isprint : UInt8 → Bool) (byte : UInt8) : List UInt8 :=
  if byte < 0x20 then chars (trans.getD (byte.toNat - 1) "")
  else if byte = 0x7F then chars rub
  else if isprint byte then [byte]
  else [BACKSLASH, 48 + byte / 64, 48 + byte / 8 % 8, 48 + byte % 8]

/-- All the lines but the last end in a backslash that folds them, and without these they are a
text. -/
def Unfolds (lines : List (List UInt8)) (text : List UInt8) : Prop :=
  ∃ (parts : List (List UInt8)) (line : List UInt8),
    lines = parts.map (· ++ [BACKSLASH]) ++ [line] ∧ text = parts.flatten ++ line

/-- The lines that have been written, whether the command has ended early or not. -/
def written : Except ListState ListState → List (List UInt8)
  | .ok s => s.lines
  | .error s => s.lines

/-- No line is longer than 72 characters, and if every line could be written, then they are the
rendering. -/
structure Faithfully (isprint : UInt8 → Bool) (linebuf : List UInt8)
    (result : Except ListState ListState) : Prop where
  short : ∀ line ∈ written result, line.length ≤ 72
  unfolds : ∀ s, result = .ok s → Unfolds s.lines (linebuf.flatMap (rendering isprint))

theorem unfolds_unique {lines : List (List UInt8)} {text text' : List UInt8}
    (h : Unfolds lines text) (h' : Unfolds lines text') : text = text' := by
  obtain ⟨parts, line, hlines, rfl⟩ := h
  obtain ⟨parts', line', hlines', rfl⟩ := h'
  obtain ⟨hparts, hline⟩ := List.append_inj' (hlines.symm.trans hlines') rfl
  rw [List.map_injective_iff.mpr (List.append_left_injective [BACKSLASH]) hparts,
    (List.cons.inj hline).1]

/-! ### The rendering so far -/

/-- What has been rendered so far: the lines, each with 71 characters and a backslash, and what is
in the general buffer before `p2`. -/
structure Rendered (text : List UInt8) (s : ListState) : Prop where
  cur : s.p2 < LCOMEND
  room : s.genbuf[72]? = some 0
  nonzero : 0 ∉ s.genbuf.take s.p2
  folded : ∃ parts : List (List UInt8), s.lines = parts.map (· ++ [BACKSLASH]) ∧
    (∀ part ∈ parts, part.length = 71) ∧
    text = parts.flatten ++ s.genbuf.take s.p2

/-- A part of the command succeeds with some property, or it ends early, with short lines, because a
status was not `APR_SUCCESS`. -/
inductive Ends (status : ℕ → Bool) (P : ListState → Prop) : Except ListState ListState → Prop
  | ok {s : ListState} (h : P s) : Ends status P (.ok s)
  | error {s : ListState} (hshort : ∀ line ∈ s.lines, line.length ≤ 72) (hstatus : ∃ n,
      status n = false) :
      Ends status P (.error s)

variable {charSigned : Bool} {isprint : UInt8 → Bool} {status : ℕ → Bool} {P Q : ListState → Prop}
  {s : ListState} {text : List UInt8} {c byte : UInt8} {genbuf linebuf : List UInt8}

theorem Ends.bind {result : Except ListState ListState} {f : ListState → Except ListState ListState}
    (h : Ends status P result) (hf : ∀ s, P s → Ends status Q (f s)) :
    Ends status Q (result >>= f) := by
  cases h with
  | ok h => exact hf _ h
  | error hshort hstatus => exact .error hshort hstatus

theorem short_of_folded {parts : List (List UInt8)} (h : ∀ part ∈ parts, part.length = 71)
    {line : List UInt8} (hline : line ∈ parts.map (· ++ [BACKSLASH])) : line.length ≤ 72 := by
  obtain ⟨part, hpart, rfl⟩ := List.mem_map.mp hline
  rw [List.length_append, h part hpart]
  exact Nat.le_refl _

/-- A line that goes up to the first NUL. -/
theorem takeWhile_of_take {l : List UInt8} {n : ℕ} (hnonzero : 0 ∉ l.take n)
    (hend : l[n]? = some 0) :
    l.takeWhile (· ≠ 0) = l.take n := by
  obtain ⟨hlt, hget⟩ := List.getElem?_eq_some_iff.mp hend
  have hsplit : l = l.take n ++ 0 :: l.drop (n + 1) := by
    rw [← hget, List.getElem_cons_drop, List.take_append_drop]
  have hall : ∀ c ∈ l.take n, decide (c ≠ 0) = true :=
    fun c hc ↦ decide_eq_true fun hzero ↦ hnonzero (hzero ▸ hc)
  conv_lhs => rw [hsplit]
  rw [List.takeWhile_append_of_pos hall]
  exact List.append_nil _

theorem wline_ends (hline : (s.genbuf.takeWhile (· ≠ 0)).length ≤ 72)
    (hlines : ∀ line ∈ s.lines, line.length ≤ 72)
    (h : P { s with lines := s.lines ++ [s.genbuf.takeWhile (· ≠ 0)] }) :
    Ends status P (wline status s) := by
  unfold wline
  dsimp only
  by_cases hstatus : status s.lines.length = true
  · rw [if_pos hstatus]
    exact .ok h
  · rw [if_neg hstatus]
    refine .error (fun line hmem ↦ ?_) ⟨_, (Bool.not_eq_true _).mp hstatus⟩
    obtain hold | hnew := List.mem_append.mp hmem
    · exact hlines line hold
    · rw [List.mem_singleton.mp hnew]
      exact hline

theorem rendered_set (h : Rendered text s) (hc : c ≠ 0) :
    (s.genbuf.set s.p2 c).take (s.p2 + 1) = s.genbuf.take s.p2 ++ [c] ∧
      0 ∉ s.genbuf.take s.p2 ++ [c] ∧ (s.genbuf.set s.p2 c)[72]? = some 0 ∧
      s.p2 < s.genbuf.length := by
  have hcur : s.p2 < 71 := h.cur
  obtain ⟨hlt, -⟩ := List.getElem?_eq_some_iff.mp h.room
  have hp2 : s.p2 < s.genbuf.length := by omega
  refine ⟨?_, ?_, ?_, hp2⟩
  · rw [List.take_add_one, List.take_set_of_le (Nat.le_refl _), List.getElem?_set_self hp2]
    rfl
  · rw [List.mem_append, List.mem_singleton]
    rintro (hmem | hzero)
    · exact h.nonzero hmem
    · exact hc hzero.symm
  · rw [List.getElem?_set_ne (by omega), h.room]

/-- A character is rendered, with a fold behind it when the line is full. -/
theorem emit_ends (h : Rendered text s) (hc : c ≠ 0) :
    Ends status (Rendered (text ++ [c])) (emit status s c) := by
  obtain ⟨htake, hnonzero, hroom, hp2⟩ := rendered_set h hc
  obtain ⟨parts, hlines, hparts, htext⟩ := h.folded
  have hcur : s.p2 < 71 := h.cur
  unfold emit
  dsimp only
  by_cases hfull : s.p2 + 1 ≥ LCOMEND
  · have hend : s.p2 + 1 = 71 := Nat.le_antisymm hcur hfull
    have hlength : s.p2 + 1 < (s.genbuf.set s.p2 c).length := by
      obtain ⟨hlt, -⟩ := List.getElem?_eq_some_iff.mp h.room
      rw [List.length_set]
      omega
    have hroom' : ((s.genbuf.set s.p2 c).set (s.p2 + 1) BACKSLASH)[72]? = some 0 := by
      rw [List.getElem?_set_ne (by omega), hroom]
    have hlast : ((s.genbuf.set s.p2 c).set (s.p2 + 1) BACKSLASH).take 72 =
        s.genbuf.take s.p2 ++ [c] ++ [BACKSLASH] := by
      rw [show 72 = s.p2 + 1 + 1 by
        omega, List.take_add_one, List.take_set_of_le (Nat.le_refl _), htake,
        List.getElem?_set_self hlength]
      rfl
    -- the line goes up to the NUL of `genbuf[72]`
    have hline : ((s.genbuf.set s.p2 c).set (s.p2 + 1) BACKSLASH).takeWhile (· ≠ 0) =
        s.genbuf.take s.p2 ++ [c] ++ [BACKSLASH] := by
      rw [takeWhile_of_take _ hroom', hlast]
      rw [hlast, List.mem_append, List.mem_singleton]
      rintro (hmem | hzero)
      · exact hnonzero hmem
      · exact absurd hzero (by decide)
    have hpart : (s.genbuf.take s.p2 ++ [c]).length = 71 := by
      rw [List.length_append, List.length_take, List.length_singleton]
      omega
    rw [if_pos hfull]
    refine Ends.bind (P := fun after ↦ after.lines = (parts ++ [s.genbuf.take s.p2 ++ [c]]).map
      (· ++ [BACKSLASH]) ∧ after.genbuf[72]? = some 0) (wline_ends ?_ ?_ ?_) fun after hafter ↦ ?_
    · dsimp only
      rw [hline, List.length_append, hpart]
      exact Nat.le_refl _
    · intro line hmem
      exact short_of_folded hparts (hlines ▸ hmem)
    · dsimp only
      rw [hline, hlines, List.map_append]
      exact ⟨rfl, hroom'⟩
    · refine .ok ⟨Nat.succ_pos _, hafter.2, ?_, _, hafter.1, ?_, ?_⟩
      · exact List.not_mem_nil
      · intro part hmem
        obtain hold | hnew := List.mem_append.mp hmem
        · exact hparts part hold
        · rw [List.mem_singleton.mp hnew, hpart]
      · dsimp only
        rw [htext, List.flatten_append, List.flatten_singleton, List.take_zero, List.append_nil,
          List.append_assoc]
  · rw [if_neg hfull]
    refine .ok ⟨Nat.lt_of_not_le hfull, hroom, ?_, parts, hlines, hparts, ?_⟩
    · dsimp only
      rw [htake]
      exact hnonzero
    · dsimp only
      rw [htake, htext, List.append_assoc]

theorem foldlM_emit_ends (h : Rendered text s) {cs : List UInt8} (hcs : 0 ∉ cs) :
    Ends status (Rendered (text ++ cs)) (cs.foldlM (emit status) s) := by
  induction cs generalizing s text with
  | nil =>
    rw [List.append_nil]
    exact .ok h
  | cons c cs ih =>
    rw [List.mem_cons, not_or] at hcs
    rw [List.foldlM_cons, ← List.singleton_append, ← List.append_assoc]
    exact (emit_ends h (Ne.symm hcs.1)).bind fun after hafter ↦ ih hafter hcs.2

/-- The NUL that is copied behind a string stands after what is rendered. -/
theorem rendered_nul (h : Rendered text s) :
    Rendered text { s with genbuf := s.genbuf.set s.p2 0 } := by
  have hcur : s.p2 < 71 := h.cur
  have htake : (s.genbuf.set s.p2 0).take s.p2 = s.genbuf.take s.p2 :=
    List.take_set_of_le (Nat.le_refl _)
  refine ⟨h.cur, ?_, ?_, ?_⟩
  · dsimp only
    rw [List.getElem?_set_ne (by omega), h.room]
  · dsimp only
    rw [htake]
    exact h.nonzero
  · dsimp only
    rw [htake]
    exact h.folded

theorem emitString_ends (h : Rendered text s) {p3 : List UInt8} (hp3 : 0 ∉ p3) :
    Ends status (Rendered (text ++ p3)) (emitString status s p3) :=
  (foldlM_emit_ends h hp3).bind fun _ hafter ↦ .ok (rendered_nul hafter)

/-- What the command renders for a byte. -/
def listed (charSigned : Bool) (isprint : UInt8 → Bool) (byte : UInt8) : List UInt8 :=
  if byte < 0x20 then chars (trans.getD (byte.toNat - 1) "")
  else if byte = 0x7F then chars rub
  else if isprint byte then [byte]
  else octalDigits charSigned byte

theorem zero_notMem_trans : ∀ n < 32, 0 ∉ chars (trans.getD n "") := by decide

theorem zero_notMem_rub : 0 ∉ chars rub := by decide

theorem asChar_ne_zero {value : ℤ} (hlow : 0 < value) (hhigh : value < 256) : asChar value ≠ 0 := by
  intro hzero
  have hnat := congrArg UInt8.toNat hzero
  rw [asChar, UInt8.toNat_ofNat'] at hnat
  have hzero' : (0 : UInt8).toNat = 0 := rfl
  omega

theorem charValue_bounds : -128 ≤ charValue charSigned byte ∧ charValue charSigned byte < 256 := by
  have hlt := byte.toNat_lt
  unfold charValue
  split_ifs with h
  · have hle := UInt8.le_iff_toNat_le.mp h.2
    have h128 : (128 : UInt8).toNat = 128 := rfl
    omega
  · omega

theorem zero_notMem_octalDigits : 0 ∉ octalDigits charSigned byte := by
  obtain ⟨hlow, hhigh⟩ := @charValue_bounds charSigned byte
  have hback : (0 : UInt8) ≠ BACKSLASH := by decide
  unfold octalDigits
  simp only [List.mem_cons, List.not_mem_nil, or_false, not_or]
  exact ⟨hback, Ne.symm (asChar_ne_zero (by omega) (by omega)),
    Ne.symm (asChar_ne_zero (by omega) (by omega)), Ne.symm (asChar_ne_zero (by omega) (by omega))⟩

theorem listByte_ends (h : Rendered text s) (hbyte : byte ≠ 0) :
    Ends status (Rendered (text ++ listed charSigned isprint byte))
    (listByte charSigned isprint status s byte) := by
  unfold listByte listed
  by_cases hcontrol : 0x20 ≤ byte
  · rw [if_pos hcontrol, if_neg (UInt8.not_lt.mpr hcontrol)]
    by_cases hrub : byte = 0x7F
    · rw [if_pos hrub, if_pos hrub]
      exact emitString_ends h zero_notMem_rub
    · rw [if_neg hrub, if_neg hrub]
      by_cases hprint : isprint byte = true
      · rw [if_pos hprint, if_neg (by rw [hprint]; decide)]
        exact emit_ends h hbyte
      · rw [if_neg hprint, if_pos ((Bool.not_eq_true _).mp hprint)]
        exact foldlM_emit_ends h zero_notMem_octalDigits
  · have hlt := UInt8.not_le.mp hcontrol
    rw [if_neg hcontrol, if_pos hlt]
    have hnat := UInt8.lt_iff_toNat_lt.mp hlt
    have h32 : (0x20 : UInt8).toNat = 32 := rfl
    exact emitString_ends h (zero_notMem_trans _ (by omega))

theorem foldlM_listByte_ends (h : Rendered text s) (hlinebuf : 0 ∉ linebuf) :
    Ends status (Rendered (text ++ linebuf.flatMap (listed charSigned isprint)))
      (linebuf.foldlM (listByte charSigned isprint status) s) := by
  induction linebuf generalizing s text with
  | nil =>
    rw [List.flatMap_nil, List.append_nil]
    exact .ok h
  | cons byte linebuf ih =>
    rw [List.mem_cons, not_or] at hlinebuf
    rw [List.foldlM_cons, List.flatMap_cons, ← List.append_assoc]
    exact (listByte_ends h (Ne.symm hlinebuf.1)).bind fun after hafter ↦ ih hafter hlinebuf.2

theorem lcom_ends (hgenbuf : 72 < genbuf.length) (hlinebuf : 0 ∉ linebuf) :
    Ends status (fun s ↦ (∀ line ∈ s.lines, line.length ≤ 72) ∧
        Unfolds s.lines (linebuf.flatMap (listed charSigned isprint)))
      (lcom charSigned isprint status genbuf linebuf) := by
  have hstart : Rendered [] ⟨genbuf.set 72 0, 0, []⟩ :=
    ⟨Nat.succ_pos _, List.getElem?_set_self hgenbuf, List.not_mem_nil, [], rfl, nofun, rfl⟩
  refine (foldlM_listByte_ends hstart hlinebuf).bind fun s hs ↦ ?_
  rw [List.nil_append] at hs
  obtain ⟨parts, hlines, hparts, htext⟩ := hs.folded
  have hcur : s.p2 < 71 := hs.cur
  obtain ⟨hlt, -⟩ := List.getElem?_eq_some_iff.mp hs.room
  have htake : (s.genbuf.set s.p2 0).take s.p2 = s.genbuf.take s.p2 :=
    List.take_set_of_le (Nat.le_refl _)
  have hline : (s.genbuf.set s.p2 0).takeWhile (· ≠ 0) = s.genbuf.take s.p2 := by
    rw [takeWhile_of_take (htake ▸ hs.nonzero) (List.getElem?_set_self (by omega)), htake]
  have hshort : (s.genbuf.take s.p2).length ≤ 72 := by
    rw [List.length_take]
    omega
  have hfolded : ∀ line ∈ s.lines, line.length ≤ 72 := fun line hmem ↦
    short_of_folded hparts (hlines ▸ hmem)
  apply wline_ends
  · rw [hline]
    exact hshort
  · exact hfolded
  · dsimp only
    rw [hline]
    refine ⟨fun line hmem ↦ ?_, parts, _, by rw [hlines], htext⟩
    obtain hold | hnew := List.mem_append.mp hmem
    · exact hfolded line hold
    · rw [List.mem_singleton.mp hnew]
      exact hshort

/-! ### The first octal digit -/

theorem asChar_eq_iff {value : ℤ} (hlow : 0 ≤ value) (hhigh : value < 256) (c : UInt8) :
    asChar value = c ↔ value = c.toNat := by
  rw [← UInt8.toNat_inj, asChar, UInt8.toNat_ofNat']
  omega

/-- The digits are those of the value of the byte if and only if `*p1` is not negative. -/
theorem octalDigits_eq_iff : octalDigits charSigned byte =
    [BACKSLASH, 48 + byte / 64, 48 + byte / 8 % 8, 48 + byte % 8] ↔
    ¬ (charSigned = true ∧ 128 ≤ byte) := by
  obtain ⟨hlow, hhigh⟩ := @charValue_bounds charSigned byte
  have hlt := byte.toNat_lt
  have hdigits : (48 + byte / 64).toNat = 48 + byte.toNat / 64 ∧
      (48 + byte / 8 % 8).toNat = 48 + byte.toNat / 8 % 8 ∧
      (48 + byte % 8).toNat = 48 + byte.toNat % 8 := by
    simp only [UInt8.toNat_add, UInt8.toNat_div, UInt8.toNat_mod, UInt8.reduceToNat]
    omega
  unfold octalDigits
  simp only [List.cons.injEq, and_true, true_and]
  rw [asChar_eq_iff (by omega) (by omega), asChar_eq_iff (by omega) (by omega),
    asChar_eq_iff (by omega) (by omega), hdigits.1, hdigits.2.1, hdigits.2.2]
  unfold charValue
  split_ifs with hnegative
  · have hle := UInt8.le_iff_toNat_le.mp hnegative.2
    exact ⟨fun h ↦ by omega, fun h ↦ absurd hnegative h⟩
  · exact ⟨fun _ ↦ hnegative, fun _ ↦ by omega⟩

theorem listed_eq_iff : listed charSigned isprint byte = rendering isprint byte ↔
    (charSigned = true → 128 ≤ byte → isprint byte = true) := by
  unfold listed rendering
  split_ifs with hcontrol hrub hprint
  · refine ⟨fun _ _ hle ↦ ?_, fun _ ↦ rfl⟩
    have hlt := UInt8.lt_iff_toNat_lt.mp hcontrol
    have hle' := UInt8.le_iff_toNat_le.mp hle
    simp only [UInt8.reduceToNat] at hlt hle'
    omega
  · refine ⟨fun _ _ hle ↦ ?_, fun _ ↦ rfl⟩
    rw [hrub] at hle
    exact absurd hle (by decide)
  · exact ⟨fun _ _ _ ↦ hprint, fun _ ↦ rfl⟩
  · rw [octalDigits_eq_iff, not_and]
    exact ⟨fun h hsigned hle ↦ absurd hle (h hsigned), fun h hsigned hle ↦ hprint (h hsigned hle)⟩

theorem length_listed :
    (listed charSigned isprint byte).length = (rendering isprint byte).length := by
  unfold listed rendering
  split_ifs <;> rfl

theorem flatMap_eq_iff {f g : UInt8 → List UInt8} (h : ∀ byte, (f byte).length = (g byte).length) :
    linebuf.flatMap f = linebuf.flatMap g ↔ ∀ byte ∈ linebuf, f byte = g byte := by
  induction linebuf with
  | nil => exact ⟨fun _ _ hmem ↦ absurd hmem List.not_mem_nil, fun _ ↦ rfl⟩
  | cons byte linebuf ih =>
    rw [List.flatMap_cons, List.flatMap_cons, List.forall_mem_cons, ← ih]
    constructor
    · exact fun heq ↦ List.append_inj heq (h byte)
    · rintro ⟨hbyte, hrest⟩
      rw [hbyte, hrest]

/-- The l command renders the pattern space faithfully, whatever the write function returns, if and
only if each byte from 128 on prints or `char` is unsigned. -/
theorem lcom_faithful_iff (charSigned : Bool) (isprint : UInt8 → Bool) (genbuf linebuf : List UInt8)
    (hgenbuf : 72 < genbuf.length) (hlinebuf : 0 ∉ linebuf) :
    (∀ status, Faithfully isprint linebuf (lcom charSigned isprint status genbuf linebuf)) ↔
      ∀ byte ∈ linebuf, charSigned = true → 128 ≤ byte → isprint byte = true := by
  have hiff : linebuf.flatMap (listed charSigned isprint) = linebuf.flatMap (rendering isprint) ↔
      _ :=
    flatMap_eq_iff fun byte ↦ length_listed
  simp only [listed_eq_iff] at hiff
  rw [← hiff]
  constructor
  · intro hall
    have hends := @lcom_ends charSigned isprint (fun _ ↦ true) _ _ hgenbuf hlinebuf
    have hfaithful := hall fun _ ↦ true
    generalize lcom charSigned isprint (fun _ ↦ true) genbuf linebuf = result at hends hfaithful
    cases hends with
    | ok h => exact unfolds_unique h.2 (hfaithful.unfolds _ rfl)
    | error _ hstatus => exact absurd hstatus.choose_spec (Bool.noConfusion)
  · intro heq status
    have hends := @lcom_ends charSigned isprint status _ _ hgenbuf hlinebuf
    rw [heq] at hends
    generalize lcom charSigned isprint status genbuf linebuf = result at hends
    cases hends with
    | ok h => exact ⟨h.1, fun s hs ↦ Except.ok.inj hs ▸ h.2⟩
    | error hshort _ => exact ⟨hshort, nofun⟩

/-- The bytes that print in the C locale. -/
def plainPrint (byte : UInt8) : Bool := 0x20 ≤ byte ∧ byte < 0x7F

/-- A line that is folded, with a tab in front. -/
theorem lcom_faithful_iff_folded : Faithfully plainPrint (9 :: List.replicate 80 97)
    (lcom true plainPrint (fun _ ↦ true) (List.replicate 73 0) (9 :: List.replicate 80 97)) := by
  refine (lcom_faithful_iff true plainPrint (List.replicate 73 0) (9 :: List.replicate 80 97)
    (by decide) ?_).mpr ?_ (fun _ ↦ true)
  · simp
  · intro byte hbyte _ hlarge
    rcases List.mem_cons.mp hbyte with rfl | hbyte
    · exact absurd hlarge (by decide)
    · obtain rfl := List.eq_of_mem_replicate hbyte
      exact absurd hlarge (by decide)

/-- A byte `0xE9` becomes a backslash and `/51`. -/
theorem not_lcom_faithful_accent :
    ¬ ∀ (charSigned : Bool) (isprint : UInt8 → Bool) (status : ℕ → Bool)
    (genbuf linebuf : List UInt8), 72 < genbuf.length → 0 ∉ linebuf →
      Faithfully isprint linebuf (lcom charSigned isprint status genbuf linebuf) := by
  intro hall
  have hunfolds := (hall true plainPrint (fun _ ↦ true) (List.replicate 73 0) [0xE9] (by decide)
    (by decide)).unfolds
    ⟨92 :: 47 :: 53 :: 49 :: List.replicate 69 0, 4, [[92, 47, 53, 49]]⟩ rfl
  have hline : Unfolds [[92, 47, 53, 49]] [92, 47, 53, 49] := ⟨[], _, rfl, rfl⟩
  exact absurd (unfolds_unique hunfolds hline) (by decide)

end Userland.ModSed
