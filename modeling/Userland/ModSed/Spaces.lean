import Mathlib.Algebra.Group.Nat.Even
import Mathlib.Data.List.TakeWhile
import Userland.Library.Storing

/-!
# The pattern space and the hold space

`mod_sed` keeps the pattern space in `linebuf` and the hold space in `holdbuf`, in blocks that grow
when something is put behind what is there (`growBuffer`). Sizes are unsigned integers of 32 bits,
so a block could get smaller, and nothing but a zero byte says where the text ends that `strlen`
reads. `run_represents` says that no command reads or writes outside of the blocks, and that they
hold what the commands make of the spaces, whatever the pieces are in which lines arrive.

Scope: memory is zero when it is allocated, and lengths fit an `int`. Every line ends with a line
break. The commands are those that copy between the spaces and lines but `x` and `D`.
-/

set_option autoImplicit false
set_option relaxedAutoImplicit false

namespace Userland.ModSed

open Library

/-! ### Buffers -/

def INIT_BUF_SIZE : ℕ := 1024

/-- A block of memory, and the offset of the end of its text (`lspend`, `hspend`). -/
structure Buffer where
  block : List UInt8
  spend : ℕ

/-- The size that `grow_buffer` allocates. -/
def grownSize (cursize newsize : ℕ) : ℕ :=
  let newsize := if newsize < cursize * 2 % 2 ^ 32 then cursize * 2 % 2 ^ 32 else newsize
  (newsize + (2 ^ 12 - 1)) % 2 ^ 32 / 2 ^ 12 * 2 ^ 12

/-- `grow_buffer`; none where the block is copied to a smaller one. -/
def growBuffer (b : Buffer) (newsize : ℕ) : Option Buffer :=
  if b.block.length ≥ newsize then some b
  else (store (List.replicate (grownSize b.block.length newsize) 0) 0 b.block).map fun block ↦
    ⟨block, b.spend⟩

/-- `appendmem_to_linebuf`. -/
def appendmemToLinebuf (b : Buffer) (sz : List UInt8) : Option Buffer :=
  let reqsize := (b.spend + sz.length) % 2 ^ 32
  (if b.block.length < reqsize then growBuffer b reqsize else some b).bind fun b ↦
    (store b.block b.spend sz).map fun block ↦ ⟨block, b.spend + sz.length⟩

/-- `append_to_linebuf`. -/
def appendToLinebuf (b : Buffer) (sz : List UInt8) : Option Buffer :=
  (appendmemToLinebuf b (sz ++ [0])).map fun b ↦ ⟨b.block, b.spend - 1⟩

/-- `copy_to_linebuf`. -/
def copyToLinebuf (b : Buffer) (sz : List UInt8) : Option Buffer :=
  appendToLinebuf ⟨b.block, 0⟩ sz

/-- `append_to_holdbuf`. -/
def appendToHoldbuf (b : Buffer) (sz : List UInt8) : Option Buffer :=
  let reqsize := (b.spend + sz.length + 1) % 2 ^ 32
  (if b.block.length ≤ reqsize then growBuffer b reqsize else some b).bind fun b ↦
    (store b.block b.spend (sz ++ [0])).map fun block ↦ ⟨block, b.spend + sz.length⟩

/-- `copy_to_holdbuf`. -/
def copyToHoldbuf (b : Buffer) (sz : List UInt8) : Option Buffer :=
  appendToHoldbuf ⟨b.block, 0⟩ sz

/-- What stands before the first zero byte. -/
def upToZero (bytes : List UInt8) : List UInt8 :=
  bytes.takeWhile (· ≠ 0)

/-- The string at the start of a block; none if it does not end in the block. -/
def string (block : List UInt8) : Option (List UInt8) :=
  if 0 ∈ block then some (upToZero block) else none

/-- `sed_eval_buffer` puts a line into the buffer: leftovers, and the rest with its line break,
which is replaced. -/
def readLine (b : Buffer) (leftovers : List (List UInt8)) (rest : List UInt8) : Option Buffer :=
  (leftovers.foldlM appendmemToLinebuf b).bind fun b ↦
    (appendmemToLinebuf b (rest ++ [10])).bind fun b ↦
      (store b.block (b.spend - 1) [0]).map fun block ↦ ⟨block, b.spend - 1⟩

/-! ### Commands -/

structure SedEval where
  linebuf : Buffer
  holdbuf : Buffer

/-- `sed_init_eval`. -/
def sedInitEval : SedEval where
  linebuf := ⟨List.replicate INIT_BUF_SIZE 0, 0⟩
  holdbuf := ⟨List.replicate INIT_BUF_SIZE 0, 0⟩

/-- The next line is read, or one of the commands `N`, `g`, `G`, `h` and `H` is executed. -/
inductive SpaceStep
  | line (leftovers : List (List UInt8)) (rest : List UInt8)
  | CNCOM (leftovers : List (List UInt8)) (rest : List UInt8)
  | GCOM
  | CGCOM
  | HCOM
  | CHCOM

def SedEval.step (eval : SedEval) : SpaceStep → Option SedEval
  | .line leftovers rest =>
    (readLine ⟨eval.linebuf.block, 0⟩ leftovers rest).map fun linebuf ↦ ⟨linebuf, eval.holdbuf⟩
  | .CNCOM leftovers rest =>
    (appendToLinebuf eval.linebuf [10]).bind fun linebuf ↦
      (readLine linebuf leftovers rest).map fun linebuf ↦ ⟨linebuf, eval.holdbuf⟩
  | .GCOM =>
    (string eval.holdbuf.block).bind fun sz ↦
      (copyToLinebuf eval.linebuf sz).map fun linebuf ↦ ⟨linebuf, eval.holdbuf⟩
  | .CGCOM =>
    (appendToLinebuf eval.linebuf [10]).bind fun linebuf ↦
      (string eval.holdbuf.block).bind fun sz ↦
        (appendToLinebuf linebuf sz).map fun linebuf ↦ ⟨linebuf, eval.holdbuf⟩
  | .HCOM =>
    (string eval.linebuf.block).bind fun sz ↦
      (copyToHoldbuf eval.holdbuf sz).map fun holdbuf ↦ ⟨eval.linebuf, holdbuf⟩
  | .CHCOM =>
    (appendToHoldbuf eval.holdbuf [10]).bind fun holdbuf ↦
      (string eval.linebuf.block).bind fun sz ↦
        (appendToHoldbuf holdbuf sz).map fun holdbuf ↦ ⟨eval.linebuf, holdbuf⟩

/-! ### The spaces -/

/-- The pattern space and the hold space as byte strings. -/
structure Spaces where
  pattern : List UInt8
  hold : List UInt8

/-- What the commands mean. A zero byte of a line ends what is copied to the hold space. -/
def Spaces.step (s : Spaces) : SpaceStep → Spaces
  | .line leftovers rest => ⟨leftovers.flatten ++ rest, s.hold⟩
  | .CNCOM leftovers rest => ⟨s.pattern ++ [10] ++ (leftovers.flatten ++ rest), s.hold⟩
  | .GCOM => ⟨s.hold, s.hold⟩
  | .CGCOM => ⟨s.pattern ++ [10] ++ s.hold, s.hold⟩
  | .HCOM => ⟨s.pattern, upToZero s.pattern⟩
  | .CHCOM => ⟨s.pattern, s.hold ++ [10] ++ upToZero s.pattern⟩

/-- Both spaces are shorter than 2^30 bytes after each step. -/
def Fits : Spaces → List SpaceStep → Prop
  | _, [] => True
  | s, next :: steps => ((s.step next).pattern.length < 2 ^ 30 ∧
      (s.step next).hold.length < 2 ^ 30) ∧
      Fits (s.step next) steps

/-! ### Growing -/

variable {b : Buffer} {text : List UInt8}

/-- The text up to the end is this one. -/
structure Begins (b : Buffer) (text : List UInt8) : Prop where
  spend_eq : b.spend = text.length
  take_eq : b.block.take text.length = text

/-- The text up to the end is this one, and a zero byte is behind it. -/
def Holds (b : Buffer) (text : List UInt8) : Prop :=
  Begins ⟨b.block, b.spend + 1⟩ (text ++ [0])

theorem Begins.length_le (h : Begins b text) : text.length ≤ b.block.length := by
  have hlength := congrArg List.length h.take_eq
  rw [List.length_take] at hlength
  omega

theorem begins_nil (block : List UInt8) : Begins ⟨block, 0⟩ [] := ⟨rfl, rfl⟩

theorem Begins.front {rest : List UInt8} (h : Begins b (text ++ rest)) :
    Begins ⟨b.block, b.spend - rest.length⟩ text := by
  constructor
  · show b.spend - rest.length = text.length
    rw [h.spend_eq, List.length_append]
    omega
  · have htake := congrArg (List.take text.length) h.take_eq
    rwa [List.take_take, List.take_left, List.length_append, Nat.min_eq_left (by omega)] at htake

theorem Holds.begins (h : Holds b text) : Begins b text :=
  Begins.front h

/-- A string is read of the block. -/
theorem string_of_holds (h : Holds b text) : string b.block = some (upToZero text) := by
  have hblock : b.block = text ++ 0 :: b.block.drop (text ++ [0]).length := by
    conv_lhs => rw [← List.take_append_drop (text ++ [0]).length b.block, Begins.take_eq h]
    rw [List.append_assoc, List.singleton_append]
  rw [string, if_pos (hblock ▸ List.mem_append_right _ List.mem_cons_self), hblock]
  congr 1
  rw [upToZero, upToZero, List.takeWhile_append]
  split_ifs with hall
  · rw [List.takeWhile_cons_of_neg (by simp), List.append_nil,
      (List.takeWhile_sublist _).eq_of_length hall]
  · rfl

/-- A block that grows takes what is asked for and what is in it. -/
theorem le_grownSize {cursize newsize : ℕ} (hlt : cursize < newsize)
    (hsize : newsize < 2 ^ 31 - 2 ^ 11) :
    newsize ≤ grownSize cursize newsize ∧ cursize ≤ grownSize cursize newsize := by
  simp only [grownSize]
  split_ifs <;> omega

theorem growBuffer_begins (h : Begins b text) {newsize : ℕ} (hsize : newsize < 2 ^ 31 - 2 ^ 11) :
    ∃ b', growBuffer b newsize = some b' ∧ Begins b' text ∧ newsize ≤ b'.block.length := by
  by_cases hlarge : b.block.length ≥ newsize
  · exact ⟨b, if_pos hlarge, h, hlarge⟩
  · obtain ⟨hnew, hcur⟩ := le_grownSize (not_le.mp hlarge) hsize
    have hroom : 0 + b.block.length ≤
        (List.replicate (grownSize b.block.length newsize) (0 : UInt8)).length := by
      rw [List.length_replicate]
      omega
    obtain ⟨block, hstore⟩ := store_of_le hroom
    refine ⟨⟨block, b.spend⟩, by rw [growBuffer, if_neg hlarge, hstore,
      Option.map_some], ⟨h.spend_eq, ?_⟩, ?_⟩
    · have htake := congrArg (List.take text.length) (take_store hstore)
      rw [List.take_take, Nat.zero_add, Nat.min_eq_left h.length_le, List.take_zero,
        List.nil_append, h.take_eq] at htake
      exact htake
    · show newsize ≤ block.length
      rw [length_store hstore, List.length_replicate]
      exact hnew

/-- Room is made if there is none. -/
theorem reserve_begins (h : Begins b text) {newsize : ℕ} (hsize : newsize < 2 ^ 31 - 2 ^ 11)
    {c : Prop} [Decidable c] (hc : ¬ c → newsize ≤ b.block.length) :
    ∃ b', (if c then growBuffer b newsize else some b) = some b' ∧ Begins b' text ∧
    newsize ≤ b'.block.length := by
  split_ifs with hgrow
  · exact growBuffer_begins h hsize
  · exact ⟨b, rfl, h, hc hgrow⟩

theorem store_begins (h : Begins b text) (sz : List UInt8)
    (hroom : text.length + sz.length ≤ b.block.length) :
    ∃ block, store b.block b.spend sz = some block ∧
    Begins ⟨block, b.spend + sz.length⟩ (text ++ sz) := by
  obtain ⟨block, hstore⟩ := store_of_le (h.spend_eq ▸ hroom)
  refine ⟨block, hstore, ?_, ?_⟩
  · rw [h.spend_eq, List.length_append]
  · have htake := take_store hstore
    rwa [h.spend_eq, h.take_eq, ← List.length_append] at htake

theorem appendmemToLinebuf_begins (h : Begins b text) (sz : List UInt8)
    (hsize : (text ++ sz).length < 2 ^ 31 - 2 ^ 11) :
    ∃ b', appendmemToLinebuf b sz = some b' ∧ Begins b' (text ++ sz) := by
  rw [List.length_append] at hsize
  have hreq : (b.spend + sz.length) % 2 ^ 32 = text.length + sz.length := by
    rw [h.spend_eq]
    omega
  obtain ⟨b', hgrow, hbegins, hroom⟩ := reserve_begins h hsize not_lt.mp
  obtain ⟨block, hstore, hnext⟩ := store_begins hbegins sz hroom
  refine ⟨_, ?_, hnext⟩
  rw [appendmemToLinebuf, hreq, hgrow, Option.bind_some, hstore, Option.map_some]

theorem appendToLinebuf_holds (h : Begins b text) (sz : List UInt8)
    (hsize : (text ++ sz).length < 2 ^ 31 - 2 ^ 12) :
    ∃ b', appendToLinebuf b sz = some b' ∧ Holds b' (text ++ sz) := by
  rw [List.length_append] at hsize
  obtain ⟨b', happend, hbegins⟩ := appendmemToLinebuf_begins h (sz ++ [0]) (by
    rw [List.length_append, List.length_append, List.length_singleton]
    omega)
  rw [← List.append_assoc] at hbegins
  refine ⟨_, by rw [appendToLinebuf, happend, Option.map_some], ?_⟩
  have hspend := hbegins.spend_eq
  rw [List.length_append, List.length_singleton] at hspend
  rw [Holds, show b'.spend - 1 + 1 = b'.spend by omega]
  exact hbegins

theorem appendToHoldbuf_holds (h : Begins b text) (sz : List UInt8)
    (hsize : (text ++ sz).length < 2 ^ 31 - 2 ^ 12) :
    ∃ b', appendToHoldbuf b sz = some b' ∧ Holds b' (text ++ sz) := by
  rw [List.length_append] at hsize
  have hreq : (b.spend + sz.length + 1) % 2 ^ 32 = text.length + sz.length + 1 := by
    rw [h.spend_eq]
    omega
  obtain ⟨b', hgrow, hbegins, hroom⟩ :=
    reserve_begins h (show text.length + sz.length + 1 < 2 ^ 31 - 2 ^ 11 by omega)
    fun hc : ¬ b.block.length ≤ _ ↦ (not_le.mp hc).le
  obtain ⟨block, hstore, hnext⟩ := store_begins hbegins (sz ++ [0]) (by
    rw [List.length_append, List.length_singleton]
    omega)
  refine ⟨_, by rw [appendToHoldbuf, hreq, hgrow, Option.bind_some, hstore, Option.map_some], ?_⟩
  rw [List.length_append, List.length_singleton, ← List.append_assoc, ← Nat.add_assoc] at hnext
  exact hnext

theorem foldlM_appendmem_begins (h : Begins b text) (leftovers : List (List UInt8))
    (hsize : (text ++ leftovers.flatten).length < 2 ^ 31 - 2 ^ 11) :
    ∃ b', leftovers.foldlM appendmemToLinebuf b = some b' ∧
    Begins b' (text ++ leftovers.flatten) := by
  induction leftovers generalizing b text with
  | nil => exact ⟨b, rfl, by rwa [List.flatten_nil, List.append_nil]⟩
  | cons piece leftovers ih =>
    rw [List.flatten_cons, ← List.append_assoc] at hsize ⊢
    obtain ⟨b', happend, hbegins⟩ := appendmemToLinebuf_begins h piece (by
      rw [List.length_append] at hsize
      omega)
    obtain ⟨b'', hrest, hends⟩ := ih hbegins hsize
    exact ⟨b'', by rw [List.foldlM_cons, happend, Option.bind_eq_bind, Option.bind_some,
      hrest], hends⟩

/-- A line that arrives in pieces is held as it is. -/
theorem readLine_holds (h : Begins b text) {leftovers : List (List UInt8)} {rest : List UInt8}
    (hsize : (text ++ (leftovers.flatten ++ rest)).length < 2 ^ 31 - 2 ^ 12) :
    ∃ b', readLine b leftovers rest = some b' ∧ Holds b' (text ++ (leftovers.flatten ++ rest)) := by
  simp only [List.length_append] at hsize
  obtain ⟨b₁, hleft, hbegins⟩ := foldlM_appendmem_begins h leftovers (by
    rw [List.length_append]
    omega)
  obtain ⟨b₂, hrest, hends⟩ := appendmemToLinebuf_begins hbegins (rest ++ [10]) (by
    simp only [List.length_append, List.length_singleton]
    omega)
  rw [← List.append_assoc, List.append_assoc text] at hends
  have hlength := hends.length_le
  rw [List.length_append, List.length_singleton] at hlength
  obtain ⟨block, hstore, hnext⟩ := store_begins hends.front [0] hlength
  refine ⟨⟨block, b₂.spend - 1⟩, ?_, hnext⟩
  rw [readLine, hleft, Option.bind_some, hrest, Option.bind_some,
    show store b₂.block (b₂.spend - 1) [0] = some block from hstore, Option.map_some]

/-! ### Runs -/

/-- The buffers hold the spaces, and no zero byte is in the hold space. -/
structure Represents (eval : SedEval) (s : Spaces) : Prop where
  pattern : Holds eval.linebuf s.pattern
  hold : Holds eval.holdbuf s.hold
  zero_notMem : 0 ∉ s.hold

theorem upToZero_of_notMem (h : 0 ∉ text) : upToZero text = text :=
  List.takeWhile_eq_self_iff.mpr fun c hc ↦ decide_eq_true fun heq : c = 0 ↦ h (heq ▸ hc)

theorem zero_notMem_upToZero (text : List UInt8) : 0 ∉ upToZero text := by
  intro h
  have hne := List.mem_takeWhile_imp h
  exact absurd rfl (of_decide_eq_true hne)

theorem represents_init : Represents sedInitEval ⟨[], []⟩ :=
  ⟨⟨rfl, rfl⟩, ⟨rfl, rfl⟩, List.not_mem_nil⟩

theorem step_represents {eval : SedEval} {s : Spaces} (h : Represents eval s) (next : SpaceStep)
    (hpattern : (s.step next).pattern.length < 2 ^ 30)
    (hhold : (s.step next).hold.length < 2 ^ 30) :
    ∃ eval', eval.step next = some eval' ∧ Represents eval' (s.step next) := by
  have hbreak : ∀ {text rest : List UInt8}, (text ++ rest).length < 2 ^ 30 → text.length < 2 ^ 30 :=
      fun hlong ↦ by
    rw [List.length_append] at hlong
    omega
  cases next with
  | line leftovers rest =>
    obtain ⟨b', hread, hholds⟩ := readLine_holds (begins_nil eval.linebuf.block)
      (hpattern.trans (by decide))
    exact ⟨⟨b', eval.holdbuf⟩, by rw [SedEval.step, hread,
      Option.map_some], hholds, h.hold, h.zero_notMem⟩
  | CNCOM leftovers rest =>
    obtain ⟨b₁, happend, hmiddle⟩ := appendToLinebuf_holds h.pattern.begins [10]
      ((hbreak hpattern).trans (by decide))
    obtain ⟨b₂, hread, hholds⟩ := readLine_holds hmiddle.begins (hpattern.trans (by decide))
    refine ⟨⟨b₂, eval.holdbuf⟩, ?_, hholds, h.hold, h.zero_notMem⟩
    rw [SedEval.step, happend, Option.bind_some, hread, Option.map_some]
  | GCOM =>
    obtain ⟨b', hcopy, hholds⟩ := appendToLinebuf_holds (begins_nil eval.linebuf.block) s.hold
      (hpattern.trans (by decide))
    refine ⟨⟨b', eval.holdbuf⟩, ?_, hholds, h.hold, h.zero_notMem⟩
    rw [SedEval.step, string_of_holds h.hold, upToZero_of_notMem h.zero_notMem, Option.bind_some,
      copyToLinebuf, hcopy, Option.map_some]
  | CGCOM =>
    obtain ⟨b₁, happend, hmiddle⟩ := appendToLinebuf_holds h.pattern.begins [10]
      ((hbreak hpattern).trans (by decide))
    obtain ⟨b₂, hagain, hholds⟩ :=
      appendToLinebuf_holds hmiddle.begins s.hold (hpattern.trans (by decide))
    refine ⟨⟨b₂, eval.holdbuf⟩, ?_, hholds, h.hold, h.zero_notMem⟩
    rw [SedEval.step, happend, Option.bind_some, string_of_holds h.hold,
      upToZero_of_notMem h.zero_notMem, Option.bind_some, hagain, Option.map_some]
  | HCOM =>
    obtain ⟨b', hcopy, hholds⟩ := appendToHoldbuf_holds (begins_nil eval.holdbuf.block)
      (upToZero s.pattern)
      (hhold.trans (by decide))
    refine ⟨⟨eval.linebuf, b'⟩, ?_, h.pattern, hholds, zero_notMem_upToZero _⟩
    rw [SedEval.step, string_of_holds h.pattern, Option.bind_some, copyToHoldbuf, hcopy,
      Option.map_some]
  | CHCOM =>
    obtain ⟨b₁, happend, hmiddle⟩ := appendToHoldbuf_holds h.hold.begins [10]
      ((hbreak hhold).trans (by decide))
    obtain ⟨b₂, hagain, hholds⟩ := appendToHoldbuf_holds hmiddle.begins (upToZero s.pattern)
      (hhold.trans (by decide))
    refine ⟨⟨eval.linebuf, b₂⟩, ?_, h.pattern, hholds, fun hzero ↦ ?_⟩
    · rw [SedEval.step, happend, Option.bind_some, string_of_holds h.pattern, Option.bind_some,
        hagain, Option.map_some]
    rcases List.mem_append.mp hzero with hzero | hzero
    · rcases List.mem_append.mp hzero with hzero | hzero
      · exact h.zero_notMem hzero
      · exact absurd (List.mem_singleton.mp hzero) (by decide)
    · exact zero_notMem_upToZero _ hzero

/-- No run whose spaces stay small reads or writes outside of the buffers, and they hold the spaces
in the end. -/
theorem run_represents {eval : SedEval} {s : Spaces} (h : Represents eval s)
    {steps : List SpaceStep} (hfits : Fits s steps) :
    ∃ eval', steps.foldlM SedEval.step eval = some eval' ∧
    Represents eval' (steps.foldl Spaces.step s) := by
  induction steps generalizing eval s with
  | nil => exact ⟨eval, rfl, h⟩
  | cons next steps ih =>
    obtain ⟨⟨hpattern, hhold⟩, hrest⟩ := hfits
    obtain ⟨eval', hstep, hnext⟩ := step_represents h next hpattern hhold
    obtain ⟨eval'', hrun, hends⟩ := ih hnext hrest
    exact ⟨eval'', by rw [List.foldlM_cons, hstep, Option.bind_eq_bind, Option.bind_some,
      hrun], hends⟩

/-- From the start, the buffers hold what the commands make of the spaces. -/
theorem sed_represents_spaces (steps : List SpaceStep) (hfits : Fits ⟨[], []⟩ steps) :
    ∃ eval, steps.foldlM SedEval.step sedInitEval = some eval ∧
      Represents eval (steps.foldl Spaces.step ⟨[], []⟩) :=
  run_represents represents_init hfits

/-- A line of 1001 bytes. -/
def longLine : List UInt8 := List.replicate 1000 97 ++ [98]

theorem upToZero_longLine : upToZero longLine = longLine := by
  refine List.takeWhile_eq_self_iff.mpr fun byte hbyte ↦ ?_
  rcases List.mem_append.mp hbyte with hbyte | hbyte
  · obtain rfl := List.eq_of_mem_replicate hbyte
    decide
  · obtain rfl := List.mem_singleton.mp hbyte
    decide

theorem flatten_longLine : [List.replicate 1000 97].flatten ++ [98] = longLine := by
  rw [List.flatten_singleton, longLine]

theorem fits_longLine : Fits ⟨[], []⟩ [.line [List.replicate 1000 97] [98], .HCOM, .CGCOM] := by
  have hlength : longLine.length = 1001 := by
    rw [longLine, List.length_append, List.length_replicate, List.length_singleton]
  simp only [Fits, Spaces.step, flatten_longLine, upToZero_longLine, List.length_append, hlength]
  decide

/-- A line that arrives in two pieces, for which the buffers grow, is held, and appended to itself.
-/
theorem sed_represents_spaces_twice : ∃ eval,
    [SpaceStep.line [List.replicate 1000 97] [98], .HCOM,
      .CGCOM].foldlM SedEval.step sedInitEval = some eval ∧
      Represents eval ⟨longLine ++ [10] ++ longLine, longLine⟩ := by
  have hrun := sed_represents_spaces _ fits_longLine
  simp only [List.foldl_cons, List.foldl_nil, Spaces.step, flatten_longLine,
    upToZero_longLine] at hrun
  exact hrun

end Userland.ModSed
