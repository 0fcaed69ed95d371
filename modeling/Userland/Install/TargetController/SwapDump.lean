import Mathlib.Data.Int.Log
import Mathlib.Data.Rat.Floor
import Mathlib.Tactic.Linarith
import Mathlib.Tactic.NormNum
import Mathlib.Tactic.Ring

/-!
# Sizes of swap and dump

`calc_swap_dump_size` divides what a disk has beside the installation between swap and dump, and
turns the results back into texts. A dump that would be smaller than none is a text that is no size,
so that a `ValueError` escapes, and a tiny swap is printed with an exponent that is read as a unit.
The function does what it says exactly if neither happens and an installation that needs no swap
leaves a fifth of the disk (`asPromised_iff`).

Scope. Sizes are numbers of bytes, and all arithmetic is exact; a number below a ten-thousandth is
printed with an exponent. The sizes that were computed before are those of the controller.
-/

set_option autoImplicit false
set_option relaxedAutoImplicit false

namespace Userland.Install.TargetController.SwapDump

/-- What is raised. -/
inductive SizeError
  | swapDumpSpaceError
  | valueError
deriving DecidableEq

/-- The types of swap and dump. -/
inductive SwapDumpType
  | none
  | zvol
deriving DecidableEq

/-- What the function returns. -/
structure Allocation where
  swapType : SwapDumpType
  swapSize : ℕ
  dumpType : SwapDumpType
  dumpSize : ℕ
deriving DecidableEq

/-- `MIN_SWAP_SIZE`. -/
def minSwapSize : ℕ := 1024

/-- `MIN_DUMP_SIZE`. -/
def minDumpSize : ℕ := 256

/-- `MAX_DUMP_SIZE`. -/
def maxDumpSize : ℕ := 64 * 1024

/-- `ZVOL_REQ_MEM`. -/
def zvolReqMem : ℕ := 900

/-- `get` of a size in megabytes. -/
def inMb (size : ℕ) : ℚ :=
  size / 2 ^ 20

/-- `int` of a number. -/
def truncate (x : ℚ) : ℤ :=
  if x < 0 then ⌈x⌉ else ⌊x⌋

/-- `Size(str(x) + Size.mb_units)`: a sign is no part of a size, and of `5e-05mb` only `5e` is read.
-/
def sizeOfMb (x : ℚ) : Except SizeError ℕ :=
  if x < 0 then .error .valueError
  else if 0 < x ∧ x < 1 / 10000 then .ok ⌊x / (10 : ℚ) ^ Int.log 10 x * 2 ^ 60⌋₊
  else .ok ⌊x * 2 ^ 20⌋₊

/-- `_calc_swap_size`. -/
def calcSwapSize (memSize : ℕ) (availableSpace : ℚ) : ℚ :=
  if availableSpace = 0 then 0
  else
    let size : ℚ := if memSize ≤ 4 * 1024 then 1024 else if 16 * 1024 < memSize then 4 * 1024
      else 2 * 1024
    if availableSpace < size then availableSpace else size

/-- `_calc_dump_size`. -/
def calcDumpSize (memSize : ℕ) (availableSpace : ℚ) : ℤ :=
  if availableSpace = 0 then 0
  else
    let size : ℚ := if memSize < 512 then minDumpSize else if 128 * 1024 < memSize then maxDumpSize
      else (memSize / 2 : ℕ)
    truncate (if availableSpace < size then availableSpace else size)

/-- `_get_required_swap_size`. -/
def getRequiredSwapSize (memSize : ℕ) : ℕ :=
  if memSize < zvolReqMem then minSwapSize else 0

/-- The sizes and the types for them. -/
def allocate (swapSizeMb : ℚ) (dumpSizeMb : ℤ) : Except SizeError Allocation := do
  let swapSize ← sizeOfMb swapSizeMb
  let dumpSize ← sizeOfMb dumpSizeMb
  .ok ⟨if 0 < swapSizeMb then .zvol else .none, swapSize, if 0 < dumpSizeMb then .zvol
    else .none, dumpSize⟩

/-- `calc_swap_dump_size`. -/
def calcSwapDumpSize (computed : Option Allocation) (memSize installationSize availableSize : ℕ)
    (swapIncluded : Bool) : Except SizeError Allocation :=
  match computed with
  | some allocation => .ok allocation
  | none =>
    if availableSize < installationSize then .error .swapDumpSpaceError
    else
      let swapSizeMb := getRequiredSwapSize memSize
      if swapSizeMb ≠ 0 then
        let requiredSizeMb := if swapIncluded then inMb installationSize
          else inMb installationSize + swapSizeMb
        if !swapIncluded && inMb availableSize < requiredSizeMb then .error .swapDumpSpaceError
        else
          allocate swapSizeMb
            (calcDumpSize memSize (truncate (inMb availableSize * (4 / 5)) - requiredSizeMb))
      else
        let freeSpaceMb : ℚ := truncate (inMb availableSize * (4 / 5)) - inMb installationSize
        if 0 < freeSpaceMb then
          let swapSizeMb :=
            calcSwapSize memSize (freeSpaceMb * minSwapSize / (minSwapSize + minDumpSize))
          allocate swapSizeMb (calcDumpSize memSize (freeSpaceMb - swapSizeMb))
        else allocate 0 0

/-! ### What is asked of the function -/

/-- The megabytes of swap that are required beside the installation. -/
def neededSwap (memSize : ℕ) (swapIncluded : Bool) : ℕ :=
  if swapIncluded then 0 else getRequiredSwapSize memSize

/-- The installation and the swap that is required beside it fit. -/
def Fits (memSize installationSize availableSize : ℕ) (swapIncluded : Bool) : Prop :=
  installationSize + neededSwap memSize swapIncluded * 2 ^ 20 ≤ availableSize

/-- What the installation takes with swap and dump; swap that it includes is not counted again. -/
def total (memSize installationSize : ℕ) (swapIncluded : Bool) (allocation : Allocation) : ℕ :=
  installationSize + (if memSize < zvolReqMem ∧ swapIncluded = true then 0
    else allocation.swapSize) +
    allocation.dumpSize

/-- A space error is raised exactly if there is no room, and otherwise sizes are returned that fit,
within four fifths of what is available if no swap is required. -/
def AsPromised (memSize installationSize availableSize : ℕ) (swapIncluded : Bool) : Prop :=
  let result := calcSwapDumpSize none memSize installationSize availableSize swapIncluded
  (result = .error .swapDumpSpaceError ↔
    ¬ Fits memSize installationSize availableSize swapIncluded) ∧
    (Fits memSize installationSize availableSize swapIncluded →
      ∃ allocation, result = .ok allocation ∧
      total memSize installationSize swapIncluded allocation ≤ availableSize ∧
      (zvolReqMem ≤ memSize → total memSize installationSize swapIncluded allocation * 5 ≤
        availableSize * 4))

/-- The whole megabytes of four fifths of a size. -/
def fourFifths (availableSize : ℕ) : ℤ :=
  ⌊inMb availableSize * (4 / 5)⌋

/-- With required swap, less than a megabyte of the four fifths is missing; without, the
installation is within them, and does not leave just less than an eight-thousandth of a megabyte of
their whole megabytes. -/
def Roomy (memSize installationSize availableSize : ℕ) (swapIncluded : Bool) : Prop :=
  (memSize < zvolReqMem →
    inMb installationSize + neededSwap memSize swapIncluded < fourFifths availableSize + 1) ∧
  (zvolReqMem ≤ memSize → installationSize * 5 ≤ availableSize * 4 ∧
    ¬ (inMb installationSize < fourFifths availableSize ∧
      fourFifths availableSize - inMb installationSize < 1 / 8000))

/-! ### The parts -/

theorem truncate_of_nonneg {x : ℚ} (h : 0 ≤ x) : truncate x = ⌊x⌋ := by
  rw [truncate, if_neg (not_lt.mpr h)]

theorem truncate_neg_iff {x : ℚ} : truncate x < 0 ↔ x ≤ -1 := by
  unfold truncate
  split_ifs with h
  · constructor
    · intro hlt
      have hle : ⌈x⌉ ≤ -1 := by omega
      exact (Int.ceil_le.mp hle).trans (by norm_num)
    · intro hle
      have : ⌈x⌉ ≤ -1 := Int.ceil_le.mpr (by exact_mod_cast hle)
      omega
  · have := Int.floor_nonneg.mpr (not_lt.mp h)
    exact ⟨fun hlt ↦ absurd hlt (not_lt.mpr this), fun hle ↦ absurd hle (by linarith)⟩

theorem truncate_le_of_neg_lt {x : ℚ} (h : -1 < x) : 0 ≤ truncate x := by
  rw [← not_lt, truncate_neg_iff]
  exact not_le.mpr h

/-- A dump that has room is within it, and is negative only where a megabyte or more is missing. -/
theorem calcDumpSize_spec (memSize : ℕ) (space : ℚ) :
    (space ≤ -1 → calcDumpSize memSize space < 0) ∧
      (-1 < space → 0 ≤ calcDumpSize memSize space ∧
        (calcDumpSize memSize space : ℚ) ≤ max space 0) := by
  unfold calcDumpSize
  generalize hsize : (if memSize < 512 then (minDumpSize : ℚ)
      else if 128 * 1024 < memSize then (maxDumpSize : ℚ)
      else ((memSize / 2 : ℕ) : ℚ)) = size
  have hnonneg : 0 ≤ size := by
    rw [← hsize]
    split_ifs <;> positivity
  dsimp only
  split_ifs with hzero hless
  · rw [hzero]
    exact ⟨fun h ↦ absurd h (by norm_num), fun _ ↦ ⟨le_rfl, by simp⟩⟩
  · refine ⟨truncate_neg_iff.mpr, fun h ↦ ⟨truncate_le_of_neg_lt h, ?_⟩⟩
    unfold truncate
    split_ifs with hneg
    · have : ⌈space⌉ ≤ 0 := Int.ceil_le.mpr (by exact_mod_cast hneg.le)
      exact le_max_of_le_right (by exact_mod_cast this)
    · exact le_max_of_le_left (Int.floor_le space)
  · have hle := not_lt.mp hless
    rw [truncate_of_nonneg hnonneg]
    exact ⟨fun h ↦ absurd h (by linarith), fun _ ↦ ⟨Int.floor_nonneg.mpr hnonneg,
      le_max_of_le_left ((Int.floor_le size).trans hle)⟩⟩

/-- Swap is within its room, and is tiny only if the room is. -/
theorem calcSwapSize_spec (memSize : ℕ) {space : ℚ} (h : 0 < space) :
    0 < calcSwapSize memSize space ∧ calcSwapSize memSize space ≤ space ∧
      (calcSwapSize memSize space < 1 / 10000 ↔ space < 1 / 10000) := by
  unfold calcSwapSize
  generalize hsize : (if memSize ≤ 4 * 1024 then (1024 : ℚ)
      else if 16 * 1024 < memSize then 4 * 1024
      else 2 * 1024) = size
  have hgreat : 1024 ≤ size := by
    rw [← hsize]
    split_ifs <;> norm_num
  rw [if_neg h.ne']
  dsimp only
  split_ifs with hless
  · exact ⟨h, le_rfl, Iff.rfl⟩
  · have hle := not_lt.mp hless
    exact ⟨by linarith, hle, fun hlt ↦ absurd hlt (by linarith), fun hlt ↦ absurd hlt (by linarith)⟩

theorem sizeOfMb_of_nonneg {x : ℚ} (h : 0 ≤ x) (htiny : ¬ (0 < x ∧ x < 1 / 10000)) :
    sizeOfMb x = .ok ⌊x * 2 ^ 20⌋₊ := by
  rw [sizeOfMb, if_neg (not_lt.mpr h), if_neg htiny]

theorem sizeOfMb_intCast {x : ℤ} (h : 0 ≤ x) : sizeOfMb x = .ok ⌊(x : ℚ) * 2 ^ 20⌋₊ := by
  refine sizeOfMb_of_nonneg (by exact_mod_cast h) fun ⟨hpos, hlt⟩ ↦ ?_
  have : 0 < x := by exact_mod_cast hpos
  have : (1 : ℚ) ≤ x := by exact_mod_cast this
  linarith

/-- A tiny number of megabytes is read as an enormous size. -/
theorem sizeOfMb_of_tiny {x : ℚ} (hpos : 0 < x) (hlt : x < 1 / 10000) :
    ∃ size, sizeOfMb x = .ok size ∧ 2 ^ 60 ≤ size := by
  refine ⟨_, by rw [sizeOfMb, if_neg (not_lt.mpr hpos.le), if_pos ⟨hpos, hlt⟩], Nat.le_floor ?_⟩
  have hlog : (10 : ℚ) ^ Int.log 10 x ≤ x := Int.zpow_log_le_self (by norm_num) hpos
  have hmantissa : 1 ≤ x / (10 : ℚ) ^ Int.log 10 x :=
    (one_le_div (zpow_pos (by norm_num) _)).mpr hlog
  push_cast
  linarith

/-- Sizes that are not negative are allocated. -/
theorem allocate_of_nonneg {swap : ℚ} {dump : ℤ} (hswap : 0 ≤ swap)
    (htiny : ¬ (0 < swap ∧ swap < 1 / 10000)) (hdump : 0 ≤ dump) :
    ∃ allocation, allocate swap dump = .ok allocation ∧ allocation.swapSize = ⌊swap * 2 ^ 20⌋₊ ∧
      allocation.dumpSize = ⌊(dump : ℚ) * 2 ^ 20⌋₊ := by
  refine ⟨⟨if 0 < swap then .zvol else .none, ⌊swap * 2 ^ 20⌋₊, if 0 < dump then .zvol else .none,
    ⌊(dump : ℚ) * 2 ^ 20⌋₊⟩, ?_, rfl, rfl⟩
  rw [allocate, sizeOfMb_of_nonneg hswap htiny]
  show (sizeOfMb (dump : ℚ)).bind _ = _
  rw [sizeOfMb_intCast hdump]
  rfl

theorem allocate_of_neg {swap : ℚ} {dump : ℤ} (hswap : 0 ≤ swap)
    (htiny : ¬ (0 < swap ∧ swap < 1 / 10000))
    (hdump : dump < 0) : allocate swap dump = .error .valueError := by
  have hneg : (dump : ℚ) < 0 := by exact_mod_cast hdump
  rw [allocate, sizeOfMb_of_nonneg hswap htiny]
  show (sizeOfMb (dump : ℚ)).bind _ = _
  rw [sizeOfMb, if_pos hneg]
  rfl

theorem allocate_of_tiny {swap : ℚ} {dump : ℤ} (hpos : 0 < swap) (hlt : swap < 1 / 10000)
    (hdump : 0 ≤ dump) :
    ∃ allocation, allocate swap dump = .ok allocation ∧ 2 ^ 60 ≤ allocation.swapSize := by
  obtain ⟨size, hsize, hgreat⟩ := sizeOfMb_of_tiny hpos hlt
  refine ⟨⟨if 0 < swap then .zvol else .none, size, if 0 < dump then .zvol else .none,
    ⌊(dump : ℚ) * 2 ^ 20⌋₊⟩, ?_, hgreat⟩
  rw [allocate, hsize]
  show (sizeOfMb (dump : ℚ)).bind _ = _
  rw [sizeOfMb_intCast hdump]
  rfl

/-! ### The sizes together -/

section Together

variable {memSize installationSize availableSize : ℕ} {swapIncluded : Bool}

theorem inMb_mul (size : ℕ) : inMb size * 2 ^ 20 = size := by
  rw [inMb]
  field_simp

theorem inMb_lt_iff {size other needed : ℕ} :
    inMb size < inMb other + needed ↔ size < other + needed * 2 ^ 20 := by
  rw [← mul_lt_mul_iff_left₀ (by norm_num : (0 : ℚ) < 2 ^ 20), add_mul, inMb_mul, inMb_mul]
  exact_mod_cast Iff.rfl

theorem fourFifths_le (availableSize : ℕ) :
    (fourFifths availableSize : ℚ) ≤ inMb availableSize * (4 / 5) :=
  Int.floor_le _

theorem truncate_fourFifths (availableSize : ℕ) :
    truncate (inMb availableSize * (4 / 5)) = fourFifths availableSize := by
  refine truncate_of_nonneg ?_
  unfold inMb
  positivity

/-- Sizes that fit in megabytes fit in bytes. -/
theorem bytes_le {swap dump : ℚ} (hswap : 0 ≤ swap) (hdump : 0 ≤ dump) {share : ℚ}
    (h : inMb installationSize + swap + dump ≤ inMb availableSize * share) :
    ((installationSize + ⌊swap * 2 ^ 20⌋₊ + ⌊dump * 2 ^ 20⌋₊ : ℕ) : ℚ) ≤ availableSize * share := by
  have hs := Nat.floor_le (by positivity : 0 ≤ swap * 2 ^ 20)
  have hd := Nat.floor_le (by positivity : 0 ≤ dump * 2 ^ 20)
  have hmul : (inMb installationSize + swap + dump) * 2 ^ 20 ≤ inMb availableSize *
      share * 2 ^ 20 :=
    mul_le_mul_of_nonneg_right h (by positivity)
  have hinstallation := inMb_mul installationSize
  have havailable := inMb_mul availableSize
  push_cast
  calc (installationSize : ℚ) + ⌊swap * 2 ^ 20⌋₊ + ⌊dump * 2 ^ 20⌋₊
      ≤ inMb installationSize * 2 ^ 20 + swap * 2 ^ 20 + dump * 2 ^ 20 := by linarith
    _ = (inMb installationSize + swap + dump) * 2 ^ 20 := by ring
    _ ≤ inMb availableSize * share * 2 ^ 20 := hmul
    _ = availableSize * share := by rw [← havailable]; ring

theorem fits_iff : Fits memSize installationSize availableSize swapIncluded ↔
    installationSize + neededSwap memSize swapIncluded * 2 ^ 20 ≤ availableSize :=
  Iff.rfl

/-- With required swap the dump gets what is left of the four fifths. -/
theorem calcSwapDumpSize_of_required (hmem : memSize < zvolReqMem) :
    calcSwapDumpSize none memSize installationSize availableSize swapIncluded =
      if installationSize + neededSwap memSize swapIncluded * 2 ^ 20 ≤ availableSize then
        allocate minSwapSize (calcDumpSize memSize
          (fourFifths availableSize - (inMb installationSize + neededSwap memSize swapIncluded)))
      else .error .swapDumpSpaceError := by
  have hrequired : getRequiredSwapSize memSize = minSwapSize := if_pos hmem
  unfold calcSwapDumpSize neededSwap
  rw [hrequired, truncate_fourFifths]
  dsimp only
  rw [if_pos (by decide : minSwapSize ≠ 0)]
  by_cases hroom : availableSize < installationSize
  · have hneed : ¬ installationSize + (if swapIncluded = true then 0
        else minSwapSize) * 2 ^ 20 ≤ availableSize := by
      omega
    rw [if_pos hroom, if_neg hneed]
  · rw [if_neg hroom]
    cases swapIncluded with
    | true =>
      simp only [Bool.not_true, Bool.false_and, Bool.false_eq_true, if_false, if_true, Nat.zero_mul,
        Nat.cast_zero, add_zero, if_pos (not_lt.mp hroom)]
    | false =>
      simp only [Bool.false_eq_true, if_false, Bool.not_false, Bool.true_and, decide_eq_true_eq,
        inMb_lt_iff]
      by_cases hneed : availableSize < installationSize + minSwapSize * 2 ^ 20
      · rw [if_pos hneed, if_neg (not_le.mpr hneed)]
      · rw [if_neg hneed, if_pos (not_lt.mp hneed)]

/-- Without required swap, swap and dump share what is left of the four fifths. -/
theorem calcSwapDumpSize_of_optional (hmem : zvolReqMem ≤ memSize) :
    calcSwapDumpSize none memSize installationSize availableSize swapIncluded =
      if installationSize ≤ availableSize then
        let free : ℚ := fourFifths availableSize - inMb installationSize
        let swap := calcSwapSize memSize (free * minSwapSize / (minSwapSize + minDumpSize))
        if 0 < free then allocate swap (calcDumpSize memSize (free - swap)) else allocate 0 0
      else .error .swapDumpSpaceError := by
  have hrequired : getRequiredSwapSize memSize = 0 := if_neg (not_lt.mpr hmem)
  unfold calcSwapDumpSize
  rw [hrequired, truncate_fourFifths]
  by_cases hroom : availableSize < installationSize
  · simp [hroom]
  · simp [hroom, not_lt.mp hroom]

theorem neededSwap_of_optional (hmem : zvolReqMem ≤ memSize) :
    neededSwap memSize swapIncluded = 0 := by
  unfold neededSwap getRequiredSwapSize
  rw [if_neg (not_lt.mpr hmem), ite_self]

theorem neededSwap_of_required (hmem : memSize < zvolReqMem) :
    neededSwap memSize swapIncluded = if swapIncluded then 0 else minSwapSize := by
  rw [neededSwap, getRequiredSwapSize, if_pos hmem]

/-- Without room there is a space error. -/
theorem calcSwapDumpSize_of_not_fits
    (h : ¬ Fits memSize installationSize availableSize swapIncluded) :
    calcSwapDumpSize none memSize installationSize availableSize swapIncluded =
    .error .swapDumpSpaceError := by
  unfold Fits at h
  rcases Nat.lt_or_ge memSize zvolReqMem with hmem | hmem
  · rw [calcSwapDumpSize_of_required hmem, if_neg h]
  · rw [neededSwap_of_optional hmem, Nat.zero_mul, Nat.add_zero] at h
    rw [calcSwapDumpSize_of_optional hmem, if_neg h]

theorem asPromised_iff_of_fits (h : Fits memSize installationSize availableSize swapIncluded) :
    AsPromised memSize installationSize availableSize swapIncluded ↔ ∃ allocation,
      calcSwapDumpSize none memSize installationSize availableSize swapIncluded = .ok allocation ∧
      total memSize installationSize swapIncluded allocation ≤ availableSize ∧
      (zvolReqMem ≤ memSize → total memSize installationSize swapIncluded allocation * 5 ≤
        availableSize * 4) := by
  constructor
  · exact fun hpromised ↦ hpromised.2 h
  · rintro ⟨allocation, hok, hrest⟩
    refine ⟨?_, fun _ ↦ ⟨allocation, hok, hrest⟩⟩
    rw [hok]
    exact ⟨fun herror ↦ (nomatch herror), fun hnot ↦ absurd h hnot⟩

/-- With required swap the function needs all but a megabyte of what is required within the four
fifths. -/
theorem asPromised_iff_of_required (hmem : memSize < zvolReqMem)
    (hfits : Fits memSize installationSize availableSize swapIncluded) :
    AsPromised memSize installationSize availableSize swapIncluded ↔
      inMb installationSize + neededSwap memSize swapIncluded < fourFifths availableSize + 1 := by
  rw [asPromised_iff_of_fits hfits, calcSwapDumpSize_of_required hmem, if_pos (fits_iff.mp hfits)]
  obtain ⟨hneg, hnonneg⟩ := calcDumpSize_spec memSize
    (fourFifths availableSize - (inMb installationSize + neededSwap memSize swapIncluded))
  generalize calcDumpSize memSize
    (fourFifths availableSize - (inMb installationSize + neededSwap memSize swapIncluded)) =
      dump at *
  have hswap : (0 : ℚ) ≤ minSwapSize := by positivity
  have htiny : ¬ ((0 : ℚ) < minSwapSize ∧ (minSwapSize : ℚ) < 1 / 10000) := by
    norm_num [minSwapSize]
  constructor
  · rintro ⟨allocation, hok, -⟩
    by_contra hmissing
    rw [allocate_of_neg hswap htiny (hneg (by linarith))] at hok
    cases hok
  · intro hroom
    obtain ⟨hdump, hle⟩ := hnonneg (by linarith)
    obtain ⟨allocation, hok, hswapSize, hdumpSize⟩ := allocate_of_nonneg hswap htiny hdump
    refine ⟨allocation, hok, ?_, fun hge ↦ absurd hmem (not_lt.mpr hge)⟩
    have hneeded : (0 : ℚ) ≤ neededSwap memSize swapIncluded := by positivity
    have hall : inMb installationSize + neededSwap memSize swapIncluded + dump ≤
        inMb availableSize * 1 := by
      have hfour := fourFifths_le availableSize
      have havailable : 0 ≤ inMb availableSize := by
        unfold inMb
        positivity
      have hfit : inMb installationSize + neededSwap memSize swapIncluded ≤ inMb availableSize :=
        not_lt.mp fun hlt ↦ absurd (inMb_lt_iff.mp hlt) (not_lt.mpr hfits)
      rcases max_cases ((fourFifths availableSize : ℚ) -
        (inMb installationSize + neededSwap memSize swapIncluded)) 0 with ⟨heq, -⟩ | ⟨heq, -⟩ <;>
          linarith
    have hbytes := bytes_le hneeded (by exact_mod_cast hdump) hall
    rw [mul_one] at hbytes
    refine le_trans ?_ (Nat.cast_le.mp hbytes)
    rw [total, hswapSize, hdumpSize, neededSwap_of_required hmem]
    refine Nat.add_le_add_right (Nat.add_le_add_left ?_ _) _
    cases swapIncluded <;> simp [hmem]

/-- Without required swap the installation has to be within the four fifths, and swap must not be
tiny. -/
theorem asPromised_iff_of_optional (hmem : zvolReqMem ≤ memSize)
    (hfits : Fits memSize installationSize availableSize swapIncluded) :
    AsPromised memSize installationSize availableSize swapIncluded ↔
    installationSize * 5 ≤ availableSize * 4 ∧
      ¬ (inMb installationSize < fourFifths availableSize ∧
        fourFifths availableSize - inMb installationSize < 1 / 8000) := by
  rw [asPromised_iff_of_fits hfits, calcSwapDumpSize_of_optional hmem]
  rw [fits_iff, neededSwap_of_optional hmem, Nat.zero_mul, Nat.add_zero] at hfits
  rw [if_pos hfits]
  have htotal : ∀ allocation, total memSize installationSize swapIncluded allocation =
      installationSize + allocation.swapSize + allocation.dumpSize := fun allocation ↦ by
    rw [total, if_neg fun h ↦ absurd h.1 (not_lt.mpr hmem)]
  have hfour := fourFifths_le availableSize
  have hinstallation := inMb_mul installationSize
  have havailable := inMb_mul availableSize
  have hshare : inMb installationSize ≤ inMb availableSize * (4 / 5) ↔
      installationSize * 5 ≤ availableSize * 4 := by
    have hcast : installationSize * 5 ≤ availableSize * 4 ↔
        (installationSize : ℚ) * 5 ≤ availableSize * 4 := by
      exact_mod_cast Iff.rfl
    rw [hcast, ← hinstallation, ← havailable]
    constructor <;> intro h <;> linarith
  dsimp only
  by_cases hfree : 0 < (fourFifths availableSize : ℚ) - inMb installationSize
  · rw [if_pos hfree]
    generalize hroom : (fourFifths availableSize : ℚ) - inMb installationSize = free at *
    have hspace : free * minSwapSize / (minSwapSize + minDumpSize) = free * (4 / 5) := by
      norm_num [minSwapSize, minDumpSize]
      ring
    rw [hspace]
    obtain ⟨hpos, hle, htiny⟩ := calcSwapSize_spec memSize (by linarith : 0 < free * (4 / 5))
    generalize calcSwapSize memSize (free * (4 / 5)) = swap at *
    obtain ⟨hdump, hdumple⟩ := (calcDumpSize_spec memSize (free - swap)).2 (by linarith)
    rw [max_eq_left (by linarith)] at hdumple
    generalize calcDumpSize memSize (free - swap) = dump at *
    by_cases hsmall : free < 1 / 8000
    · refine iff_of_false ?_ fun h ↦ h.2 ⟨by linarith, hsmall⟩
      rintro ⟨allocation, hok, -, hwithin⟩
      obtain ⟨allocation', hok', hgreat⟩ := allocate_of_tiny hpos (htiny.mpr (by linarith)) hdump
      obtain rfl := Except.ok.inj (hok'.symm.trans hok)
      have hmuch := hwithin hmem
      rw [htotal] at hmuch
      have hfloor : inMb availableSize * (4 / 5) < fourFifths availableSize + 1 :=
        Int.lt_floor_add_one _
      have hmuch' : (installationSize : ℚ) * 5 + 5 * 2 ^ 60 ≤ availableSize * 4 := by
        have : installationSize * 5 + 5 * 2 ^ 60 ≤ availableSize * 4 := by omega
        exact_mod_cast this
      linarith
    · have hnot : ¬ (0 < swap ∧ swap < 1 / 10000) := fun h ↦ hsmall (by
        have := htiny.mp h.2
        linarith)
      obtain ⟨allocation, hok, hswapSize, hdumpSize⟩ := allocate_of_nonneg hpos.le hnot hdump
      have hwithin : total memSize installationSize swapIncluded allocation * 5 ≤
          availableSize * 4 := by
        have hbytes := bytes_le hpos.le (by exact_mod_cast hdump)
          (by linarith : inMb installationSize + swap + dump ≤ inMb availableSize * (4 / 5))
        rw [htotal, hswapSize, hdumpSize]
        generalize installationSize + ⌊swap * 2 ^ 20⌋₊ + ⌊(dump : ℚ) * 2 ^ 20⌋₊ = sum at *
        have : (sum : ℚ) * 5 ≤ availableSize * 4 := by linarith
        exact_mod_cast this
      exact iff_of_true ⟨allocation, hok, by omega, fun _ ↦ hwithin⟩
        ⟨hshare.mp (by linarith), fun h ↦ hsmall h.2⟩
  · rw [if_neg hfree]
    have hzero : allocate 0 0 = .ok ⟨.none, 0, .none, 0⟩ := by
      rw [allocate, sizeOfMb_of_nonneg le_rfl fun h ↦ absurd h.1 (lt_irrefl 0)]
      show (sizeOfMb ((0 : ℤ) : ℚ)).bind _ = _
      rw [sizeOfMb_intCast le_rfl]
      norm_num
      rfl
    rw [hzero]
    constructor
    · rintro ⟨allocation, hok, -, hwithin⟩
      obtain rfl := Except.ok.inj hok
      have := hwithin hmem
      rw [htotal] at this
      exact ⟨by simpa using this, fun h ↦ hfree (by linarith)⟩
    · rintro ⟨hwithin, -⟩
      refine ⟨_, rfl, ?_, fun _ ↦ ?_⟩ <;> rw [htotal] <;> simpa using by assumption

/-- The function does what is asked of it exactly if the room is not short where there is room. -/
theorem asPromised_iff (memSize installationSize availableSize : ℕ) (swapIncluded : Bool) :
    AsPromised memSize installationSize availableSize swapIncluded ↔
      (Fits memSize installationSize availableSize swapIncluded →
        Roomy memSize installationSize availableSize swapIncluded) := by
  by_cases hfits : Fits memSize installationSize availableSize swapIncluded
  · rw [imp_iff_right hfits, Roomy]
    rcases Nat.lt_or_ge memSize zvolReqMem with hmem | hmem
    · rw [asPromised_iff_of_required hmem hfits]
      exact ⟨fun h ↦ ⟨fun _ ↦ h, fun hge ↦ absurd hmem (not_lt.mpr hge)⟩, fun h ↦ h.1 hmem⟩
    · rw [asPromised_iff_of_optional hmem hfits]
      exact ⟨fun h ↦ ⟨fun hlt ↦ absurd hlt (not_lt.mpr hmem), fun _ ↦ h⟩, fun h ↦ h.2 hmem⟩
  · refine iff_of_true ⟨?_, fun h ↦ absurd h hfits⟩ fun h ↦ absurd h hfits
    exact iff_of_true (calcSwapDumpSize_of_not_fits hfits) hfits

/-- With little memory nine tenths of the disk are required and the dump gets a negative size; with
enough of it the installation takes more than four fifths. -/
theorem not_asPromised_nine_tenths :
    ¬ AsPromised 512 (8000 * 2 ^ 20) (10000 * 2 ^ 20) false ∧
      ¬ AsPromised 2048 (9000 * 2 ^ 20) (10000 * 2 ^ 20) false := by
  have hfour : fourFifths (10000 * 2 ^ 20) = 8000 := by
    norm_num [fourFifths, inMb]
  have hfits : Fits 512 (8000 * 2 ^ 20) (10000 * 2 ^ 20) false := by
    norm_num [Fits, neededSwap, getRequiredSwapSize, zvolReqMem, minSwapSize]
  have hfits' : Fits 2048 (9000 * 2 ^ 20) (10000 * 2 ^ 20) false := by
    norm_num [Fits, neededSwap, getRequiredSwapSize, zvolReqMem]
  constructor
  · rw [asPromised_iff_of_required (by norm_num [zvolReqMem]) hfits, hfour]
    norm_num [inMb, neededSwap, getRequiredSwapSize, zvolReqMem, minSwapSize]
  · rw [asPromised_iff_of_optional (by norm_num [zvolReqMem]) hfits']
    norm_num

end Together

end Userland.Install.TargetController.SwapDump
