import Userland.Pkg.Numeral

/-!
# Sizes

A `Size` is made from a text, a number with a unit, and counts bytes. Most sizes are made from a
number of sectors that is printed and read back: `ofSectors_natCast` says that this keeps the
number, and `ofSectors_neg` that there is no text for a negative one.

Scope. What Python does with a number that has a point in it is a parameter (`Floats`).
-/

set_option autoImplicit false
set_option relaxedAutoImplicit false

namespace Userland.Install.Target

open Userland.Pkg

/-- What is raised, mostly for a text of which no size is made. -/
inductive TargetError
  | valueError
  | keyError (unit : List Char)
  | typeError
  | overflowError
  | attributeError
deriving DecidableEq

/-- `float` of a text, where `none` is `ValueError`, and `long` of its product with a whole number.
-/
structure Floats where
  Value : Type
  float : List Char → Option Value
  longMul : Value → ℕ → Except TargetError ℕ

/-- A number of bytes, and the number of bytes in a sector. -/
@[ext]
structure Size where
  byteValue : ℕ
  blocksize : ℕ
  blocksize_pos : 0 < blocksize
deriving DecidableEq

namespace Size

/-- `[\d+\.]`. -/
def isNumberChar (c : Char) : Bool :=
  c.isDigit || c = '+' || c = '.'

/-- `\w`. -/
def isWordChar (c : Char) : Bool :=
  c.isAlphanum || c = '_'

/-- `sector_units`. -/
def sectorUnits : List Char := ['s', 'e', 'c', 's']

/-- `s_units`. -/
def sUnits : List Char := ['s']

/-- `byte_units`. -/
def byteUnits : List Char := ['b']

/-- The texts among the keys of `units`. -/
def units : List (List Char × ℕ) :=
  [(['k'], 2 ^ 10), (['k', 'b'], 2 ^ 10), (['m'], 2 ^ 20), (['m', 'b'], 2 ^ 20), (['g'], 2 ^ 30),
    (['g', 'b'], 2 ^ 30),
    (['t'], 2 ^ 40), (['t', 'b'], 2 ^ 40), (['p'], 2 ^ 50), (['p', 'b'], 2 ^ 50), (['e'], 2 ^ 60),
      (['e', 'b'], 2 ^ 60),
    (['z'], 2 ^ 70), (['z', 'b'], 2 ^ 70)]

/-- `valid_units`. -/
def validUnits : List (List Char) :=
  units.map Prod.fst ++ [byteUnits, sectorUnits, sUnits]

/-- `int` of a row of digits, points and plus signs; `none` is `ValueError`. -/
def int : List Char → Option ℕ
  | '+' :: digits => Text.digitsValue digits
  | digits => Text.digitsValue digits

section New

variable (floats : Floats)

/-- `long(value * factor)` for the number that a text stands for. -/
def scaled (number : List Char) (factor : ℕ) : Except TargetError ℕ :=
  match int number with
  | some value => .ok (value * factor)
  | none =>
    match floats.float number with
    | none => .error .valueError
    | some value => floats.longMul value factor

/-- The number of bytes for a number and a unit. -/
def bytes (number suffix : List Char) (blocksize : ℕ) : Except TargetError ℕ :=
  if !validUnits.any (Text.lower suffix = ·) then .error .valueError
  else if suffix = byteUnits then scaled floats number 1
  else if suffix = sectorUnits ∨ suffix = sUnits then scaled floats number blocksize
  else
    match units.lookup (Text.lower suffix) with
    | some factor => scaled floats number factor
    | none => .error (.keyError (Text.lower suffix))

/-- `Size(humanreadable)`, with sectors of 512 bytes. -/
def new (humanreadable : List Char) : Except TargetError Size :=
  let number := humanreadable.takeWhile isNumberChar
  let suffix := (humanreadable.dropWhile isNumberChar).takeWhile isWordChar
  if number.isEmpty ∨ int number = none ∧ (floats.float number).isNone ∨
    suffix.isEmpty then .error .valueError
  else (bytes floats number suffix 512).map fun byteValue ↦ ⟨byteValue, 512, by decide⟩

/-- `Size(str(n) + Size.sector_units)`. -/
def ofSectors (n : ℤ) : Except TargetError Size :=
  new floats (Text.strInt n ++ sectorUnits)

end New

/-- `sectors`. -/
def sectors (s : Size) : ℕ :=
  s.byteValue / s.blocksize

/-- A size of whole sectors of 512 bytes. -/
def secs (n : ℕ) : Size :=
  ⟨n * 512, 512, by decide⟩

@[simp]
theorem sectors_secs (n : ℕ) : (secs n).sectors = n :=
  Nat.mul_div_cancel n (by decide)

theorem int_toDigits (n : ℕ) : int (Nat.toDigits 10 n) = some n := by
  have hdigits := Text.digitsValue_toDigits n
  unfold int
  split
  · next digits heq =>
    have hplus : '+' ∈ Nat.toDigits 10 n := heq ▸ List.mem_cons_self
    cases Text.isDigit_of_mem_toDigits hplus
  · exact hdigits

theorem takeWhile_toDigits (n : ℕ) :
    (Nat.toDigits 10 n ++ sectorUnits).takeWhile isNumberChar = Nat.toDigits 10 n ∧
      (Nat.toDigits 10 n ++ sectorUnits).dropWhile isNumberChar = sectorUnits := by
  have hall : ∀ c ∈ Nat.toDigits 10 n, isNumberChar c = true := fun c hc ↦ by
    rw [isNumberChar, Text.isDigit_of_mem_toDigits hc, Bool.true_or, Bool.true_or]
  rw [List.takeWhile_append_of_pos hall, List.dropWhile_append_of_pos hall]
  exact ⟨List.append_nil _, rfl⟩

/-- A number of sectors that is printed and read is the number. -/
theorem ofSectors_natCast (floats : Floats) (n : ℕ) : ofSectors floats (n : ℤ) = .ok (secs n) := by
  obtain ⟨htake, hdrop⟩ := takeWhile_toDigits n
  have htext : Text.strInt (n : ℤ) = Nat.toDigits 10 n :=
    if_neg (not_lt_of_ge (Int.natCast_nonneg n))
  have hne : (Nat.toDigits 10 n).isEmpty = false :=
    List.isEmpty_eq_false_iff.mpr Nat.toDigits_ne_nil
  have hbytes : bytes floats (Nat.toDigits 10 n) sectorUnits 512 = .ok (n * 512) := by
    have hscaled : scaled floats (Nat.toDigits 10 n) 512 = .ok (n * 512) := by
      rw [scaled, int_toDigits]
    exact hscaled
  rw [ofSectors, new, htext, htake, hdrop, int_toDigits, hne]
  have hsuffix : (sectorUnits.takeWhile isWordChar).isEmpty = false := rfl
  rw [hsuffix, if_neg (by simp)]
  show (bytes floats (Nat.toDigits 10 n) sectorUnits 512).map _ = _
  rw [hbytes]
  rfl

/-- A negative number of sectors has a text that is no size. -/
theorem ofSectors_neg (floats : Floats) {n : ℤ} (h : n < 0) :
    ofSectors floats n = .error .valueError := by
  rw [ofSectors, new, Text.strInt, if_pos h]
  rfl

end Size
end Userland.Install.Target
