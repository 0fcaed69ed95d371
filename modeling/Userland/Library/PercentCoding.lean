import Mathlib.Data.List.Basic

/-!
# Texts with characters in hexadecimal

Every character that is not safe is written as a percent sign and the two hexadecimal digits of its
code. A text of bytes is read back (`unquote_quote`), and what is written has safe characters,
percent signs and digits in it only (`mem_quote`).
-/

set_option autoImplicit false
set_option relaxedAutoImplicit false

namespace Userland.Library.PercentCoding

/-- A hexadecimal digit. -/
def hexDigit (n : ℕ) : Char :=
  if n < 10 then Char.ofNat (48 + n) else Char.ofNat (55 + n)

/-- The value of a hexadecimal digit in capitals or not. -/
def hexValue (c : Char) : Option ℕ :=
  if c.isDigit then some (c.toNat - 48)
  else if 'A' ≤ c ∧ c ≤ 'F' then some (c.toNat - 55)
  else if 'a' ≤ c ∧ c ≤ 'f' then some (c.toNat - 87)
  else none

section Quote

variable (safe : Char → Bool)

/-- A character as it is written. -/
def quoteChar (c : Char) : List Char :=
  if safe c then [c] else ['%', hexDigit (c.toNat / 16), hexDigit (c.toNat % 16)]

/-- A text as it is written. -/
def quote (text : List Char) : List Char :=
  text.flatMap (quoteChar safe)

end Quote

/-- A text as it is read. A percent sign without two digits after it stands for itself. -/
def unquote : List Char → List Char
  | '%' :: a :: b :: rest =>
    match hexValue a, hexValue b with
    | some high, some low => Char.ofNat (16 * high + low) :: unquote rest
    | _, _ => '%' :: unquote (a :: b :: rest)
  | c :: rest => c :: unquote rest
  | [] => []

variable {safe : Char → Bool} {text : List Char} {c : Char}

theorem unquote_cons_of_ne (h : c ≠ '%') (rest : List Char) :
    unquote (c :: rest) = c :: unquote rest := by
  rw [unquote]
  exact fun a b tail hpercent hrest ↦ absurd hpercent h

theorem hexValue_hexDigit : ∀ n < 16, hexValue (hexDigit n) = some n := by
  decide

theorem hexDigit_mem : ∀ n < 16, hexDigit n ∈ "0123456789ABCDEF".toList := by
  decide

/-- The digits of a byte are read back. -/
theorem unquote_quoteChar (hpercent : safe '%' = false) (h : c.toNat < 256) (rest : List Char) :
    unquote (quoteChar safe c ++ rest) = c :: unquote rest := by
  rw [quoteChar]
  split_ifs with hsafe
  · refine unquote_cons_of_ne ?_ rest
    rintro rfl
    exact Bool.false_ne_true (hpercent.symm.trans hsafe)
  · show unquote ('%' :: hexDigit (c.toNat / 16) :: hexDigit (c.toNat % 16) :: rest) = _
    rw [unquote, hexValue_hexDigit _ (by omega), hexValue_hexDigit _ (by omega)]
    dsimp only
    rw [Nat.div_add_mod, Char.ofNat_toNat]

/-- A text of bytes is read back. -/
theorem unquote_quote (hpercent : safe '%' = false) (h : ∀ c ∈ text, c.toNat < 256) :
    unquote (quote safe text) = text := by
  induction text with
  | nil => rfl
  | cons c rest ih =>
    obtain ⟨hc, hrest⟩ := List.forall_mem_cons.mp h
    have hcons : quote safe (c :: rest) = quoteChar safe c ++ quote safe rest := List.flatMap_cons
    rw [hcons, unquote_quoteChar hpercent hc, ih hrest]

/-- A character of what is written is a safe one of the text, a percent sign, or a digit. -/
theorem mem_quote {d : Char} (hbytes : ∀ c ∈ text, c.toNat < 256) (h : d ∈ quote safe text) :
    d ∈ text ∧ safe d = true ∨ d ∈ "%0123456789ABCDEF".toList := by
  obtain ⟨c, hc, hd⟩ := List.mem_flatMap.mp h
  rw [quoteChar] at hd
  split_ifs at hd with hsafe
  · obtain rfl := List.mem_singleton.mp hd
    exact Or.inl ⟨hc, hsafe⟩
  · have hlt := hbytes c hc
    refine Or.inr ?_
    simp only [List.mem_cons, List.not_mem_nil, or_false] at hd
    rcases hd with rfl | rfl | rfl
    · decide
    · exact List.mem_cons_of_mem _ (hexDigit_mem _ (by omega))
    · exact List.mem_cons_of_mem _ (hexDigit_mem _ (by omega))

/-- A safe character is written as it is. -/
theorem mem_quote_of_safe {d : Char} (hmem : d ∈ text) (hsafe : safe d = true) :
    d ∈ quote safe text :=
  List.mem_flatMap.mpr ⟨d, hmem, by rw [quoteChar, if_pos hsafe]; exact List.mem_cons_self⟩

theorem quote_append (first second : List Char) :
    quote safe (first ++ second) = quote safe first ++ quote safe second :=
  List.flatMap_append

end Userland.Library.PercentCoding
