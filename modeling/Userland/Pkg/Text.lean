import Mathlib.Data.List.DropRight

/-!
# Texts

`str.strip`, `str.lower` and the lines of a file, over texts as lists of characters. The lines of a
file are read back as they were written (`readlines_flatten`).
-/

set_option autoImplicit false
set_option relaxedAutoImplicit false

namespace Userland.Pkg.Text

/-- Texts are equal exactly if they are found equal. -/
instance lawfulBEq : LawfulBEq (List Char) :=
  inferInstance

/-- The characters that `str.strip` takes off. -/
def isSpace (c : Char) : Bool :=
  c ∈ [' ', '\t', '\n', '\r', Char.ofNat 11, Char.ofNat 12]

/-- `s.strip()`. -/
def strip (s : List Char) : List Char :=
  (s.dropWhile isSpace).rdropWhile isSpace

/-- `s.lower()`, on ASCII letters. -/
def lower (s : List Char) : List Char :=
  s.map Char.toLower

/-- The lines of a file, each with the character that ends it. -/
def readlines : List Char → List (List Char)
  | [] => []
  | c :: rest =>
    if c = '\n' then [c] :: readlines rest
    else
      match readlines rest with
      | [] => [[c]]
      | first :: more => (c :: first) :: more

theorem readlines_cons_append {text : List Char} (h : '\n' ∉ text) (rest : List Char) :
    readlines (text ++ '\n' :: rest) = (text ++ ['\n']) :: readlines rest := by
  induction text with
  | nil => rw [List.nil_append, readlines, if_pos rfl]; rfl
  | cons c text ih =>
    rw [List.mem_cons, not_or] at h
    rw [List.cons_append, readlines, if_neg (Ne.symm h.1), ih h.2]
    rfl

/-- The lines of a file are the lines that were written to it. -/
theorem readlines_flatten {lines : List (List Char)}
    (h : ∀ text ∈ lines, ∃ inner, text = inner ++ ['\n'] ∧ '\n' ∉ inner) :
    readlines lines.flatten = lines := by
  induction lines with
  | nil => rfl
  | cons text lines ih =>
    obtain ⟨inner, rfl, hinner⟩ := h _ List.mem_cons_self
    rw [List.flatten_cons, List.append_assoc, List.singleton_append, readlines_cons_append hinner,
      ih fun other hother ↦ h other (List.mem_cons_of_mem _ hother)]

theorem flatten_readlines (text : List Char) : (readlines text).flatten = text := by
  induction text with
  | nil => rfl
  | cons c rest ih =>
    rw [readlines]
    split_ifs
    · rw [List.flatten_cons, ih]
      rfl
    · split
      · next hrest =>
        rw [hrest] at ih
        rw [← ih]
        rfl
      · next first more hrest =>
        rw [hrest, List.flatten_cons] at ih
        rw [List.flatten_cons, List.cons_append, ih]

/-- Trailing characters of a kind are taken off with those before them. -/
theorem rdropWhile_append_of_all {p : Char → Bool} {text trailing : List Char}
    (h : ∀ c ∈ trailing, p c = true) : (text ++ trailing).rdropWhile p = text.rdropWhile p := by
  induction trailing using List.reverseRecOn with
  | nil => rw [List.append_nil]
  | append_singleton trailing c ih =>
    rw [← List.append_assoc, List.rdropWhile_concat_pos _ _ _ (h c (by simp)),
      ih fun d hd ↦ h d (List.mem_append_left _ hd)]

end Userland.Pkg.Text
