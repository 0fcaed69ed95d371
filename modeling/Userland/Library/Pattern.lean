import Mathlib.Data.List.Basic

/-!
# Backtracking patterns

`Pattern.rests` lists what remains of a text after a pattern, in the order in which a backtracking
matcher tries the possibilities; the match is the first that what follows the pattern accepts. A
remainder is a suffix of the text (`exists_append_of_mem_rests`), and a pattern does not see past an
element that none of its classes accepts (`rests_append_singleton`).
-/

set_option autoImplicit false
set_option relaxedAutoImplicit false

namespace Userland.Library

/-- Patterns over an alphabet, with greedy repetition. -/
inductive Pattern (α : Type)
  | empty
  | one (accepts : α → Bool)
  | many (accepts : α → Bool)
  | seq (first second : Pattern α)
  | alt (first second : Pattern α)

namespace Pattern

variable {α : Type}

/-- `p?`. -/
def optional (p : Pattern α) : Pattern α :=
  alt p empty

/-- `p{0,bound}`. -/
def upTo (p : Pattern α) : ℕ → Pattern α
  | 0 => empty
  | bound + 1 => optional (seq p (upTo p bound))

/-- What a greedy repetition of a class leaves, the shortest remainder first. -/
def manyRests (accepts : α → Bool) : List α → List (List α)
  | [] => [[]]
  | c :: rest => if accepts c then manyRests accepts rest ++ [c :: rest] else [c :: rest]

/-- The remainders of a text after a pattern, in the order of a backtracking matcher. -/
def rests : Pattern α → List α → List (List α)
  | empty, text => [text]
  | one _, [] => []
  | one accepts, c :: rest => if accepts c then [rest] else []
  | many accepts, text => manyRests accepts text
  | seq first second, text => (rests first text).flatMap (rests second)
  | alt first second, text => rests first text ++ rests second text

/-- No class of the pattern accepts the element. -/
def Avoids (c : α) : Pattern α → Prop
  | empty => True
  | one accepts => accepts c = false
  | many accepts => accepts c = false
  | seq first second => Avoids c first ∧ Avoids c second
  | alt first second => Avoids c first ∧ Avoids c second

theorem Avoids.upTo {c : α} {p : Pattern α} (h : Avoids c p) (bound : ℕ) :
    Avoids c (upTo p bound) := by
  induction bound with
  | zero => trivial
  | succ bound ih => exact ⟨⟨h, ih⟩, trivial⟩

theorem exists_append_of_mem_manyRests {accepts : α → Bool} {text rest : List α}
    (h : rest ∈ manyRests accepts text) :
    ∃ read, text = read ++ rest ∧ ∀ c ∈ read, accepts c = true := by
  induction text with
  | nil =>
    rw [manyRests, List.mem_singleton] at h
    exact ⟨[], by rw [h, List.nil_append], by simp⟩
  | cons c text ih =>
    rw [manyRests] at h
    by_cases hc : accepts c = true
    · rw [if_pos hc, List.mem_append, List.mem_singleton] at h
      rcases h with h | h
      · obtain ⟨read, hread, haccepts⟩ := ih h
        exact ⟨c :: read, by rw [hread, List.cons_append], List.forall_mem_cons.mpr ⟨hc, haccepts⟩⟩
      · exact ⟨[], h.symm, by simp⟩
    · rw [if_neg hc, List.mem_singleton] at h
      exact ⟨[], h.symm, by simp⟩

/-- A remainder is a suffix of the text; what was read has no element that the pattern avoids. -/
theorem exists_append_of_mem_rests {p : Pattern α} {text rest : List α} (h : rest ∈ rests p text) :
    ∃ read, text = read ++ rest ∧ ∀ c, Avoids c p → c ∉ read := by
  induction p generalizing text rest with
  | empty =>
    rw [rests, List.mem_singleton] at h
    exact ⟨[], h.symm, by simp⟩
  | one accepts =>
    cases text with
    | nil => exact absurd h List.not_mem_nil
    | cons c text =>
      rw [rests] at h
      by_cases hc : accepts c = true
      · rw [if_pos hc, List.mem_singleton] at h
        refine ⟨[c], by rw [h, List.singleton_append], fun d (hd : accepts d = false) hmem ↦ ?_⟩
        rw [List.mem_singleton.mp hmem, hc] at hd
        cases hd
      · rw [if_neg hc] at h
        exact absurd h List.not_mem_nil
  | many accepts =>
    obtain ⟨read, hread, haccepts⟩ := exists_append_of_mem_manyRests h
    refine ⟨read, hread, fun c (hc : accepts c = false) hmem ↦ ?_⟩
    rw [haccepts c hmem] at hc
    cases hc
  | seq first second ihfirst ihsecond =>
    rw [rests, List.mem_flatMap] at h
    obtain ⟨middle, hmiddle, hrest⟩ := h
    obtain ⟨read, hread, hfirst⟩ := ihfirst hmiddle
    obtain ⟨more, hmore, hsecond⟩ := ihsecond hrest
    refine ⟨read ++ more, by rw [hread, hmore, List.append_assoc], fun c hc hmem ↦ ?_⟩
    rcases List.mem_append.mp hmem with hmem | hmem
    · exact hfirst c hc.1 hmem
    · exact hsecond c hc.2 hmem
  | alt first second ihfirst ihsecond =>
    rw [rests, List.mem_append] at h
    rcases h with h | h
    · obtain ⟨read, hread, hfirst⟩ := ihfirst h
      exact ⟨read, hread, fun c hc ↦ hfirst c hc.1⟩
    · obtain ⟨read, hread, hsecond⟩ := ihsecond h
      exact ⟨read, hread, fun c hc ↦ hsecond c hc.2⟩

theorem manyRests_append_singleton {accepts : α → Bool} {c : α} (h : accepts c = false)
    (text : List α) :
    manyRests accepts (text ++ [c]) = (manyRests accepts text).map (· ++ [c]) := by
  induction text with
  | nil => simp [manyRests, h]
  | cons d text ih =>
    rw [List.cons_append, manyRests, manyRests, ih]
    by_cases hd : accepts d = true
    · rw [if_pos hd, if_pos hd, List.map_append]
      rfl
    · rw [if_neg hd, if_neg hd]
      rfl

/-- An element that no class accepts stays at the end of every remainder. -/
theorem rests_append_singleton {p : Pattern α} {c : α} (h : Avoids c p) (text : List α) :
    rests p (text ++ [c]) = (rests p text).map (· ++ [c]) := by
  induction p generalizing text with
  | empty => rfl
  | one accepts =>
    cases text with
    | nil =>
      have hc : accepts c = false := h
      simp [rests, hc]
    | cons d text =>
      rw [List.cons_append, rests, rests]
      by_cases hd : accepts d = true
      · rw [if_pos hd, if_pos hd]
        rfl
      · rw [if_neg hd, if_neg hd]
        rfl
  | many accepts => exact manyRests_append_singleton h text
  | seq first second ihfirst ihsecond =>
    rw [rests, rests, ihfirst h.1, List.flatMap_map, List.map_flatMap]
    exact List.flatMap_congr fun rest _ ↦ ihsecond h.2 rest
  | alt first second ihfirst ihsecond =>
    rw [rests, rests, ihfirst h.1, ihsecond h.2, List.map_append]

end Pattern

end Userland.Library
