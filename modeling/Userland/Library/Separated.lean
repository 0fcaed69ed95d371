import Mathlib.Data.List.DropRight

/-!
# Texts split at a separator

The pieces of a text between separators, without the blank ones at its end (`dropBlanks`) and
without the padding around a separator (`stripPieces`), and the text that joins pieces. Pieces that
were split off and joined are split off again (`dropBlanks_splitOn_intercalate`,
`stripPieces_of_isPrefix`). The words of a text are its runs of characters between blanks, and words
that were joined by a blank are found again (`words_intercalate`).
-/

set_option autoImplicit false
set_option relaxedAutoImplicit false

namespace Userland.Library

variable {α : Type}

/-! ### Stripping -/

/-- A text that was stripped on both sides has nothing left to take off in front. -/
theorem dropWhile_rdropWhile_dropWhile (p : α → Bool) (text : List α) :
    ((text.dropWhile p).rdropWhile p).dropWhile p = (text.dropWhile p).rdropWhile p := by
  rw [List.dropWhile_eq_self_iff]
  intro hpos
  have hne : text.dropWhile p ≠ [] := by
    intro hnil
    simp [hnil] at hpos
  have hhead := List.head_dropWhile_not p hne
  obtain ⟨c, rest, heq⟩ := List.exists_cons_of_ne_nil (List.ne_nil_of_length_pos hpos)
  obtain ⟨tail, htail⟩ := List.rdropWhile_prefix p (text.dropWhile p)
  simp only [heq, List.cons_append] at htail ⊢
  simp only [← htail, List.head_cons] at hhead
  simp [hhead]

/-- Pieces that follow a separator, without the padding around separators. -/
def stripRest (p : α → Bool) : List (List α) → List (List α)
  | [] => []
  | [last] => [last.dropWhile p]
  | piece :: rest => (piece.dropWhile p).rdropWhile p :: stripRest p rest

/-- The pieces of a text without the padding around separators. -/
def stripPieces (p : α → Bool) : List (List α) → List (List α)
  | [] => []
  | [only] => [only]
  | piece :: rest => piece.rdropWhile p :: stripRest p rest

theorem stripRest_of_isPrefix (p : α → Bool) (list : List (List α)) {initial : List (List α)}
    (h : initial <+: stripRest p list) : stripRest p initial = initial := by
  induction list generalizing initial with
  | nil =>
    rw [List.prefix_nil.mp h]
    rfl
  | cons piece rest ih =>
    cases initial with
    | nil => rfl
    | cons first initial =>
      cases rest with
      | nil =>
        rw [stripRest, List.cons_prefix_cons, List.prefix_nil] at h
        obtain ⟨rfl, rfl⟩ := h
        rw [stripRest, List.dropWhile_idempotent]
      | cons second rest =>
        rw [stripRest, List.cons_prefix_cons] at h
        · obtain ⟨rfl, hinitial⟩ := h
          cases initial with
          | nil => rw [stripRest, dropWhile_rdropWhile_dropWhile]
          | cons next initial =>
            rw [stripRest, ih hinitial, dropWhile_rdropWhile_dropWhile, List.rdropWhile_idempotent]
            simp
        · simp

/-- Stripped pieces, and those of them that come first, have no padding. -/
theorem stripPieces_of_isPrefix (p : α → Bool) (list : List (List α)) {initial : List (List α)}
    (h : initial <+: stripPieces p list) : stripPieces p initial = initial := by
  cases initial with
  | nil => rfl
  | cons first initial =>
    cases initial with
    | nil => rfl
    | cons second initial =>
      match list, h with
      | [], h => exact absurd (List.prefix_nil.mp h) (List.cons_ne_nil _ _)
      | [only], h =>
        rw [stripPieces, List.cons_prefix_cons, List.prefix_nil] at h
        exact absurd h.2 (List.cons_ne_nil _ _)
      | piece :: next :: rest, h =>
        rw [stripPieces, List.cons_prefix_cons] at h
        · obtain ⟨rfl, hinitial⟩ := h
          rw [stripPieces, List.rdropWhile_idempotent, stripRest_of_isPrefix p _ hinitial]
          simp
        · simp

variable {p : α → Bool} {list : List (List α)}

theorem mem_of_mem_stripRest {piece : List α}
    (h : piece ∈ stripRest p list) : ∃ whole ∈ list, piece ⊆ whole := by
  induction list with
  | nil => exact absurd h List.not_mem_nil
  | cons first rest ih =>
    have hstrip : ((first.dropWhile p).rdropWhile p) ⊆ first := fun c hc ↦
      (List.dropWhile_sublist p).mem ((List.rdropWhile_prefix p _).sublist.mem hc)
    cases rest with
    | nil =>
      rw [stripRest, List.mem_singleton] at h
      exact ⟨first, List.mem_cons_self, h ▸ (List.dropWhile_sublist p).subset⟩
    | cons second rest =>
      rw [stripRest, List.mem_cons] at h
      · rcases h with rfl | h
        · exact ⟨first, List.mem_cons_self, hstrip⟩
        · obtain ⟨whole, hwhole, hsubset⟩ := ih h
          exact ⟨whole, List.mem_cons_of_mem _ hwhole, hsubset⟩
      · simp

/-- A stripped piece has characters of a piece only. -/
theorem mem_of_mem_stripPieces {piece : List α}
    (h : piece ∈ stripPieces p list) : ∃ whole ∈ list, piece ⊆ whole := by
  match list, h with
  | [], h => exact absurd h List.not_mem_nil
  | [only], h =>
    rw [stripPieces, List.mem_singleton] at h
    exact ⟨only, List.mem_cons_self, h ▸ List.Subset.refl _⟩
  | first :: second :: rest, h =>
    rw [stripPieces, List.mem_cons] at h
    · rcases h with rfl | h
      · exact ⟨first, List.mem_cons_self, (List.rdropWhile_prefix p first).subset⟩
      · obtain ⟨whole, hwhole, hsubset⟩ := mem_of_mem_stripRest h
        exact ⟨whole, List.mem_cons_of_mem _ hwhole, hsubset⟩
    · simp

/-! ### Splitting and joining -/

/-- A piece has no separator and only characters of the text. -/
theorem of_mem_splitOn [DecidableEq α] {separator : α} {text piece : List α}
    (h : piece ∈ text.splitOn separator) :
    separator ∉ piece ∧ piece ⊆ text := by
  induction text generalizing piece with
  | nil =>
    rw [List.splitOn_nil, List.mem_singleton] at h
    rw [h]
    exact ⟨List.not_mem_nil, List.Subset.refl _⟩
  | cons c text ih =>
    rw [List.splitOn_cons_eq_if_modifyHead] at h
    by_cases hc : (c == separator) = true
    · rw [if_pos hc, List.mem_cons] at h
      rcases h with rfl | h
      · exact ⟨List.not_mem_nil, List.nil_subset _⟩
      · exact ⟨(ih h).1, List.subset_cons_of_subset _ (ih h).2⟩
    · rw [if_neg hc] at h
      obtain ⟨first, rest, hsplit⟩ :=
        List.exists_cons_of_ne_nil (List.splitOn_ne_nil separator text)
      rw [hsplit, List.modifyHead_cons, List.mem_cons] at h
      have hne : separator ≠ c := fun heq ↦ hc (beq_iff_eq.mpr heq.symm)
      rcases h with rfl | h
      · have hfirst := ih (hsplit ▸ List.mem_cons_self : first ∈ text.splitOn separator)
        exact ⟨List.not_mem_cons_of_ne_of_not_mem hne hfirst.1, List.cons_subset_cons _ hfirst.2⟩
      · have hrest := ih (hsplit ▸ List.mem_cons_of_mem _ h : piece ∈ text.splitOn separator)
        exact ⟨hrest.1, List.subset_cons_of_subset _ hrest.2⟩

/-- The pieces without the blank ones at the end. -/
def dropBlanks (list : List (List α)) : List (List α) :=
  list.rdropWhile List.isEmpty

theorem dropBlanks_isPrefix (list : List (List α)) : dropBlanks list <+: list :=
  List.rdropWhile_prefix _ _

theorem getLast_dropBlanks_ne_nil (h : dropBlanks list ≠ []) :
    (dropBlanks list).getLast h ≠ [] := by
  have hlast := List.rdropWhile_last_not List.isEmpty list h
  rwa [List.isEmpty_iff] at hlast

theorem dropBlanks_of_getLast_ne_nil (h : ∀ hne : list ≠ [], list.getLast hne ≠ []) :
    dropBlanks list = list :=
  List.rdropWhile_eq_self_iff.mpr fun hne ↦ by
    rw [List.isEmpty_iff]
    exact h hne

/-- Pieces without separators, the last of which is not blank, are split off a text that joins them.
-/
theorem dropBlanks_splitOn_intercalate [DecidableEq α] {separator : α}
    (hmem : ∀ piece ∈ list, separator ∉ piece) (hlast : ∀ hne : list ≠ [], list.getLast hne ≠ []) :
    dropBlanks (([separator].intercalate list).splitOn separator) = list := by
  by_cases hlist : list = []
  · subst hlist
    simp [dropBlanks, List.rdropWhile]
  · rw [List.splitOn_intercalate separator hmem hlist, dropBlanks_of_getLast_ne_nil hlast]

theorem mem_intercalate {separator : List α} {c : α}
    (h : c ∈ separator.intercalate list) : c ∈ separator ∨ ∃ piece ∈ list, c ∈ piece := by
  induction list with
  | nil => simp at h
  | cons first rest ih =>
    cases rest with
    | nil =>
      rw [List.intercalate_singleton] at h
      exact .inr ⟨first, List.mem_cons_self, h⟩
    | cons second rest =>
      rw [List.intercalate_cons_cons, List.mem_append, List.mem_append] at h
      rcases h with (h | h) | h
      · exact .inr ⟨first, List.mem_cons_self, h⟩
      · exact .inl h
      · rcases ih h with h | ⟨piece, hpiece, hc⟩
        · exact .inl h
        · exact .inr ⟨piece, List.mem_cons_of_mem _ hpiece, hc⟩

/-! ### Words -/

/-- The runs of characters between blanks. -/
def words (p : α → Bool) (text : List α) : List (List α) :=
  (text.splitOnP p).filter fun word ↦ !word.isEmpty

theorem words_of_forall {text : List α} (hne : text ≠ []) (h : ∀ c ∈ text, p c = false) :
    words p text = [text] := by
  rw [words, List.splitOnP_eq_singleton h, List.filter_cons_of_pos (by simpa using hne),
    List.filter_nil]

theorem words_append_cons {c : α} (hc : p c = true) (text rest : List α) :
    words p (text ++ c :: rest) = words p text ++ words p rest := by
  rw [words, List.splitOnP_append_cons _ _ hc, List.filter_append]
  rfl

theorem forall_of_mem_splitOnP {text piece : List α} (h : piece ∈ text.splitOnP p) :
    ∀ c ∈ piece, p c = false := by
  induction text generalizing piece with
  | nil =>
    rw [List.splitOnP_nil, List.mem_singleton] at h
    simp [h]
  | cons c text ih =>
    rw [List.splitOnP_cons_eq_if_modifyHead] at h
    by_cases hc : p c = true
    · rw [if_pos hc, List.mem_cons] at h
      rcases h with rfl | h
      · simp
      · exact ih h
    · rw [if_neg hc] at h
      obtain ⟨first, rest, hsplit⟩ := List.exists_cons_of_ne_nil (List.splitOnP_ne_nil p text)
      rw [hsplit, List.modifyHead_cons, List.mem_cons] at h
      rcases h with rfl | h
      · exact List.forall_mem_cons.mpr ⟨Bool.eq_false_iff.mpr hc, ih (hsplit ▸ List.mem_cons_self)⟩
      · exact ih (hsplit ▸ List.mem_cons_of_mem _ h)

/-- A word is not empty and has no blank. -/
theorem of_mem_words {text word : List α} (h : word ∈ words p text) :
    word ≠ [] ∧ ∀ c ∈ word, p c = false := by
  obtain ⟨hmem, hne⟩ := List.mem_filter.mp h
  exact ⟨by simpa using hne, forall_of_mem_splitOnP hmem⟩

theorem splitOnP_map {β : Type} (f : α → β) (p : β → Bool) (text : List α) :
    (text.map f).splitOnP p = (text.splitOnP (p ∘ f)).map (List.map f) := by
  induction text with
  | nil => rfl
  | cons c text ih =>
    rw [List.map_cons, List.splitOnP_cons_eq_if_modifyHead, List.splitOnP_cons_eq_if_modifyHead, ih]
    by_cases hc : p (f c) = true
    · rw [if_pos hc, if_pos (show (p ∘ f) c = true from hc)]
      rfl
    · rw [if_neg hc, if_neg (show ¬ (p ∘ f) c = true from hc)]
      cases text.splitOnP (p ∘ f) <;> rfl

/-- The words of a text in which some characters were replaced by blanks. -/
theorem words_map {f : α → α} (hf : ∀ c, p (f c) = false → f c = c) (text : List α) :
    words p (text.map f) = words (p ∘ f) text := by
  rw [words, splitOnP_map, List.filter_map, words]
  have hempty : ((fun word : List α ↦ !word.isEmpty) ∘ List.map f) = fun word ↦ !word.isEmpty := by
    funext word
    cases word <;> rfl
  rw [hempty]
  refine (List.map_congr_left fun word hword ↦ ?_).trans (List.map_id _)
  refine (List.map_congr_left fun c hc ↦ ?_).trans (List.map_id _)
  exact hf c (forall_of_mem_splitOnP (List.mem_filter.mp hword).1 c hc)

/-- The words of pieces that were joined by a blank are those of the pieces. -/
theorem words_intercalate_eq_flatMap {blank : α} (hblank : p blank = true)
    (list : List (List α)) : words p ([blank].intercalate list) = list.flatMap (words p) := by
  induction list with
  | nil => rfl
  | cons first rest ih =>
    cases rest with
    | nil => rw [List.intercalate_singleton, List.flatMap_cons, List.flatMap_nil, List.append_nil]
    | cons second rest =>
      rw [List.intercalate_cons_cons, List.append_assoc, List.singleton_append,
        words_append_cons hblank, ih]
      rfl

/-- Words that were joined by a blank are found again. -/
theorem words_intercalate {blank : α} (hblank : p blank = true)
    (h : ∀ word ∈ list, word ≠ [] ∧ ∀ c ∈ word, p c = false) :
    words p ([blank].intercalate list) = list := by
  rw [words_intercalate_eq_flatMap hblank,
    List.flatMap_congr fun word hword ↦ words_of_forall (h word hword).1 (h word hword).2]
  exact List.flatMap_singleton' list

/-- A blank at the end of a text adds no word. -/
theorem words_append_blank {blank : α} (hblank : p blank = true) (text : List α) :
    words p (text ++ [blank]) = words p text := by
  rw [words_append_cons hblank]
  exact List.append_nil _

end Userland.Library
