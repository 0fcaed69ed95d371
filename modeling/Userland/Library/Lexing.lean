import Userland.Library.QuotedFields

/-!
# Reading tokens

A lexer reads a text from the left and keeps the token that is not ended yet. Some characters, the
marks, are tokens of their own wherever they do not stand inside another token. A text that is put
together from fixed parts and from values has the tokens of its form exactly if each value leaves
the mark behind it outside (`tokens_eq_sampled_iff`): a mark that is taken into another token is
missed in the count (`countP_tokens_le`).

Scope: no value contains a mark.
-/

set_option autoImplicit false
set_option relaxedAutoImplicit false

namespace Userland.Library

variable {α σ : Type*} {τ : Type}

/-- The states are the tokens that are read. -/
structure Lexer (α σ : Type*) (τ : Type) where
  blank : σ
  start : α → σ
  extend : σ → α → Option σ
  finish : σ → List τ
  finish_blank : finish blank = []
  extend_blank : ∀ c, extend blank c = none

namespace Lexer

variable (lexer : Lexer α σ τ)

/-- The token that is read at the end of a text. -/
def ending (s : σ) : List α → σ
  | [] => s
  | c :: rest =>
    match lexer.extend s c with
    | some next => ending next rest
    | none => ending (lexer.start c) rest

/-- The tokens of a text. -/
def tokens (s : σ) : List α → List τ
  | [] => lexer.finish s
  | c :: rest =>
    match lexer.extend s c with
    | some next => tokens next rest
    | none => lexer.finish s ++ tokens (lexer.start c) rest

/-- Nothing can be added to the token. -/
def Sealed (s : σ) : Prop :=
  ∀ c, lexer.extend s c = none

variable {lexer} {s next : σ} {c : α} {text rest : List α}

theorem ending_cons_of_some (h : lexer.extend s c = some next) :
    lexer.ending s (c :: rest) = lexer.ending next rest := by
  rw [ending, h]

theorem ending_cons_of_none (h : lexer.extend s c = none) :
    lexer.ending s (c :: rest) = lexer.ending (lexer.start c) rest := by
  rw [ending, h]

theorem tokens_cons_of_some (h : lexer.extend s c = some next) :
    lexer.tokens s (c :: rest) = lexer.tokens next rest := by
  rw [tokens, h]

theorem tokens_cons_of_none (h : lexer.extend s c = none) :
    lexer.tokens s (c :: rest) = lexer.finish s ++ lexer.tokens (lexer.start c) rest := by
  rw [tokens, h]

theorem ending_append (s : σ) (text rest : List α) :
    lexer.ending s (text ++ rest) = lexer.ending (lexer.ending s text) rest := by
  induction text generalizing s with
  | nil => rfl
  | cons c text ih =>
    rw [List.cons_append]
    cases h : lexer.extend s c with
    | none => rw [ending_cons_of_none h, ending_cons_of_none h, ih]
    | some next => rw [ending_cons_of_some h, ending_cons_of_some h, ih]

/-- A text is read on from the token that another one leaves. -/
theorem exists_tokens_append (s : σ) (text : List α) : ∃ read, ∀ rest,
    lexer.tokens s (text ++ rest) = read ++ lexer.tokens (lexer.ending s text) rest := by
  induction text generalizing s with
  | nil => exact ⟨[], fun _ ↦ rfl⟩
  | cons c text ih =>
    cases h : lexer.extend s c with
    | none =>
      obtain ⟨read, hread⟩ := ih (lexer.start c)
      refine ⟨lexer.finish s ++ read, fun rest ↦ ?_⟩
      rw [List.cons_append, tokens_cons_of_none h, ending_cons_of_none h, hread, List.append_assoc]
    | some next =>
      obtain ⟨read, hread⟩ := ih next
      refine ⟨read, fun rest ↦ ?_⟩
      rw [List.cons_append, tokens_cons_of_some h, ending_cons_of_some h, hread]

/-- Where a token is ended, the next one is read by itself. -/
theorem tokens_append_cons (h : lexer.extend (lexer.ending s text) c = none) :
    lexer.tokens s (text ++ c :: rest) = lexer.tokens s text ++
    lexer.tokens (lexer.start c) rest := by
  obtain ⟨read, hread⟩ : ∃ read, ∀ rest, lexer.tokens s (text ++ rest) =
      read ++ lexer.tokens (lexer.ending s text) rest := exists_tokens_append s text
  have htext := hread []
  rw [List.append_nil] at htext
  rw [hread, htext, tokens_cons_of_none h, List.append_assoc]
  rfl

theorem tokens_of_sealed (h : lexer.Sealed s) (rest : List α) :
    lexer.tokens s rest = lexer.finish s ++ lexer.tokens lexer.blank rest := by
  cases rest with
  | nil =>
    rw [tokens, tokens, lexer.finish_blank, List.append_nil]
  | cons c rest =>
    rw [tokens_cons_of_none (h c), tokens_cons_of_none (lexer.extend_blank c), lexer.finish_blank,
      List.nil_append]

theorem tokens_append_of_sealed (h : lexer.Sealed (lexer.ending s text)) (rest : List α) :
    lexer.tokens s (text ++ rest) = lexer.tokens s text ++ lexer.tokens lexer.blank rest := by
  obtain ⟨read, hread⟩ : ∃ read, ∀ rest, lexer.tokens s (text ++ rest) =
      read ++ lexer.tokens (lexer.ending s text) rest := exists_tokens_append s text
  have htext := hread []
  rw [List.append_nil] at htext
  rw [hread, htext, tokens_of_sealed h, List.append_assoc]
  rfl

theorem ending_of_sealed (h : lexer.Sealed s) (hne : text ≠ []) :
    lexer.ending s text = lexer.ending lexer.blank text := by
  obtain ⟨c, rest, rfl⟩ := List.exists_cons_of_ne_nil hne
  rw [ending_cons_of_none (h c), ending_cons_of_none (lexer.extend_blank c)]

end Lexer

/-! ### Marks -/

/-- The marks of a lexer: characters that are tokens of their own, which no other token is. -/
structure Marks (lexer : Lexer α σ τ) where
  isMark : α → Bool
  isToken : τ → Bool
  token : α → τ
  isToken_token : ∀ c, isMark c = true → isToken (token c) = true
  finish_start : ∀ c, isMark c = true → lexer.finish (lexer.start c) = [token c]
  sealed_start : ∀ c, isMark c = true → lexer.Sealed (lexer.start c)
  other_start : ∀ c, isMark c = false → ∀ t ∈ lexer.finish (lexer.start c), isToken t = false
  other_extend : ∀ s c next, lexer.extend s c = some next → ∀ t ∈ lexer.finish next,
    isToken t = false

namespace Marks

variable {lexer : Lexer α σ τ} (marks : Marks lexer)

/-- The marks of a text are tokens, and it ends with one that is ended. -/
structure Tidy (text : List α) : Prop where
  ends : lexer.Sealed (lexer.ending lexer.blank text)
  count : (lexer.tokens lexer.blank text).countP marks.isToken = text.countP marks.isMark

variable {marks} {s next : σ} {c mark : α} {text rest body body' : List α}

theorem countP_finish_extend (h : lexer.extend s c = some next) :
    (lexer.finish next).countP marks.isToken = 0 :=
  List.countP_eq_zero.mpr fun t ht ↦ by
    rw [marks.other_extend s c next h t ht]; exact Bool.false_ne_true

theorem countP_finish_start (c : α) :
    (lexer.finish (lexer.start c)).countP marks.isToken = if marks.isMark c then 1 else 0 := by
  cases hmark : marks.isMark c with
  | true =>
    rw [marks.finish_start c hmark, List.countP_singleton, marks.isToken_token c hmark]
  | false =>
    exact List.countP_eq_zero.mpr fun t ht ↦ by
      rw [marks.other_start c hmark t ht]; exact Bool.false_ne_true

/-- No mark is counted twice. -/
theorem countP_tokens_le (s : σ) (text : List α) : (lexer.tokens s text).countP marks.isToken ≤
    (lexer.finish s).countP marks.isToken + text.countP marks.isMark := by
  induction text generalizing s with
  | nil => exact Nat.le_add_right _ _
  | cons c rest ih =>
    rw [List.countP_cons]
    cases h : lexer.extend s c with
    | some next =>
      have hrest := ih next
      rw [countP_finish_extend h] at hrest
      rw [Lexer.tokens_cons_of_some h]
      omega
    | none =>
      have hrest := ih (lexer.start c)
      rw [countP_finish_start] at hrest
      rw [Lexer.tokens_cons_of_none h, List.countP_append]
      omega

/-- A mark that is taken into another token is missed. -/
theorem countP_tokens_lt (s : σ) (text rest : List α) (hmark : marks.isMark mark = true)
    (h : lexer.extend (lexer.ending s text) mark = some next) :
    (lexer.tokens s (text ++ mark :: rest)).countP marks.isToken <
      (lexer.finish s).countP marks.isToken + (text ++ mark :: rest).countP marks.isMark := by
  induction text generalizing s with
  | nil =>
    have hrest : (lexer.tokens next rest).countP marks.isToken ≤ _ := countP_tokens_le next rest
    rw [countP_finish_extend h] at hrest
    have hread : lexer.tokens s (mark :: rest) = lexer.tokens next rest :=
      Lexer.tokens_cons_of_some h
    rw [List.nil_append, hread, List.countP_cons_of_pos hmark]
    omega
  | cons c text ih =>
    rw [List.cons_append, List.countP_cons]
    cases hextend : lexer.extend s c with
    | some after =>
      rw [Lexer.ending_cons_of_some hextend] at h
      have hrest := ih after h
      rw [countP_finish_extend hextend] at hrest
      rw [Lexer.tokens_cons_of_some hextend]
      omega
    | none =>
      rw [Lexer.ending_cons_of_none hextend] at h
      have hrest := ih (lexer.start c) h
      rw [countP_finish_start] at hrest
      rw [Lexer.tokens_cons_of_none hextend, List.countP_append]
      omega

theorem tokens_mark (hmark : marks.isMark mark = true) (rest : List α) :
    lexer.tokens (lexer.start mark) rest = marks.token mark :: lexer.tokens lexer.blank rest := by
  rw [Lexer.tokens_of_sealed (marks.sealed_start mark hmark), marks.finish_start mark hmark]
  rfl

/-- A text without marks has no token that is one. -/
theorem not_mem_tokens (hbody : body.countP marks.isMark = 0) (hmark : marks.isMark mark = true) :
    marks.token mark ∉ lexer.tokens lexer.blank body := by
  intro hmem
  have hle : (lexer.tokens lexer.blank body).countP marks.isToken ≤ _ :=
    countP_tokens_le lexer.blank body
  rw [lexer.finish_blank, hbody] at hle
  have hzero := Nat.le_zero.mp hle
  exact List.countP_eq_zero.mp hzero _ hmem (marks.isToken_token mark hmark)

/-- Texts with a mark behind a part without marks have the same tokens exactly if the parts have. -/
theorem tokens_part_iff {rest' : List α} (hmark : marks.isMark mark = true)
    (hbody : body.countP marks.isMark = 0) (hbody' : body'.countP marks.isMark = 0)
    (hopen : lexer.extend (lexer.ending lexer.blank body') mark = none)
    (hrests : rest.countP marks.isMark = rest'.countP marks.isMark)
    (hfull : (lexer.tokens lexer.blank rest').countP marks.isToken = rest'.countP marks.isMark) :
    lexer.tokens lexer.blank (body ++ mark :: rest) =
    lexer.tokens lexer.blank (body' ++ mark :: rest') ↔
      (lexer.extend (lexer.ending lexer.blank body) mark = none ∧
        lexer.tokens lexer.blank body = lexer.tokens lexer.blank body') ∧
      lexer.tokens lexer.blank rest = lexer.tokens lexer.blank rest' := by
  rw [Lexer.tokens_append_cons hopen, tokens_mark hmark]
  cases hextend : lexer.extend (lexer.ending lexer.blank body) mark with
  | none =>
    rw [Lexer.tokens_append_cons hextend, tokens_mark hmark]
    constructor
    · intro h
      obtain ⟨hbodies, htails⟩ := QuotedFields.append_cons_inj (not_mem_tokens hbody hmark)
        (not_mem_tokens hbody' hmark) h
      exact ⟨⟨rfl, hbodies⟩, htails⟩
    · rintro ⟨⟨-, hbodies⟩, htails⟩
      rw [hbodies, htails]
  | some next =>
    refine iff_of_false (fun h ↦ ?_) (fun h ↦ Option.some_ne_none next h.1.1)
    have hlt : (lexer.tokens lexer.blank _).countP marks.isToken < _ :=
      countP_tokens_lt lexer.blank body rest hmark hextend
    rw [h, lexer.finish_blank, List.countP_append, List.countP_append,
      List.countP_cons_of_pos hmark,
      List.countP_cons_of_pos (marks.isToken_token mark hmark), hfull, hbody, hrests,
        List.countP_nil] at hlt
    omega

theorem tidy_nil : marks.Tidy [] :=
  ⟨lexer.extend_blank, by rw [Lexer.tokens, lexer.finish_blank]; rfl⟩

theorem Tidy.countP_tokens_append (h : marks.Tidy text) (rest : List α) :
    (lexer.tokens lexer.blank (text ++ rest)).countP marks.isToken =
      text.countP marks.isMark + (lexer.tokens lexer.blank rest).countP marks.isToken := by
  rw [Lexer.tokens_append_of_sealed h.ends, List.countP_append, h.count]

theorem Tidy.append (h : marks.Tidy text) (hrest : marks.Tidy rest) :
    marks.Tidy (text ++ rest) where
  ends := by
    cases rest with
    | nil =>
      rw [List.append_nil]
      exact h.ends
    | cons c rest =>
      rw [Lexer.ending_append, Lexer.ending_of_sealed h.ends (List.cons_ne_nil c rest)]
      exact hrest.ends
  count := by
    rw [h.countP_tokens_append, hrest.count, List.countP_append]

theorem countP_tokens_of_body (hbody : body.countP marks.isMark = 0) :
    (lexer.tokens lexer.blank body).countP marks.isToken = 0 := by
  have hle : (lexer.tokens lexer.blank body).countP marks.isToken ≤ _ :=
    countP_tokens_le lexer.blank body
  rw [lexer.finish_blank, hbody] at hle
  exact Nat.le_zero.mp hle

end Marks

/-! ### Texts that are put together -/

/-- A part of a text: a fixed one, or a place for a value, with what stands around it and the mark
behind it. The sample is a value of the place. -/
inductive TextPart (α : Type*)
  | fixed (text : List α)
  | place (before value after : List α) (mark : α) (sample : List α)

namespace TextPart

def text : TextPart α → List α
  | .fixed text => text
  | .place before value after mark _ => before ++ value ++ after ++ [mark]

/-- The part with the sample for the value. -/
def sampled : TextPart α → TextPart α
  | .fixed text => .fixed text
  | .place before _ after mark sample => .place before sample after mark sample

/-- The text of all parts. -/
def textOf (parts : List (TextPart α)) : List α :=
  parts.flatMap text

/-- A part of a form: the sample leaves the mark outside, and nothing else around it is a mark. -/
inductive Sound {lexer : Lexer α σ τ} (marks : Marks lexer) : TextPart α → Prop
  | fixed {text : List α} (htidy : marks.Tidy text) : Sound marks (.fixed text)
  | place {before value after sample : List α} {mark : α} (hmark : marks.isMark mark = true)
      (hbody : (before ++ value ++ after).countP marks.isMark = 0)
      (hsample : (before ++ sample ++ after).countP marks.isMark = 0)
      (hopen : lexer.extend (lexer.ending lexer.blank (before ++ sample ++ after)) mark = none) :
      Sound marks (.place before value after mark sample)

/-- The value has the tokens of the sample in its place, and leaves the mark behind it outside. -/
def Fits (lexer : Lexer α σ τ) : TextPart α → Prop
  | .fixed _ => True
  | .place before value after mark sample =>
    lexer.extend (lexer.ending lexer.blank (before ++ value ++ after)) mark = none ∧
      lexer.tokens lexer.blank (before ++ value ++ after) =
        lexer.tokens lexer.blank (before ++ sample ++ after)

variable {lexer : Lexer α σ τ} {marks : Marks lexer} {parts : List (TextPart α)} {tail : List α}

theorem textOf_cons (part : TextPart α) (parts : List (TextPart α)) :
    textOf (part :: parts) = part.text ++ textOf parts :=
  List.flatMap_cons

theorem countP_text_sampled {part : TextPart α} (h : part.Sound marks) :
    part.text.countP marks.isMark = part.sampled.text.countP marks.isMark := by
  cases h with
  | fixed => rfl
  | @place before value after sample mark hmark hbody hsample =>
    calc (before ++ value ++ after ++ [mark]).countP marks.isMark
        = (before ++ value ++ after).countP marks.isMark + [mark].countP marks.isMark :=
          List.countP_append
      _ = (before ++ sample ++ after).countP marks.isMark + [mark].countP marks.isMark := by
        rw [hbody, hsample]
      _ = (before ++ sample ++ after ++ [mark]).countP marks.isMark := List.countP_append.symm

theorem countP_textOf_sampled (h : ∀ part ∈ parts, part.Sound marks) :
    (textOf parts).countP marks.isMark = (textOf (parts.map sampled)).countP marks.isMark := by
  induction parts with
  | nil => rfl
  | cons part parts ih =>
    obtain ⟨hpart, hparts⟩ := List.forall_mem_cons.mp h
    rw [List.map_cons, textOf_cons, textOf_cons, List.countP_append, List.countP_append, ih hparts,
      countP_text_sampled hpart]

/-- In a form every mark is read. -/
theorem countP_tokens_sampled (h : ∀ part ∈ parts, part.Sound marks)
    (htail : (lexer.tokens lexer.blank tail).countP marks.isToken = tail.countP marks.isMark) :
    (lexer.tokens lexer.blank (textOf (parts.map sampled) ++ tail)).countP marks.isToken =
      (textOf (parts.map sampled) ++ tail).countP marks.isMark := by
  induction parts with
  | nil => exact htail
  | cons part parts ih =>
    obtain ⟨hpart, hparts⟩ := List.forall_mem_cons.mp h
    rw [List.map_cons, textOf_cons, List.append_assoc]
    cases hpart with
    | fixed htidy =>
      rw [sampled, text, htidy.countP_tokens_append, ih hparts, ← List.countP_append]
    | place hmark hbody hsample hopen =>
      rw [sampled, text, List.append_assoc _ [_], List.singleton_append,
        Lexer.tokens_append_cons hopen,
        Marks.tokens_mark hmark, List.countP_append, Marks.countP_tokens_of_body hsample,
        List.countP_cons_of_pos (marks.isToken_token _ hmark), ih hparts,
          ← List.countP_cons_of_pos hmark,
        ← hsample, ← List.countP_append]

/-- A text has the tokens of its form exactly if every value fits in its place. -/
theorem tokens_eq_sampled_iff (h : ∀ part ∈ parts, part.Sound marks)
    (htail : (lexer.tokens lexer.blank tail).countP marks.isToken = tail.countP marks.isMark) :
    lexer.tokens lexer.blank (textOf parts ++ tail) =
        lexer.tokens lexer.blank (textOf (parts.map sampled) ++ tail) ↔
        ∀ part ∈ parts, part.Fits lexer := by
  induction parts with
  | nil => exact iff_of_true rfl fun part hmem ↦ absurd hmem List.not_mem_nil
  | cons part parts ih =>
    obtain ⟨hpart, hparts⟩ := List.forall_mem_cons.mp h
    have hrest := ih hparts
    have hfull := countP_tokens_sampled hparts htail
    have hcounts := countP_textOf_sampled hparts
    rw [List.forall_mem_cons, List.map_cons, textOf_cons, textOf_cons, List.append_assoc,
      List.append_assoc, ← hrest]
    cases hpart with
    | fixed htidy =>
      rw [sampled, text, Lexer.tokens_append_of_sealed htidy.ends,
        Lexer.tokens_append_of_sealed htidy.ends, List.append_cancel_left_eq]
      exact (and_iff_right trivial).symm
    | place hmark hbody hsample hopen =>
      rw [sampled, text, text, List.append_assoc _ [_], List.append_assoc _ [_],
        List.singleton_append, List.singleton_append]
      refine Marks.tokens_part_iff hmark hbody hsample hopen ?_ hfull
      rw [List.countP_append, List.countP_append, hcounts]

end TextPart

end Userland.Library
