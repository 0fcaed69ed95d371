import Userland.Library.Separated

/-!
# Splitting at separators that are not escaped

`splitFrom` splits a text at the separators that follow an element other than the escape, as a
regular expression that looks behind does: a separator at the start of the text is none. Joining the
pieces gives the text (`intercalate_splitFrom`).

Texts in which every separator is escaped are pieces of what they are joined to exactly if each one
but the last has an element other than the escape at its end (`splitFrom_intercalate_iff`);
otherwise there are fewer pieces.
-/

set_option autoImplicit false
set_option relaxedAutoImplicit false

namespace Userland.Library

variable {α : Type} [DecidableEq α] (escape sep : α)

/-- A separator behind the element is not escaped. -/
def follows (before : Option α) : Bool :=
  before.any fun p ↦ decide (p ≠ escape)

/-- The pieces of a text behind an element. -/
def splitFrom : Option α → List α → List (List α)
  | _, [] => [[]]
  | before, c :: rest =>
    if c = sep ∧ follows escape before = true then [] :: splitFrom (some c) rest
    else (splitFrom (some c) rest).modifyHead (c :: ·)

/-- The last element of a text behind an element. -/
def lastOr (before : Option α) (text : List α) : Option α :=
  text.getLast?.or before

/-- The text is one piece wherever it stands. -/
def Whole (text : List α) : Prop :=
  ∀ before, splitFrom escape sep before text = [text]

/-- A separator behind each text but the last one is not escaped. -/
def Parted : Option α → List (List α) → Prop
  | _, [] => False
  | _, [_] => True
  | before, text :: rest => follows escape (lastOr before text) = true ∧ Parted (some sep) rest

/-- Texts in which the special elements and the escape are escaped. -/
inductive Escaped (special : List α) : List α → Prop
  | nil : Escaped special []
  | plain {c : α} {text : List α} : c ∉ special → c ≠ escape → Escaped special text →
      Escaped special (c :: text)
  | escape {c : α} {text : List α} : Escaped special text → Escaped special (escape :: c :: text)

variable {escape sep} {before : Option α} {x y text : List α}

omit [DecidableEq α] in
@[simp] theorem lastOr_nil (before : Option α) : lastOr before [] = before :=
  Option.none_or

omit [DecidableEq α] in
theorem lastOr_cons (before : Option α) (c : α) (text : List α) :
    lastOr before (c :: text) = lastOr (some c) text := by
  unfold lastOr
  rw [List.getLast?_cons]
  cases text.getLast? <;> rfl

theorem splitFrom_ne_nil (before : Option α) (text : List α) :
    splitFrom escape sep before text ≠ [] := by
  induction text generalizing before with
  | nil => exact List.cons_ne_nil _ _
  | cons c text ih =>
    rw [splitFrom]
    split_ifs
    · exact List.cons_ne_nil _ _
    · obtain ⟨first, rest, hsplit⟩ := List.exists_cons_of_ne_nil (ih (some c))
      rw [hsplit]
      exact List.cons_ne_nil _ _

/-- Joining the pieces gives the text. -/
theorem intercalate_splitFrom (before : Option α) (text : List α) :
    [sep].intercalate (splitFrom escape sep before text) = text := by
  induction text generalizing before with
  | nil => rfl
  | cons c text ih =>
    rw [splitFrom]
    obtain ⟨first, rest, hsplit⟩ := List.exists_cons_of_ne_nil (splitFrom_ne_nil (some c) text)
    have htext := ih (some c)
    rw [hsplit] at htext ⊢
    split_ifs with hc
    · rw [List.intercalate_cons_cons, htext, hc.1]
      rfl
    · rw [List.modifyHead_cons]
      cases rest with
      | nil =>
        rw [List.intercalate_singleton] at htext ⊢
        rw [htext]
      | cons second rest =>
        rw [List.intercalate_cons_cons] at htext ⊢
        rw [List.cons_append, List.cons_append, htext]

/-! ### Texts that are one piece -/

theorem splitFrom_append (hx : splitFrom escape sep before x = [x]) (y : List α) :
    splitFrom escape sep before (x ++ y) =
      (splitFrom escape sep (lastOr before x) y).modifyHead (x ++ ·) := by
  induction x generalizing before with
  | nil =>
    rw [List.nil_append, lastOr_nil]
    cases splitFrom escape sep before y <;> rfl
  | cons c x ih =>
    rw [splitFrom] at hx
    split_ifs at hx with hc
    · cases hx
    · obtain ⟨first, rest, hsplit⟩ := List.exists_cons_of_ne_nil (splitFrom_ne_nil (some c) x)
      rw [hsplit, List.modifyHead_cons] at hx
      have hx' : splitFrom escape sep (some c) x = [x] := by
        rw [hsplit]
        injection hx with hhead htail
        injection hhead with _ hfirst
        rw [hfirst, htail]
      rw [List.cons_append, splitFrom, if_neg hc, ih hx', lastOr_cons]
      cases splitFrom escape sep (lastOr (some c) x) y <;> rfl

/-- A separator that is not escaped ends a piece. -/
theorem splitFrom_of_follows (hx : splitFrom escape sep before x = [x])
    (hfollows : follows escape (lastOr before x) = true) (y : List α) :
    splitFrom escape sep before (x ++ sep :: y) = x :: splitFrom escape sep (some sep) y := by
  rw [splitFrom_append hx, splitFrom, if_pos ⟨rfl, hfollows⟩, List.modifyHead_cons, List.append_nil]

/-- An escaped separator does not. -/
theorem splitFrom_of_not_follows (hx : splitFrom escape sep before x = [x])
    (hfollows : ¬ follows escape (lastOr before x) = true) (y : List α) :
    splitFrom escape sep before (x ++ sep :: y) =
      (splitFrom escape sep (some sep) y).modifyHead (x ++ sep :: ·) := by
  rw [splitFrom_append hx, splitFrom, if_neg fun hand ↦ hfollows hand.2]
  cases splitFrom escape sep (some sep) y <;> rfl

theorem whole_nil : Whole escape sep [] := fun _ ↦ rfl

theorem whole_singleton {c : α} (h : c ≠ sep) : Whole escape sep [c] := by
  intro before
  rw [splitFrom, if_neg fun hand ↦ h hand.1]
  rfl

theorem Whole.append (hx : Whole escape sep x) (hy : Whole escape sep y) :
    Whole escape sep (x ++ y) := by
  intro before
  rw [splitFrom_append (hx before), hy]
  rfl

variable {texts : List (List α)}

theorem Whole.intercalate (hx : Whole escape sep x)
    (h : ∀ text ∈ texts, Whole escape sep text) : Whole escape sep (x.intercalate texts) := by
  induction texts with
  | nil => exact whole_nil
  | cons text texts ih =>
    obtain ⟨htext, htexts⟩ := List.forall_mem_cons.mp h
    cases texts with
    | nil => rwa [List.intercalate_singleton]
    | cons second rest =>
      rw [List.intercalate_cons_cons]
      exact (htext.append hx).append (ih htexts)

/-- A text whose special elements are escaped is one piece. -/
theorem Escaped.whole {special : List α} (h : Escaped escape special text) (hsep : sep ∈ special)
    (hne : sep ≠ escape) : Whole escape sep text := by
  induction h with
  | nil => exact whole_nil
  | plain hc hesc _ ih =>
    exact (whole_singleton fun heq ↦ hc (by rwa [heq])).append ih
  | @escape c text _ ih =>
    intro before
    rw [splitFrom, if_neg fun hand ↦ hne hand.1.symm, splitFrom, if_neg, ih]
    · rfl
    · rintro ⟨-, hfollows⟩
      simp [follows] at hfollows

/-! ### Joining and splitting -/

theorem splitFrom_intercalate_of_parted (h : ∀ text ∈ texts, Whole escape sep text)
    (hparted : Parted escape sep before texts) :
    splitFrom escape sep before ([sep].intercalate texts) = texts := by
  induction texts generalizing before with
  | nil => exact hparted.elim
  | cons text texts ih =>
    obtain ⟨htext, htexts⟩ := List.forall_mem_cons.mp h
    cases texts with
    | nil => rw [List.intercalate_singleton, htext]
    | cons second rest =>
      rw [List.intercalate_cons_cons, List.append_assoc, List.singleton_append,
        splitFrom_of_follows (htext before) hparted.1, ih htexts hparted.2]

/-- There are no more pieces than texts, and fewer if a separator between them is escaped. -/
theorem length_splitFrom_le (h : ∀ text ∈ texts, Whole escape sep text) (hne : texts ≠ [])
    (before : Option α) :
    (splitFrom escape sep before ([sep].intercalate texts)).length ≤ texts.length ∧
      (¬ Parted escape sep before texts →
        (splitFrom escape sep before ([sep].intercalate texts)).length < texts.length) := by
  induction texts generalizing before with
  | nil => exact absurd rfl hne
  | cons text texts ih =>
    obtain ⟨htext, htexts⟩ := List.forall_mem_cons.mp h
    cases texts with
    | nil =>
      rw [List.intercalate_singleton, htext]
      exact ⟨Nat.le_refl _, fun hnot ↦ absurd trivial hnot⟩
    | cons second rest =>
      obtain ⟨hle, hlt⟩ := ih htexts (List.cons_ne_nil _ _) (some sep)
      rw [List.intercalate_cons_cons, List.append_assoc, List.singleton_append]
      by_cases hfollows : follows escape (lastOr before text) = true
      · rw [splitFrom_of_follows (htext before) hfollows, List.length_cons, List.length_cons]
        exact ⟨Nat.succ_le_succ hle, fun hnot ↦
          Nat.succ_lt_succ (hlt fun hparted ↦ hnot ⟨hfollows, hparted⟩)⟩
      · rw [splitFrom_of_not_follows (htext before) hfollows, List.length_modifyHead,
          List.length_cons]
        exact ⟨Nat.le_succ_of_le hle, fun _ ↦ Nat.lt_succ_of_le hle⟩

/-- Joined texts are the pieces exactly if no separator between them is escaped. -/
theorem splitFrom_intercalate_iff (h : ∀ text ∈ texts, Whole escape sep text) (hne : texts ≠ []) :
    splitFrom escape sep before ([sep].intercalate texts) = texts ↔
    Parted escape sep before texts := by
  refine ⟨fun heq ↦ ?_, splitFrom_intercalate_of_parted h⟩
  by_contra hnot
  exact absurd (congrArg List.length heq) (Nat.ne_of_lt ((length_splitFrom_le h hne before).2 hnot))

/-! ### The end of a text -/

theorem follows_iff : follows escape before = true ↔ before ≠ none ∧ before ≠ some escape := by
  cases before <;> simp [follows]

theorem follows_lastOr_none_iff :
    follows escape (lastOr none text) = true ↔ text ≠ [] ∧ text.getLast? ≠ some escape := by
  rw [follows_iff, lastOr, Option.or_none, ne_eq, List.getLast?_eq_none_iff]

theorem follows_lastOr_some_iff {c : α} (hc : c ≠ escape) :
    follows escape (lastOr (some c) text) = true ↔ text.getLast? ≠ some escape := by
  rw [follows_iff, lastOr]
  cases text.getLast? with
  | none => simp [hc]
  | some last => simp

/-- Texts that are not empty are parted if all but the last end in an element other than the escape.
-/
theorem parted_iff_of_ne_nil (hne : ∀ text ∈ texts, text ≠ []) (before : Option α) :
    Parted escape sep before texts ↔
      texts ≠ [] ∧ ∀ text ∈ texts.dropLast, text.getLast? ≠ some escape := by
  induction texts generalizing before with
  | nil => exact iff_of_false id fun hand ↦ hand.1 rfl
  | cons text texts ih =>
    obtain ⟨htext, htexts⟩ := List.forall_mem_cons.mp hne
    cases texts with
    | nil => exact iff_of_true trivial ⟨List.cons_ne_nil _ _, fun _ h ↦ (nomatch h)⟩
    | cons second rest =>
      have hlast : follows escape (lastOr before text) = true ↔ text.getLast? ≠ some escape := by
        rw [follows_iff, lastOr]
        cases hlast : text.getLast? with
        | none => exact absurd (List.getLast?_eq_none_iff.mp hlast) htext
        | some last => simp
      show follows escape (lastOr before text) = true ∧
        Parted escape sep (some sep) (second :: rest) ↔ _
      rw [hlast, ih htexts, List.dropLast_cons_of_ne_nil (List.cons_ne_nil _ _),
        List.forall_mem_cons]
      simp

omit [DecidableEq α] in
/-- Joined texts end as the last one does, if it is not empty. -/
theorem getLast?_intercalate_iff (hne : sep ≠ escape) (texts : List (List α)) :
    ([sep].intercalate texts).getLast? = some escape ↔
      ∃ text, texts.getLast? = some text ∧ text.getLast? = some escape := by
  induction texts with
  | nil => simp
  | cons text texts ih =>
    cases texts with
    | nil => simp
    | cons second rest =>
      rw [List.intercalate_cons_cons, List.getLast?_cons_cons, ← ih, List.getLast?_append,
        List.getLast?_append]
      cases ([sep].intercalate (second :: rest)).getLast? with
      | none => simp [hne]
      | some last => simp

/-! ### The first pieces -/

/-- The first piece is one, and what is split off behind it follows a separator that is not escaped.
-/
theorem splitFrom_eq_cons {first : List α} {rest : List (List α)}
    (h : splitFrom escape sep before text = first :: rest) :
    splitFrom escape sep before first = [first] ∧
      ∀ second others, rest = second :: others → follows escape (lastOr before first) = true ∧
        ∃ text', text = first ++ sep :: text' ∧ splitFrom escape sep (some sep) text' = rest := by
  induction text generalizing before first rest with
  | nil =>
    cases h
    exact ⟨rfl, fun _ _ heq ↦ (nomatch heq)⟩
  | cons c text ih =>
    rw [splitFrom] at h
    split_ifs at h with hc
    · obtain ⟨rfl, hrest⟩ := List.cons.inj h
      refine ⟨rfl, fun second others heq ↦ ⟨(lastOr_nil before).symm ▸ hc.2, text, ?_, ?_⟩⟩
      · rw [hc.1, List.nil_append]
      · obtain rfl := hc.1
        exact hrest
    · obtain ⟨first', rest', hsplit⟩ := List.exists_cons_of_ne_nil (splitFrom_ne_nil (some c) text)
      rw [hsplit, List.modifyHead_cons] at h
      obtain ⟨rfl, rfl⟩ := List.cons.inj h
      obtain ⟨hfirst, hrest⟩ := ih hsplit
      refine ⟨?_, fun second others heq ↦ ?_⟩
      · rw [splitFrom, if_neg hc, hfirst]
        rfl
      · obtain ⟨hfollows, text', htext, hsplit'⟩ := hrest second others heq
        exact ⟨by rw [lastOr_cons]; exact hfollows, text', by rw [htext, List.cons_append], hsplit'⟩

/-- The first two pieces are the pieces of what they are joined to. -/
theorem splitFrom_first_second {first second : List α} {rest : List (List α)}
    (h : splitFrom escape sep before text = first :: second :: rest) :
    splitFrom escape sep before (first ++ sep :: second) = [first, second] := by
  obtain ⟨hfirst, hrest⟩ := splitFrom_eq_cons h
  obtain ⟨hfollows, text', -, hsplit⟩ := hrest second rest rfl
  rw [splitFrom_of_follows hfirst hfollows, (splitFrom_eq_cons hsplit).1]

end Userland.Library
