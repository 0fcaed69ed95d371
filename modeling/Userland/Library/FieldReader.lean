import Mathlib.Data.List.TakeWhile
import Mathlib.Algebra.GroupWithZero.Nat
import Mathlib.Order.Basic
import Userland.Library.QuotedFields

/-!
# Reading rows of fields

What a reader of the fields `key=body` of a row may take a text for (`Reads`): blanks part the
fields, a bare body is the value itself and ends at a blank, and a body that begins with a quote
ends at the next quote that no escape mark guards. A value that could not stand bare takes at least
two more characters than it has, which bounds what can be read from a text (`Reads.length_le`,
`Reads.length_lt`).

`scanRow` is such a reader (`reads_of_scanRow`), and it reads a row of bare fields as these fields
(`scanRow_row`).
-/

set_option autoImplicit false
set_option relaxedAutoImplicit false

namespace Userland.Library.QuotedFields

variable {α : Type} (m : Marks α)

/-- A value that may stand bare behind the equals sign of a reader's field. -/
def Bare (value : List α) : Prop :=
  value ≠ [] ∧ m.blank ∉ value ∧ value.head? ≠ some m.single ∧ value.head? ≠ some m.double

/-- What a reader takes for a key. -/
def Key (key : List α) : Prop :=
  key ≠ [] ∧ ∀ c ∈ key, c ≠ m.blank ∧ c ≠ m.equals ∧ c ≠ m.single ∧ c ≠ m.double

instance [DecidableEq α] (value : List α) : Decidable (Bare m value) :=
  inferInstanceAs (Decidable (_ ∧ _ ∧ _ ∧ _))

instance [DecidableEq α] (key : List α) : Decidable (Key m key) :=
  inferInstanceAs (Decidable (_ ∧ _))

/-- What the text between two quotes stands for. -/
inductive Unescapes (quote : α) : List α → List α → Prop
  | nil : Unescapes quote [] []
  | guarded {text value : List α} (h : Unescapes quote text value) :
    Unescapes quote (m.escape :: quote :: text) (quote :: value)
  | plain {c : α} {text value : List α} (hc : c ≠ quote) (h : Unescapes quote text value) :
    Unescapes quote (c :: text) (c :: value)

/-- What a body stands for. -/
inductive Spells : List α → List α → Prop
  | bare {value : List α} (h : Bare m value) : Spells value value
  | quoted {quote : α} {text value : List α} (hquote : quote = m.single ∨ quote = m.double)
    (h : Unescapes m quote text value) : Spells (quote :: text ++ [quote]) value

/-- What a row stands for. -/
inductive Reads : List α → List (List α × List α) → Prop
  | nil : Reads [] []
  | blank {text : List α} {fields : List (List α × List α)} (h : Reads text fields) :
    Reads (m.blank :: text) fields
  | field {key body value rest : List α} {fields : List (List α × List α)} (hkey : Key m key)
    (hbody : Spells m body value) (h : Reads rest fields) :
    Reads (m.blank :: key ++ m.equals :: (body ++ rest)) ((key, value) :: fields)

/-- The row of fields with bare bodies. -/
def row (fields : List (List α × List α)) : List α :=
  fields.flatMap fun field ↦ m.blank :: field.1 ++ m.equals :: field.2

theorem row_cons (key value : List α) (fields : List (List α × List α)) :
    row m ((key, value) :: fields) = m.blank :: key ++ m.equals :: (value ++ row m fields) := by
  simp [row]

variable {m}

theorem row_head (fields : List (List α × List α)) :
    row m fields = [] ∨ (row m fields).head? = some m.blank := by
  cases fields with
  | nil => exact Or.inl rfl
  | cons field fields => exact Or.inr rfl

/-! ### How long a row is -/

theorem Unescapes.length_le {quote : α} {text value : List α} (h : Unescapes m quote text value) :
    value.length ≤ text.length := by
  induction h with
  | nil => exact le_rfl
  | guarded _ ih =>
    simp only [List.length_cons]
    omega
  | plain _ _ ih =>
    simp only [List.length_cons]
    omega

theorem Spells.length_le {body value : List α} (h : Spells m body value) :
    value.length ≤ body.length := by
  cases h with
  | bare _ => exact le_rfl
  | quoted _ h =>
    have := h.length_le
    simp only [List.length_append, List.length_cons, List.length_nil]
    omega

/-- A value that cannot stand bare is quoted. -/
theorem Spells.length_le_of_not_bare {body value : List α} (h : Spells m body value)
    (hbare : ¬ Bare m value) : value.length + 2 ≤ body.length := by
  cases h with
  | bare hvalue => exact absurd hvalue hbare
  | quoted _ h =>
    have := h.length_le
    simp only [List.length_append, List.length_cons, List.length_nil]
    omega

theorem length_row (fields : List (List α × List α)) :
    (row m fields).length = (fields.map fun field ↦ field.1.length + field.2.length + 2).sum := by
  induction fields with
  | nil => rfl
  | cons field fields ih =>
    rw [row_cons, List.map_cons, List.sum_cons, ← ih]
    simp only [List.length_append, List.length_cons]
    omega

variable {fields : List (List α × List α)}

/-- A row is at least as long as the row of its fields with bare bodies. -/
theorem Reads.length_le {text : List α} (h : Reads m text fields) :
    (row m fields).length ≤ text.length := by
  induction h with
  | nil => exact le_rfl
  | blank _ ih =>
    rw [List.length_cons]
    omega
  | field _ hbody _ ih =>
    have := hbody.length_le
    rw [row_cons]
    simp only [List.length_append, List.length_cons]
    omega

/-- A row is longer than that if one of its values cannot stand bare. -/
theorem Reads.length_lt {text : List α} (h : Reads m text fields)
    (hbare : ∃ field ∈ fields, ¬ Bare m field.2) : (row m fields).length < text.length := by
  induction h with
  | nil =>
    obtain ⟨field, hfield, -⟩ := hbare
    cases hfield
  | blank _ ih =>
    have := ih hbare
    rw [List.length_cons]
    omega
  | @field key body value rest fields _ hbody hrest ih =>
    rw [row_cons]
    simp only [List.length_append, List.length_cons]
    by_cases hvalue : Bare m value
    · have hfields : ∃ field ∈ fields, ¬ Bare m field.2 := by
        obtain ⟨field, hfield, hne⟩ := hbare
        rcases List.mem_cons.mp hfield with rfl | hfield
        · exact absurd hvalue hne
        · exact ⟨field, hfield, hne⟩
      have := ih hfields
      have := hbody.length_le
      omega
    · have := hbody.length_le_of_not_bare hvalue
      have := hrest.length_le
      omega

/-! ### A reader -/

section Scan

variable [DecidableEq α] (m)

/-- The value of a quoted body and what stands behind it. -/
def scanQuoted (quote : α) : List α → Option (List α × List α)
  | [] => none
  | [c] => if c = quote then some ([], []) else none
  | c :: d :: rest =>
    if c = quote then some ([], d :: rest)
    else if c = m.escape ∧ d = quote then
      (scanQuoted quote rest).map fun found ↦ (quote :: found.1, found.2)
    else (scanQuoted quote (d :: rest)).map fun found ↦ (c :: found.1, found.2)

/-- The value of a body and what stands behind it. -/
def scanBody (text : List α) : Option (List α × List α) :=
  match text with
  | [] => none
  | c :: rest =>
    if c = m.single ∨ c = m.double then scanQuoted m c rest
    else if c = m.blank then none
    else some (text.takeWhile (· ≠ m.blank), text.dropWhile (· ≠ m.blank))

/-- The fields of a row; every turn takes a character, and `fuel` counts the turns. -/
def scanRow : (fuel : ℕ) → List α → Option (List (List α × List α))
  | _, [] => some []
  | 0, _ :: _ => none
  | fuel + 1, c :: text =>
    if c ≠ m.blank then none
    else if text = [] ∨ text.head? = some m.blank then scanRow fuel text
    else if Key m (text.takeWhile (· ≠ m.equals)) then
      match text.dropWhile (· ≠ m.equals) with
      | [] => none
      | _ :: rest =>
        (scanBody m rest).bind fun found ↦
          (scanRow fuel found.2).map ((text.takeWhile (· ≠ m.equals), found.1) :: ·)
    else none

variable {m}

theorem unescapes_of_scanQuoted {quote : α} {text value rest : List α}
    (h : scanQuoted m quote text = some (value, rest)) :
    ∃ inner, text = inner ++ quote :: rest ∧ Unescapes m quote inner value := by
  fun_induction scanQuoted m quote text generalizing value with
  | case1 => cases h
  | case2 =>
    obtain ⟨rfl, rfl⟩ := Prod.mk.inj (Option.some.inj h)
    exact ⟨[], rfl, .nil⟩
  | case3 c hc => cases h
  | case4 d text =>
    obtain ⟨rfl, rfl⟩ := Prod.mk.inj (Option.some.inj h)
    exact ⟨[], rfl, .nil⟩
  | case5 c d text hc hescape ih =>
    obtain ⟨found, hfound, heq⟩ := Option.map_eq_some_iff.mp h
    obtain ⟨rfl, rfl⟩ := Prod.mk.inj heq
    obtain ⟨inner, rfl, hinner⟩ := ih hfound
    refine ⟨m.escape :: quote :: inner, ?_, .guarded hinner⟩
    rw [hescape.1, hescape.2]
    rfl
  | case6 c d text hc hescape ih =>
    obtain ⟨found, hfound, heq⟩ := Option.map_eq_some_iff.mp h
    obtain ⟨rfl, rfl⟩ := Prod.mk.inj heq
    obtain ⟨inner, hinner, hunescapes⟩ := ih hfound
    exact ⟨c :: inner, by rw [hinner]; rfl, .plain hc hunescapes⟩

theorem spells_of_scanBody {text value rest : List α} (h : scanBody m text = some (value, rest)) :
    ∃ body, text = body ++ rest ∧ Spells m body value := by
  unfold scanBody at h
  cases text with
  | nil => cases h
  | cons c text =>
    dsimp only at h
    split_ifs at h with hquote hblank
    · obtain ⟨inner, rfl, hinner⟩ := unescapes_of_scanQuoted h
      exact ⟨c :: inner ++ [c], by simp, .quoted hquote hinner⟩
    · rw [not_or] at hquote
      obtain ⟨rfl, rfl⟩ := Prod.mk.inj (Option.some.inj h)
      refine ⟨_, (List.takeWhile_append_dropWhile).symm, .bare ⟨?_, ?_, ?_, ?_⟩⟩
      · simp [hblank]
      · intro hmem
        simpa using List.mem_takeWhile_imp hmem
      · simp [hblank, hquote.1]
      · simp [hblank, hquote.2]

/-- The scanner is a reader. -/
theorem reads_of_scanRow {fuel : ℕ} {text : List α}
    (h : scanRow m fuel text = some fields) : Reads m text fields := by
  induction fuel generalizing text fields with
  | zero =>
    cases text with
    | nil =>
      obtain rfl := Option.some.inj h
      exact .nil
    | cons c text => cases h
  | succ fuel ih =>
    cases text with
    | nil =>
      obtain rfl := Option.some.inj h
      exact .nil
    | cons c text =>
      rw [scanRow] at h
      split_ifs at h with hblank hmore hkey
      · rw [not_not.mp hblank]
        exact .blank (ih h)
      · rw [not_not.mp hblank]
        split at h
        · cases h
        · rename_i e rest hdrop
          obtain ⟨⟨value, tail⟩, hvalue, h⟩ := Option.bind_eq_some_iff.mp h
          obtain ⟨found, hfound, rfl⟩ := Option.map_eq_some_iff.mp h
          obtain ⟨body, rfl, hbody⟩ := spells_of_scanBody hvalue
          have he : e = m.equals := by
            have hhead := List.head?_dropWhile_not (· ≠ m.equals) text
            rw [hdrop] at hhead
            simpa using hhead
          have htext := List.takeWhile_append_dropWhile (p := (· ≠ m.equals)) (l := text)
          rw [hdrop, he] at htext
          nth_rewrite 1 [← htext]
          exact .field hkey hbody (ih hfound)

theorem scanBody_append {value rest : List α} (h : Bare m value)
    (hrest : rest = [] ∨ rest.head? = some m.blank) :
    scanBody m (value ++ rest) = some (value, rest) := by
  obtain ⟨hne, hblank, hsingle, hdouble⟩ := h
  have hall : ∀ c ∈ value, decide (c ≠ m.blank) = true :=
    fun c hc ↦ decide_eq_true fun heq ↦ hblank (heq ▸ hc)
  have htake : (value ++ rest).takeWhile (· ≠ m.blank) = value ∧
      (value ++ rest).dropWhile (· ≠ m.blank) = rest := by
    rw [List.takeWhile_append_of_pos hall, List.dropWhile_append_of_pos hall]
    cases rest with
    | nil => simp
    | cons d rest =>
      obtain rfl : d = m.blank := by simpa using hrest
      simp
  unfold scanBody
  cases value with
  | nil => exact absurd rfl hne
  | cons c value =>
    have hquote : ¬ (c = m.single ∨ c = m.double) := by
      rintro (rfl | rfl)
      · exact hsingle rfl
      · exact hdouble rfl
    have hc : c ≠ m.blank := fun heq ↦ hblank (heq ▸ List.mem_cons_self)
    rw [List.cons_append] at htake ⊢
    dsimp only
    rw [if_neg hquote, if_neg hc, htake.1, htake.2]

/-- A row of bare fields is read as these fields. -/
theorem scanRow_row (h : ∀ field ∈ fields, Key m field.1 ∧ Bare m field.2) {fuel : ℕ}
    (hfuel : (row m fields).length ≤ fuel) : scanRow m fuel (row m fields) = some fields := by
  induction fields generalizing fuel with
  | nil => cases fuel <;> rfl
  | cons field fields ih =>
    obtain ⟨key, value⟩ := field
    obtain ⟨⟨hne, hkey⟩, hvalue⟩ := h _ List.mem_cons_self
    rw [row_cons] at hfuel ⊢
    cases fuel with
    | zero => simp at hfuel
    | succ fuel =>
      have hall : ∀ c ∈ key, decide (c ≠ m.equals) = true :=
        fun c hc ↦ decide_eq_true (hkey c hc).2.1
      have hrest : (row m fields).length ≤ fuel := by
        simp only [List.length_append, List.length_cons] at hfuel
        omega
      have htake : (key ++ m.equals :: (value ++ row m fields)).takeWhile (· ≠ m.equals) = key := by
        rw [List.takeWhile_append_of_pos hall]
        simp
      have hdrop : (key ++ m.equals :: (value ++ row m fields)).dropWhile (· ≠ m.equals) =
          m.equals :: (value ++ row m fields) := by
        rw [List.dropWhile_append_of_pos hall]
        simp
      have hmore : ¬ (key ++ m.equals :: (value ++ row m fields) = [] ∨
          (key ++ m.equals :: (value ++ row m fields)).head? = some m.blank) := by
        cases key with
        | nil => exact absurd rfl hne
        | cons c key => simpa using (hkey c List.mem_cons_self).1
      rw [List.cons_append, scanRow, if_neg (not_not.mpr rfl), if_neg hmore, htake,
        if_pos ⟨hne, hkey⟩, hdrop]
      dsimp only
      rw [scanBody_append hvalue (row_head fields), Option.bind_some,
        ih (fun other hother ↦ h other (List.mem_cons_of_mem _ hother)) hrest, Option.map_some]

end Scan

end Userland.Library.QuotedFields
