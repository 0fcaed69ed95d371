import Mathlib.Data.List.Basic

/-!
# Fields with quoted bodies

A text is a row of fields `key=body`, each behind a blank. A body is bare, stands between single
quotes, or stands between double quotes. Nothing is escaped in a bare or single-quoted body. Between
double quotes every double quote is guarded by an escape mark, but an escape mark itself is not, so
that the end of a double-quoted body cannot be told from the text up to it.

The whole text still has one reading (`render_injective`). Two readings that once part are never
both outside of quotes again: from then on one of them is inside quotes that the other one does not
see (`not_crossed`), and at the end of a text every reading is outside.

The characters are those of an arbitrary type, with five distinct marks among them.
-/

set_option autoImplicit false
set_option relaxedAutoImplicit false

namespace Userland.Library.QuotedFields

/-- The marks of a format. -/
structure Marks (α : Type) where
  blank : α
  equals : α
  single : α
  double : α
  escape : α
  distinct : [blank, equals, single, double, escape].Nodup

variable {α : Type}

namespace Marks

variable (m : Marks α)

theorem nodup_iff : (m.blank ≠ m.equals ∧ m.blank ≠ m.single ∧ m.blank ≠ m.double ∧
    m.blank ≠ m.escape) ∧ (m.equals ≠ m.single ∧ m.equals ≠ m.double ∧ m.equals ≠ m.escape) ∧
    (m.single ≠ m.double ∧ m.single ≠ m.escape) ∧ m.double ≠ m.escape := by
  simpa using m.distinct

theorem blank_ne_single : m.blank ≠ m.single := m.nodup_iff.1.2.1

theorem blank_ne_double : m.blank ≠ m.double := m.nodup_iff.1.2.2.1

theorem equals_ne_single : m.equals ≠ m.single := m.nodup_iff.2.1.1

theorem equals_ne_double : m.equals ≠ m.double := m.nodup_iff.2.1.2.1

theorem equals_ne_escape : m.equals ≠ m.escape := m.nodup_iff.2.1.2.2

theorem single_ne_double : m.single ≠ m.double := m.nodup_iff.2.2.1.1

theorem single_ne_escape : m.single ≠ m.escape := m.nodup_iff.2.2.1.2

theorem double_ne_escape : m.double ≠ m.escape := m.nodup_iff.2.2.2

end Marks

/-- A body of a field. -/
inductive Body (α : Type)
  | bare (text : List α)
  | single (text : List α)
  | double (text : List α)

/-- Every occurrence of a character is directly behind an escape mark. -/
def Guarded (escape quote : α) (text : List α) : Prop :=
  ∀ before after, text = before ++ quote :: after → before.getLast? = some escape

theorem guarded_of_notMem {escape quote : α} {text : List α} (h : quote ∉ text) :
    Guarded escape quote text := by
  rintro before after rfl
  exact absurd (List.mem_append_right before List.mem_cons_self) h

/-- The guards of a text are kept when a beginning is cut off that does not end in an escape mark.
-/
theorem Guarded.of_append {escape quote : α} (first : List α) {rest : List α}
    (h : Guarded escape quote (first ++ rest))
    (hlast : first.getLast? ≠ some escape ∨ rest.head? ≠ some quote) :
    Guarded escape quote rest := by
  rintro before after rfl
  have hguard := h (first ++ before) after (by rw [List.append_assoc])
  rw [List.getLast?_append] at hguard
  cases hbefore : before.getLast? with
  | some c => rwa [hbefore] at hguard
  | none =>
    rw [hbefore, Option.none_or] at hguard
    rw [List.getLast?_eq_none_iff.mp hbefore] at hlast
    exact absurd hguard (hlast.resolve_right fun hhead ↦ hhead rfl)

theorem Guarded.head_ne {escape quote : α} {text : List α} (h : Guarded escape quote text) :
    text.head? ≠ some quote := by
  intro hhead
  obtain ⟨rest, rfl⟩ := List.head?_eq_some_iff.mp hhead
  simpa using h [] rest rfl

theorem Guarded.append {escape quote : α} {first rest : List α}
    (hfirst : Guarded escape quote first)
    (hrest : Guarded escape quote rest) : Guarded escape quote (first ++ rest) := by
  intro before after heq
  rcases List.append_eq_append_iff.mp heq with ⟨more, rfl, htail⟩ | ⟨more, rfl, htail⟩
  · rw [List.getLast?_append, hrest more after htail, Option.some_or]
  · cases more with
    | nil => exact absurd (congrArg List.head? htail).symm hrest.head_ne
    | cons c more =>
      obtain ⟨rfl, -⟩ := List.cons_eq_cons.mp htail
      exact hfirst before more rfl

section Guard

variable [DecidableEq α]

/-- The text with an escape mark in front of every quote. -/
def guardWith (escape quote : α) (text : List α) : List α :=
  text.flatMap fun c ↦ if c = quote then [escape, quote] else [c]

theorem guardWith_cons (escape quote c : α) (text : List α) :
    guardWith escape quote (c :: text) =
      (if c = quote then [escape, quote] else [c]) ++ guardWith escape quote text := rfl

theorem guarded_guardWith {escape quote : α} (hne : escape ≠ quote) (text : List α) :
    Guarded escape quote (guardWith escape quote text) := by
  induction text with
  | nil => exact guarded_of_notMem (by simp [guardWith])
  | cons c text ih =>
    rw [guardWith_cons]
    refine Guarded.append ?_ ih
    split_ifs with hc
    · intro before after heq
      cases before with
      | nil => exact absurd (List.cons_eq_cons.mp heq).1 hne
      | cons d before =>
        obtain ⟨rfl, heq⟩ := List.cons_eq_cons.mp heq
        cases before with
        | nil => rfl
        | cons e before =>
          simp at heq
    · exact guarded_of_notMem (by simpa using Ne.symm hc)

theorem guardWith_injective {escape quote : α} (hne : escape ≠ quote) :
    Function.Injective (guardWith escape quote) := by
  intro first second
  induction first generalizing second with
  | nil =>
    intro h
    cases second with
    | nil => rfl
    | cons d second =>
      rw [guardWith_cons] at h
      split_ifs at h <;> simp [guardWith] at h
  | cons c first ih =>
    intro h
    cases second with
    | nil =>
      rw [guardWith_cons] at h
      split_ifs at h <;> simp [guardWith] at h
    | cons d second =>
      have hhead := fun text ↦ (guarded_guardWith hne text).head_ne
      rw [guardWith_cons, guardWith_cons] at h
      split_ifs at h with hc hd hd
      · rw [hc, hd, ih (List.append_cancel_left h)]
      · obtain ⟨-, htail⟩ := List.cons_eq_cons.mp h
        exact absurd (congrArg List.head? htail).symm (hhead second)
      · obtain ⟨-, htail⟩ := List.cons_eq_cons.mp h
        exact absurd (congrArg List.head? htail) (hhead first)
      · obtain ⟨rfl, htail⟩ := List.cons_eq_cons.mp h
        rw [ih htail]

theorem quote_mem_guardWith {escape quote : α} {text : List α} (h : quote ∈ text) :
    quote ∈ guardWith escape quote text :=
  List.mem_flatMap.mpr ⟨quote, h, by simp⟩

end Guard

section Text

variable (m : Marks α)

/-- The text of a body. -/
def Body.text : Body α → List α
  | .bare text => text
  | .single text => m.single :: text ++ [m.single]
  | .double text => m.double :: text ++ [m.double]

/-- What a body may hold. -/
def Body.WellFormed : Body α → Prop
  | .bare text => text ≠ [] ∧ m.blank ∉ text ∧ m.single ∉ text ∧ m.double ∉ text
  | .single text => m.single ∉ text
  | .double text => Guarded m.escape m.double text

/-- What a key may hold. -/
structure ValidKey (key : List α) : Prop where
  equals : m.equals ∉ key
  single : m.single ∉ key
  double : m.double ∉ key

/-- The text of a row of fields. -/
def render (fields : List (List α × Body α)) : List α :=
  fields.flatMap fun field ↦ m.blank :: field.1 ++ m.equals :: field.2.text m

/-- Fields with valid keys and well-formed bodies. -/
def WellFormed (fields : List (List α × Body α)) : Prop :=
  ∀ field ∈ fields, ValidKey m field.1 ∧ field.2.WellFormed m

/-- A reading that is outside of quotes reads a row of fields. -/
def Outside (text : List α) : Prop :=
  ∃ fields, WellFormed m fields ∧ text = render m fields

/-- A reading that is inside double quotes. -/
def InDouble (text : List α) : Prop :=
  ∃ inside rest, Guarded m.escape m.double inside ∧ Outside m rest ∧
    text = inside ++ m.double :: rest

/-- A reading that is inside single quotes. -/
def InSingle (text : List α) : Prop :=
  ∃ inside rest, m.single ∉ inside ∧ Outside m rest ∧ text = inside ++ m.single :: rest

end Text

variable {m : Marks α}

theorem render_cons (key : List α) (body : Body α) (rest : List (List α × Body α)) :
    render m ((key, body) :: rest) =
      (m.blank :: key ++ [m.equals]) ++ (body.text m ++ render m rest) := by
  simp [render]

theorem outside_of_cons {field : List α × Body α} {rest : List (List α × Body α)}
    (h : WellFormed m (field :: rest)) : Outside m (render m rest) :=
  ⟨rest, fun other hother ↦ h other (List.mem_cons_of_mem _ hother), rfl⟩

theorem Outside.head {text : List α} (h : Outside m text) :
    text = [] ∨ text.head? = some m.blank := by
  obtain ⟨fields, -, rfl⟩ := h
  cases fields with
  | nil => exact Or.inl rfl
  | cons field rest => exact Or.inr rfl

theorem Outside.head_ne {text : List α} (h : Outside m text) {c : α} (hc : c ≠ m.blank) :
    text.head? ≠ some c := by
  rcases h.head with rfl | hhead
  · simp
  · rw [hhead]
    exact fun heq ↦ hc (Option.some.inj heq).symm

/-! ### One step of a reading -/

theorem InDouble.of_append (first : List α) {rest : List α} (h : InDouble m (first ++ rest))
    (hfirst : m.double ∉ first)
    (hlast : first.getLast? ≠ some m.escape ∨ rest.head? ≠ some m.double) : InDouble m rest := by
  obtain ⟨inside, outer, hguarded, houter, heq⟩ := h
  obtain ⟨more, rfl, hrest⟩ : ∃ more, inside = first ++ more ∧
      rest = more ++ m.double :: outer := by
    rcases List.append_eq_append_iff.mp heq with ⟨more, hinside, hrest⟩ | ⟨more, hfirst', hquote⟩
    · exact ⟨more, hinside, hrest⟩
    · cases more with
      | nil => exact ⟨[], by simpa using hfirst'.symm, by simpa using hquote.symm⟩
      | cons c more =>
        rw [List.cons_append, List.cons_eq_cons] at hquote
        rw [hfirst', ← hquote.1] at hfirst
        exact absurd (List.mem_append_right _ List.mem_cons_self) hfirst
  refine ⟨more, outer, hguarded.of_append _ ?_, houter, hrest⟩
  refine hlast.imp_right fun hhead hmore ↦ hhead ?_
  rw [hrest, List.head?_append, hmore]
  rfl

theorem InSingle.of_append (first : List α) {rest : List α} (h : InSingle m (first ++ rest))
    (hfirst : m.single ∉ first) : InSingle m rest := by
  obtain ⟨inside, outer, hinside, houter, heq⟩ := h
  rcases List.append_eq_append_iff.mp heq with ⟨more, hmore, hrest⟩ | ⟨more, hmore, hquote⟩
  · refine ⟨more, outer, fun hmem ↦ hinside ?_, houter, hrest⟩
    rw [hmore]
    exact List.mem_append_right _ hmem
  · cases more with
    | nil => exact ⟨[], outer, by simp, houter, by simpa using hquote.symm⟩
    | cons c more =>
      rw [List.cons_append, List.cons_eq_cons] at hquote
      rw [hmore, ← hquote.1] at hfirst
      exact absurd (List.mem_append_right _ List.mem_cons_self) hfirst

/-- The first quote of a guarded text is none of the text. -/
theorem InDouble.closed {rest : List α} (h : InDouble m (m.double :: rest)) : Outside m rest := by
  obtain ⟨inside, outer, hguarded, houter, heq⟩ := h
  cases inside with
  | nil =>
    rw [List.nil_append, List.cons_eq_cons] at heq
    rw [heq.2]
    exact houter
  | cons c inside =>
    rw [List.cons_append, List.cons_eq_cons] at heq
    have := hguarded [] inside (by rw [← heq.1]; rfl)
    simp at this

theorem InSingle.closed {rest : List α} (h : InSingle m (m.single :: rest)) : Outside m rest := by
  obtain ⟨inside, outer, hinside, houter, heq⟩ := h
  cases inside with
  | nil =>
    rw [List.nil_append, List.cons_eq_cons] at heq
    rw [heq.2]
    exact houter
  | cons c inside =>
    rw [List.cons_append, List.cons_eq_cons] at heq
    exact absurd (heq.1 ▸ List.mem_cons_self) hinside

/-- What a reading outside of quotes does next: it is at the end, it passes a bare field, or it
passes a key and opens quotes. -/
theorem Outside.cases {text : List α} (h : Outside m text) :
    text = [] ∨ ∃ first rest, text = first ++ rest ∧ first ≠ [] ∧ m.single ∉ first ∧
      m.double ∉ first ∧ (Outside m rest ∨ first.getLast? = some m.equals ∧
        ((∃ inner, rest = m.single :: inner ∧ InSingle m inner) ∨
          ∃ inner, rest = m.double :: inner ∧ InDouble m inner)) := by
  obtain ⟨fields, hfields, rfl⟩ := h
  cases fields with
  | nil => exact Or.inl rfl
  | cons field rest =>
    obtain ⟨key, body⟩ := field
    obtain ⟨hkey, hbody⟩ := hfields _ List.mem_cons_self
    have hsingle : m.single ∉ m.blank :: key ++ [m.equals] := by
      simp [hkey.single, m.blank_ne_single.symm, m.equals_ne_single.symm]
    have hdouble : m.double ∉ m.blank :: key ++ [m.equals] := by
      simp [hkey.double, m.blank_ne_double.symm, m.equals_ne_double.symm]
    rw [render_cons]
    right
    cases body with
    | bare text =>
      refine ⟨(m.blank :: key ++ [m.equals]) ++ text, render m rest, by simp [Body.text],
        by simp, ?_, ?_, Or.inl (outside_of_cons hfields)⟩
      · rw [List.mem_append, not_or]
        exact ⟨hsingle, hbody.2.2.1⟩
      · rw [List.mem_append, not_or]
        exact ⟨hdouble, hbody.2.2.2⟩
    | single text =>
      refine ⟨_, _, rfl, by simp, hsingle, hdouble, Or.inr ⟨List.getLast?_concat,
        Or.inl ⟨text ++ m.single ::
        render m rest, by simp [Body.text], text, _, hbody, outside_of_cons hfields, rfl⟩⟩⟩
    | double text =>
      refine ⟨_, _, rfl, by simp, hsingle, hdouble, Or.inr ⟨List.getLast?_concat,
        Or.inr ⟨text ++ m.double ::
        render m rest, by simp [Body.text], text, _, hbody, outside_of_cons hfields, rfl⟩⟩⟩

/-! ### Two readings that have parted -/

/-- A text that two readings which have parted cannot both read. -/
structure Uncrossed (m : Marks α) (text : List α) : Prop where
  double : Outside m text → ¬ InDouble m text
  single : Outside m text → ¬ InSingle m text
  quotes : InSingle m text → ¬ InDouble m text

theorem getLast?_ne_of_some {text : List α} {c d : α} (h : text.getLast? = some c) (hne : c ≠ d) :
    text.getLast? ≠ some d := by
  rw [h]
  exact fun heq ↦ hne (Option.some.inj heq)

section Step

variable {text : List α}

theorem not_inDouble_of_outside (hshorter : ∀ rest, rest.length < text.length → Uncrossed m rest)
    (houtside : Outside m text) : ¬ InDouble m text := by
  intro hinside
  rcases houtside.cases with rfl | ⟨first, rest, rfl, hne, -, hfirst, hnext⟩
  · obtain ⟨inside, rest, -, -, heq⟩ := hinside
    simp at heq
  have hpos : 0 < first.length := List.length_pos_of_ne_nil hne
  rcases hnext with hrest | ⟨hlast, ⟨inner, rfl, hinner⟩ | ⟨inner, rfl, hinner⟩⟩
  · exact (hshorter rest (by simp; omega)).double hrest
      (hinside.of_append _ hfirst (Or.inr (hrest.head_ne m.blank_ne_double.symm)))
  · have hcons := hinside.of_append _ hfirst (Or.inl (getLast?_ne_of_some hlast m.equals_ne_escape))
    refine (hshorter inner (by simp; omega)).quotes hinner ?_
    refine InDouble.of_append [m.single] hcons ?_ (Or.inl ?_)
    · simpa using m.single_ne_double.symm
    · exact getLast?_ne_of_some rfl m.single_ne_escape
  · have hcons := hinside.of_append _ hfirst (Or.inl (getLast?_ne_of_some hlast m.equals_ne_escape))
    exact (hshorter inner (by simp; omega)).double hcons.closed hinner

theorem not_inSingle_of_outside (hshorter : ∀ rest, rest.length < text.length → Uncrossed m rest)
    (houtside : Outside m text) : ¬ InSingle m text := by
  intro hinside
  rcases houtside.cases with rfl | ⟨first, rest, rfl, hne, hfirst, -, hnext⟩
  · obtain ⟨inside, rest, -, -, heq⟩ := hinside
    simp at heq
  have hpos : 0 < first.length := List.length_pos_of_ne_nil hne
  rcases hnext with hrest | ⟨-, ⟨inner, rfl, hinner⟩ | ⟨inner, rfl, hinner⟩⟩
  · exact (hshorter rest (by simp; omega)).single hrest (hinside.of_append _ hfirst)
  · exact (hshorter inner (by simp; omega)).single (hinside.of_append _ hfirst).closed hinner
  · refine (hshorter inner (by simp; omega)).quotes ?_ hinner
    exact InSingle.of_append [m.double] (hinside.of_append _ hfirst)
      (by simpa using m.single_ne_double)

theorem not_inDouble_of_inSingle (hshorter : ∀ rest, rest.length < text.length → Uncrossed m rest)
    (hsingle : InSingle m text) : ¬ InDouble m text := by
  rintro ⟨inside', rest', hinside', hrest', heq⟩
  obtain ⟨inside, rest, hinside, hrest, rfl⟩ := hsingle
  rcases List.append_eq_append_iff.mp heq with ⟨more, hmore, htail⟩ | ⟨more, hmore, htail⟩
  · cases more with
    | nil => exact m.single_ne_double (List.cons_eq_cons.mp htail).1
    | cons c more =>
      rw [List.cons_append, List.cons_eq_cons] at htail
      obtain ⟨rfl, rfl⟩ := htail
      refine (hshorter _ (by simp; omega)).double hrest ⟨more, rest', ?_, hrest', rfl⟩
      refine Guarded.of_append (inside ++ [m.single]) ?_ (Or.inl ?_)
      · rwa [List.append_assoc, List.singleton_append, ← hmore]
      · exact getLast?_ne_of_some List.getLast?_concat m.single_ne_escape
  · cases more with
    | nil => exact m.single_ne_double (List.cons_eq_cons.mp htail).1.symm
    | cons c more =>
      rw [List.cons_append, List.cons_eq_cons] at htail
      obtain ⟨rfl, rfl⟩ := htail
      have hlength := congrArg List.length heq
      refine (hshorter _ ?_).single hrest' ⟨more, rest, ?_, hrest, rfl⟩
      · rw [hlength]
        simp only [List.length_append, List.length_cons]
        omega
      · intro hmem
        rw [hmore] at hinside
        exact hinside (List.mem_append_right _ (List.mem_cons_of_mem _ hmem))

end Step

/-- No text can be read by two readings that have parted. -/
theorem not_crossed (m : Marks α) (text : List α) : Uncrossed m text := by
  induction hlength : text.length using Nat.strongRecOn generalizing text with
  | ind n ih =>
    have hshorter : ∀ rest : List α, rest.length < text.length → Uncrossed m rest :=
      fun rest hrest ↦ ih rest.length (hlength ▸ hrest) rest rfl
    exact ⟨not_inDouble_of_outside hshorter, not_inSingle_of_outside hshorter,
      not_inDouble_of_inSingle hshorter⟩

/-! ### One reading -/

/-- A text up to the first occurrence of a character. -/
theorem append_cons_inj {c : α} {first second rest rest' : List α} (hfirst : c ∉ first)
    (hsecond : c ∉ second) (h : first ++ c :: rest = second ++ c :: rest') :
    first = second ∧ rest = rest' := by
  induction first generalizing second with
  | nil =>
    cases second with
    | nil => exact ⟨rfl, (List.cons_eq_cons.mp h).2⟩
    | cons d second =>
      rw [List.nil_append, List.cons_append, List.cons_eq_cons] at h
      exact absurd (h.1 ▸ List.mem_cons_self) hsecond
  | cons d first ih =>
    cases second with
    | nil =>
      rw [List.nil_append, List.cons_append, List.cons_eq_cons] at h
      exact absurd (h.1 ▸ List.mem_cons_self) hfirst
    | cons e second =>
      rw [List.cons_append, List.cons_append, List.cons_eq_cons] at h
      obtain ⟨rfl, heq⟩ := h
      obtain ⟨rfl, hrest⟩ := ih (fun hmem ↦ hfirst (List.mem_cons_of_mem _ hmem))
        (fun hmem ↦ hsecond (List.mem_cons_of_mem _ hmem)) heq
      exact ⟨rfl, hrest⟩

/-- Two guarded texts between double quotes, in front of rows of fields. -/
theorem double_inj {first second rest rest' : List α} (hfirst : Guarded m.escape m.double first)
    (hsecond : Guarded m.escape m.double second) (hrest : Outside m rest) (hrest' : Outside m rest')
    (h : first ++ m.double :: rest = second ++ m.double :: rest') :
    first = second ∧ rest = rest' := by
  have hlonger : ∀ {first second rest rest' more : List α}, Guarded m.escape m.double second →
      Outside m rest → Outside m rest' → second = first ++ more →
      m.double :: rest = more ++ m.double :: rest' → more = [] := by
    intro first second rest rest' more hsecond hrest hrest' hmore htail
    cases more with
    | nil => rfl
    | cons c more =>
      rw [List.cons_append, List.cons_eq_cons] at htail
      obtain ⟨rfl, rfl⟩ := htail
      refine absurd ⟨more, rest', ?_, hrest', rfl⟩ ((not_crossed m _).double hrest)
      refine Guarded.of_append (first ++ [m.double]) ?_ (Or.inl ?_)
      · rwa [List.append_assoc, List.singleton_append, ← hmore]
      · exact getLast?_ne_of_some List.getLast?_concat m.double_ne_escape
  rcases List.append_eq_append_iff.mp h with ⟨more, hmore, htail⟩ | ⟨more, hmore, htail⟩
  · obtain rfl := hlonger hsecond hrest hrest' hmore htail
    rw [List.append_nil] at hmore
    exact ⟨hmore.symm, (List.cons_eq_cons.mp htail).2⟩
  · obtain rfl := hlonger hfirst hrest' hrest hmore htail
    rw [List.append_nil] at hmore
    exact ⟨hmore, (List.cons_eq_cons.mp htail).2.symm⟩

/-- Two bare texts in front of rows of fields. -/
theorem bare_inj {first second rest rest' : List α} (hfirst : m.blank ∉ first)
    (hsecond : m.blank ∉ second) (hrest : Outside m rest) (hrest' : Outside m rest')
    (h : first ++ rest = second ++ rest') : first = second ∧ rest = rest' := by
  have hlonger : ∀ {first second rest rest' more : List α}, m.blank ∉ second → Outside m rest →
      second = first ++ more → rest = more ++ rest' → more = [] := by
    intro first second rest rest' more hsecond hrest hmore htail
    cases more with
    | nil => rfl
    | cons c more =>
      rw [List.cons_append] at htail
      have hhead := hrest.head
      rw [htail] at hhead
      obtain rfl : c = m.blank := by simpa using hhead
      rw [hmore] at hsecond
      exact absurd (List.mem_append_right _ List.mem_cons_self) hsecond
  rcases List.append_eq_append_iff.mp h with ⟨more, hmore, htail⟩ | ⟨more, hmore, htail⟩
  · obtain rfl := hlonger hsecond hrest hmore htail
    exact ⟨by rw [hmore, List.append_nil], htail⟩
  · obtain rfl := hlonger hfirst hrest' hmore htail
    exact ⟨by rw [hmore, List.append_nil], htail.symm⟩

theorem bare_ne_quoted {first second rest : List α} {quote : α} (hne : first ≠ [])
    (hquote : quote ∉ first) : first ++ rest ≠ quote :: second := by
  cases first with
  | nil => exact absurd rfl hne
  | cons c first =>
    intro h
    rw [List.cons_append, List.cons_eq_cons] at h
    exact hquote (h.1 ▸ List.mem_cons_self)

theorem body_inj {body body' : Body α} {rest rest' : List α} (hbody : body.WellFormed m)
    (hbody' : body'.WellFormed m) (hrest : Outside m rest) (hrest' : Outside m rest')
    (h : body.text m ++ rest = body'.text m ++ rest') : body = body' ∧ rest = rest' := by
  cases body with
  | bare first =>
    cases body' with
    | bare second =>
      obtain ⟨rfl, heq⟩ := bare_inj hbody.2.1 hbody'.2.1 hrest hrest' h
      exact ⟨rfl, heq⟩
    | single second => exact absurd h (bare_ne_quoted hbody.1 hbody.2.2.1)
    | double second => exact absurd h (bare_ne_quoted hbody.1 hbody.2.2.2)
  | single first =>
    cases body' with
    | bare second => exact absurd h.symm (bare_ne_quoted hbody'.1 hbody'.2.2.1)
    | single second =>
      simp only [Body.text, List.cons_append, List.append_assoc, List.nil_append,
        List.cons_eq_cons, true_and] at h
      obtain ⟨rfl, heq⟩ := append_cons_inj hbody hbody' h
      exact ⟨rfl, heq⟩
    | double second => exact absurd (List.cons_eq_cons.mp h).1 m.single_ne_double
  | double first =>
    cases body' with
    | bare second => exact absurd h.symm (bare_ne_quoted hbody'.1 hbody'.2.2.2)
    | single second => exact absurd (List.cons_eq_cons.mp h).1.symm m.single_ne_double
    | double second =>
      simp only [Body.text, List.cons_append, List.append_assoc, List.nil_append,
        List.cons_eq_cons, true_and] at h
      obtain ⟨rfl, heq⟩ := double_inj hbody hbody' hrest hrest' h
      exact ⟨rfl, heq⟩

/-- A row of fields can be read back from its text. -/
theorem render_injective {fields fields' : List (List α × Body α)} (h : WellFormed m fields)
    (h' : WellFormed m fields') (heq : render m fields = render m fields') : fields = fields' := by
  induction fields generalizing fields' with
  | nil =>
    cases fields' with
    | nil => rfl
    | cons field rest => simp [render] at heq
  | cons field rest ih =>
    cases fields' with
    | nil => simp [render] at heq
    | cons field' rest' =>
      obtain ⟨key, body⟩ := field
      obtain ⟨key', body'⟩ := field'
      obtain ⟨hkey, hbody⟩ := h _ List.mem_cons_self
      obtain ⟨hkey', hbody'⟩ := h' _ List.mem_cons_self
      simp only [render_cons, List.cons_append, List.append_assoc, List.nil_append,
        List.cons_eq_cons, true_and] at heq
      obtain ⟨rfl, hrest⟩ := append_cons_inj hkey.equals hkey'.equals heq
      obtain ⟨rfl, hrender⟩ := body_inj hbody hbody' (outside_of_cons h) (outside_of_cons h') hrest
      rw [ih (fun other hother ↦ h other (List.mem_cons_of_mem _ hother))
        (fun other hother ↦ h' other (List.mem_cons_of_mem _ hother)) hrender]

end Userland.Library.QuotedFields
