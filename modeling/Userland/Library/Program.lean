import Mathlib.Data.List.Basic

/-!
# Stateful programs that may fail

A program over a state `σ` with errors `ε` keeps the state it has reached when it fails, so that a
handler continues from there. `Triple P program Q E` is a statement about every run from `P`: it
ends in `Q` with a value or in `E` with an error. Each construct has one rule (`Triple.bind`,
`Triple.handle`, `Triple.forEach`).

A program whose runs are steps of a preorder keeps what the steps keep. `Steps.forEach` collects
what each iteration of a loop has achieved, provided that later steps do not undo it
(`StableAlong`).
-/

set_option autoImplicit false
set_option relaxedAutoImplicit false

namespace Userland.Library

/-- A program with state `σ` and errors `ε`. A failing run ends in the state it has reached. -/
abbrev Program (σ ε : Type) := ExceptT ε (StateM σ)

namespace Program

variable {σ τ ε α β : Type}

/-- The result and the final state of a run. -/
def exec (program : Program σ ε α) (state : σ) : Except ε α × σ :=
  program.run.run state

@[simp] theorem exec_pure (value : α) (state : σ) :
    exec (pure value : Program σ ε α) state = (.ok value, state) := rfl

@[simp] theorem exec_throw (error : ε) (state : σ) :
    exec (throw error : Program σ ε α) state = (.error error, state) := rfl

@[simp] theorem exec_get (state : σ) :
    exec (get : Program σ ε σ) state = (.ok state, state) := rfl

@[simp] theorem exec_modify (update : σ → σ) (state : σ) :
    exec (modify update : Program σ ε Unit) state = (.ok (), update state) := rfl

theorem exec_bind (program : Program σ ε α) (rest : α → Program σ ε β) (state : σ) :
    exec (program >>= rest) state =
      match exec program state with
      | (.ok value, next) => exec (rest value) next
      | (.error error, next) => (.error error, next) := by
  show (ExceptT.bindCont rest (program.run.run state).1).run (program.run.run state).2 = _
  unfold exec
  rcases program.run.run state with ⟨_ | _, _⟩ <;> rfl

theorem exec_map (update : α → β) (program : Program σ ε α) (state : σ) :
    exec (update <$> program) state =
      match exec program state with
      | (.ok value, next) => (.ok (update value), next)
      | (.error error, next) => (.error error, next) := by
  rw [map_eq_pure_bind, exec_bind]
  rfl

theorem exec_tryCatch (program : Program σ ε α) (handler : ε → Program σ ε α) (state : σ) :
    exec (tryCatch program handler) state =
      match exec program state with
      | (.ok value, next) => (.ok value, next)
      | (.error error, next) => exec (handler error) next := by
  unfold exec
  rw [ExceptT.run_tryCatch, StateT.run_bind]
  rcases program.run.run state with ⟨_ | _, _⟩ <;> rfl

variable {program : Program σ ε α}

theorem exec_eq_of_result {state : σ} {result : Except ε α} (h : (exec program state).1 = result) :
    exec program state = (result, (exec program state).2) :=
  Prod.ext h rfl

/-- A program that only computes an `Except` value. -/
def lift (result : Except ε α) : Program σ ε α :=
  match result with
  | .ok value => pure value
  | .error error => throw error

@[simp] theorem exec_lift (result : Except ε α) (state : σ) :
    exec (lift result) state = (result, state) := by
  cases result <;> rfl

/-- Runs a program for each element of a list, for its effect. -/
def forEach (body : α → Program σ ε Unit) : List α → Program σ ε Unit
  | [] => pure ()
  | element :: rest => do
    body element
    forEach body rest

/-- The elements for which a test with effects succeeds, in order. -/
def filterEach (test : α → Program σ ε Bool) : List α → Program σ ε (List α)
  | [] => pure []
  | element :: rest => do
    let kept ← test element
    let others ← filterEach test rest
    pure (if kept then element :: others else others)

/-- A test without effects filters a list. -/
theorem exec_filterEach_pure (test : α → Bool) (list : List α) (state : σ) :
    exec (filterEach (fun element ↦ pure (test element) : α → Program σ ε Bool) list) state =
      (.ok (list.filter test), state) := by
  induction list with
  | nil => rfl
  | cons element rest ih =>
    rw [filterEach, pure_bind, exec_bind, ih, List.filter_cons]
    rfl

/-- The concatenation of the lists that a program returns for the elements of a list. -/
def flatMapEach (body : α → Program σ ε (List β)) : List α → Program σ ε (List β)
  | [] => pure []
  | element :: rest => do
    let first ← body element
    let others ← flatMapEach body rest
    pure (first ++ others)

theorem forEach_map {γ : Type} (body : α → Program σ ε Unit) (g : γ → α) (list : List γ) :
    forEach body (list.map g) = forEach (fun element ↦ body (g element)) list := by
  induction list with
  | nil => rfl
  | cons element rest ih => rw [List.map_cons, forEach, forEach, ih]

theorem flatMapEach_map {γ : Type} (body : α → Program σ ε (List β)) (g : γ → α) (list : List γ) :
    flatMapEach body (list.map g) = flatMapEach (fun element ↦ body (g element)) list := by
  induction list with
  | nil => rfl
  | cons element rest ih => rw [List.map_cons, flatMapEach, flatMapEach, ih]

variable {f : α → Except ε β} {l : List α}

/-- A list whose elements all have a value under `f` is mapped to the list of these values. -/
theorem exists_mapM_ok (h : ∀ x ∈ l, ∃ y, f x = .ok y) :
    ∃ ys, l.mapM f = .ok ys ∧ ∀ y, y ∈ ys ↔ ∃ x ∈ l, f x = .ok y := by
  induction l with
  | nil => exact ⟨[], rfl, by simp⟩
  | cons x rest ih =>
    obtain ⟨y, hy⟩ := h x List.mem_cons_self
    obtain ⟨ys, hys, hmem⟩ := ih fun z hz ↦ h z (List.mem_cons_of_mem _ hz)
    refine ⟨y :: ys, by rw [List.mapM_cons, hy, hys]; rfl, fun z ↦ ?_⟩
    simp only [List.mem_cons, hmem, or_and_right, exists_or, exists_eq_left, hy, Except.ok.injEq,
      eq_comm (a := z)]

/-- Two computations in a row give a result if the second one does with the result of the first. -/
theorem bind_eq_ok {x : Except ε α} {b : β} (h : x.bind f = .ok b) :
    ∃ a, x = .ok a ∧ f a = .ok b := by
  cases x with
  | error error => cases h
  | ok a => exact ⟨a, rfl, h⟩

theorem map_eq_ok {x : Except ε α} {f : α → β} {b : β} (h : x.map f = .ok b) :
    ∃ a, x = .ok a ∧ f a = b := by
  rcases x with error | a
  · cases h
  · exact ⟨a, rfl, Except.ok.inj h⟩

variable {ys : List β}

theorem mapM_cons_eq_ok {x : α}
    (h : (x :: l).mapM f = .ok ys) :
    ∃ first rest, f x = .ok first ∧ l.mapM f = .ok rest ∧ ys = first :: rest := by
  rw [List.mapM_cons] at h
  cases hx : f x with
  | error error =>
    rw [hx] at h
    cases h
  | ok first =>
    rw [hx] at h
    cases hrest : l.mapM f with
    | error error =>
      rw [hrest] at h
      cases h
    | ok rest =>
      rw [hrest] at h
      exact ⟨first, rest, rfl, rfl, (Except.ok.inj h).symm⟩

/-- Results of a row of computations, one after the other. -/
theorem mapM_eq_ok_iff : l.mapM f = .ok ys ↔ l.map f = ys.map .ok := by
  induction l generalizing ys with
  | nil =>
    rw [List.mapM_nil, List.map_nil, eq_comm (a := []), List.map_eq_nil_iff]
    exact ⟨fun h ↦ (Except.ok.inj h).symm, fun h ↦ h ▸ rfl⟩
  | cons x l ih =>
    constructor
    · intro h
      obtain ⟨first, rest, hx, hrest, rfl⟩ := mapM_cons_eq_ok h
      rw [List.map_cons, List.map_cons, hx, ih.mp hrest]
    · intro h
      obtain ⟨first, rest, rfl, hx, hrest⟩ := List.map_eq_cons_iff.mp h.symm
      rw [List.mapM_cons, ← hx, ih.mpr hrest.symm]
      rfl

theorem ok_of_mapM_ok (h : l.mapM f = .ok ys) : ∀ x ∈ l, ∃ y, f x = .ok y := by
  induction l generalizing ys with
  | nil => intro x hx; cases hx
  | cons x rest ih =>
    obtain ⟨first, others, hx, hrest, -⟩ := mapM_cons_eq_ok h
    exact List.forall_mem_cons.mpr ⟨⟨first, hx⟩, ih hrest⟩

theorem length_of_mapM_ok (h : l.mapM f = .ok ys) : ys.length = l.length := by
  induction l generalizing ys with
  | nil =>
    obtain rfl : [] = ys := Except.ok.inj h
    rfl
  | cons x rest ih =>
    obtain ⟨first, others, -, hrest, rfl⟩ := mapM_cons_eq_ok h
    rw [List.length_cons, ih hrest, List.length_cons]

theorem mem_mapM_ok_iff (h : l.mapM f = .ok ys) {y : β} : y ∈ ys ↔ ∃ x ∈ l, f x = .ok y := by
  obtain ⟨others, hothers, hmem⟩ := Program.exists_mapM_ok (ok_of_mapM_ok h)
  rw [Except.ok.inj (h.symm.trans hothers)]
  exact hmem y

theorem mem_of_mapM_ok (h : l.mapM f = .ok ys) {y : β} (hy : y ∈ ys) : ∃ x ∈ l, f x = .ok y :=
  (mem_mapM_ok_iff h).mp hy

/-- What holds of the elements of a list two by two holds of their values, if it does of any two of
them. -/
theorem pairwise_of_mapM_ok {R : α → α → Prop} {S : β → β → Prop}
    (h : l.mapM f = .ok ys) (hpairwise : l.Pairwise R)
    (hvalues : ∀ x ∈ l, ∀ x' ∈ l, ∀ y y', f x = .ok y → f x' = .ok y' → R x x' → S y y') :
    ys.Pairwise S := by
  induction l generalizing ys with
  | nil =>
    obtain rfl : [] = ys := Except.ok.inj h
    exact List.Pairwise.nil
  | cons x rest ih =>
    obtain ⟨first, others, hx, hrest, rfl⟩ := mapM_cons_eq_ok h
    obtain ⟨hfirst, hothers⟩ := List.pairwise_cons.mp hpairwise
    refine List.pairwise_cons.mpr ⟨fun y hy ↦ ?_, ih hrest hothers fun z hz z' hz' ↦
      hvalues z (List.mem_cons_of_mem _ hz) z' (List.mem_cons_of_mem _ hz')⟩
    obtain ⟨x', hx', hy'⟩ := mem_of_mapM_ok hrest hy
    exact hvalues x List.mem_cons_self x' (List.mem_cons_of_mem _ hx') first y hx hy'
      (hfirst x' hx')

theorem mapM_congr {f g : α → Except ε β} (h : ∀ x ∈ l, f x = g x) : l.mapM f = l.mapM g := by
  induction l with
  | nil => rfl
  | cons x rest ih =>
    rw [List.mapM_cons, List.mapM_cons, h x List.mem_cons_self,
      ih fun z hz ↦ h z (List.mem_cons_of_mem _ hz)]

/-! ### One run -/

/-- Every run from a state in `P` returns a value in `Q` or fails with an error in `E`. -/
def Triple (P : σ → Prop) (program : Program σ ε α) (Q : α → σ → Prop)
    (E : ε → σ → Prop) : Prop :=
  ∀ state, P state → match exec program state with
    | (.ok value, next) => Q value next
    | (.error error, next) => E error next

namespace Triple

variable {P : σ → Prop} {Q : α → σ → Prop} {E : ε → σ → Prop}

theorem pure {value : α} (h : ∀ state, P state → Q value state) :
    Triple P (pure value : Program σ ε α) Q E := h

theorem throw {error : ε} (h : ∀ state, P state → E error state) :
    Triple P (throw error : Program σ ε α) Q E := h

theorem get {Q : σ → σ → Prop} (h : ∀ state, P state → Q state state) :
    Triple P (get : Program σ ε σ) Q E := h

theorem modify {Q : Unit → σ → Prop} {update : σ → σ}
    (h : ∀ state, P state → Q () (update state)) :
    Triple P (modify update : Program σ ε Unit) Q E := h

theorem lift {result : Except ε α} (hok : ∀ value state, result = .ok value → P state →
      Q value state)
    (herr : ∀ error state, result = .error error → P state → E error state) :
    Triple P (lift result) Q E := by
  intro state hstate
  rw [exec_lift]
  cases result with
  | ok value => exact hok value state rfl hstate
  | error error => exact herr error state rfl hstate

theorem bind {rest : α → Program σ ε β} {M : α → σ → Prop} {Q : β → σ → Prop}
    (hfirst : Triple P program M E) (hrest : ∀ value, Triple (M value) (rest value) Q E) :
    Triple P (program >>= rest) Q E := by
  intro state hstate
  have hrun := hfirst state hstate
  rw [exec_bind]
  rcases hexec : exec program state with ⟨error | value, next⟩ <;> rw [hexec] at hrun
  · exact hrun
  · exact hrest value next hrun

theorem weaken {P' : σ → Prop} {Q' : α → σ → Prop}
    {E' : ε → σ → Prop} (h : Triple P program Q E) (hpre : ∀ state, P' state → P state)
    (hpost : ∀ value state, Q value state → Q' value state)
    (herr : ∀ error state, E error state → E' error state) :
    Triple P' program Q' E' := by
  intro state hstate
  have hrun := h state (hpre state hstate)
  rcases hexec : exec program state with ⟨error | value, next⟩ <;> rw [hexec] at hrun
  · exact herr error next hrun
  · exact hpost value next hrun

theorem handle {handler : ε → Program σ ε α} {M : ε → σ → Prop} (hfirst : Triple P program Q M)
    (hhandler : ∀ error, Triple (M error) (handler error) Q E) :
    Triple P (tryCatch program handler) Q E := by
  intro state hstate
  have hrun := hfirst state hstate
  rw [exec_tryCatch]
  rcases hexec : exec program state with ⟨error | value, next⟩ <;> rw [hexec] at hrun
  · exact hhandler error next hrun
  · exact hrun

/-- A fact about no state may be assumed out of a precondition. -/
theorem assume {fact : Prop} (h : fact → Triple P program Q E) :
    Triple (fun state ↦ fact ∧ P state) program Q E :=
  fun state hstate ↦ h hstate.1 state hstate.2

/-- A precondition that is a fact about no state may be assumed. -/
theorem assume_only {fact : Prop} (h : fact → Triple (fun _ ↦ True) program Q E) :
    Triple (fun _ ↦ fact) program Q E :=
  fun state hfact ↦ h hfact state trivial

/-- Two triples about one program hold together. -/
theorem and {P' : σ → Prop} {Q' : α → σ → Prop} (h : Triple P program Q E)
    (h' : Triple P' program Q' E) :
    Triple (fun state ↦ P state ∧ P' state) program
      (fun value state ↦ Q value state ∧ Q' value state) E := by
  intro state hstate
  have hrun := h state hstate.1
  have hrun' := h' state hstate.2
  rcases hexec : exec program state with ⟨error | value, next⟩ <;> rw [hexec] at hrun hrun'
  · exact hrun
  · exact ⟨hrun, hrun'⟩

variable {list : List α}

/-- A loop over a list keeps an invariant of the elements treated so far. -/
theorem forEach {body : α → Program σ ε Unit} {I : List α → σ → Prop}
    (hbody : ∀ before element after, list = before ++ element :: after →
      Triple (I before) (body element) (fun _ ↦ I (before ++ [element])) E) :
    Triple (I []) (forEach body list) (fun _ ↦ I list) E := by
  suffices hloop : ∀ after before, list = before ++ after →
      Triple (I before) (Program.forEach body after) (fun _ ↦ I list) E from
    hloop list [] rfl
  intro after
  induction after with
  | nil =>
    intro before hlist
    rw [List.append_nil] at hlist
    exact Triple.pure fun state hstate ↦ hlist ▸ hstate
  | cons element rest ih =>
    intro before hlist
    refine Triple.bind (hbody before element rest hlist) fun _ ↦ ?_
    exact ih (before ++ [element]) (by rw [hlist, List.append_assoc]; rfl)

/-- A loop over a list keeps an invariant that does not mention the elements. -/
theorem forEach_same {body : α → Program σ ε Unit}
    (hbody : ∀ element ∈ list, Triple P (body element) (fun _ ↦ P) E) :
    Triple P (Program.forEach body list) (fun _ ↦ P) E :=
  Triple.forEach (I := fun _ ↦ P) fun _ element _ hlist ↦
    hbody element (by rw [hlist]; exact List.mem_append_right _ List.mem_cons_self)

/-- A filter keeps an invariant of the elements treated so far, and selects the elements its test
reports. -/
theorem filterEach_prefix {test : α → Program σ ε Bool} {holds : α → Bool} {I : List α → σ → Prop}
    (htest : ∀ before element after, list = before ++ element :: after →
      Triple (I before) (test element)
        (fun kept state ↦ kept = holds element ∧ I (before ++ [element]) state) E) :
    Triple (I []) (Program.filterEach test list)
      (fun kept state ↦ kept = list.filter holds ∧ I list state) E := by
  suffices hloop : ∀ after before, list = before ++ after →
      Triple (I before) (Program.filterEach test after)
        (fun kept state ↦ kept = after.filter holds ∧ I list state) E from
    hloop list [] rfl
  intro after
  induction after with
  | nil =>
    intro before hlist
    rw [List.append_nil] at hlist
    exact Triple.pure fun state hstate ↦ ⟨rfl, hlist ▸ hstate⟩
  | cons element rest ih =>
    intro before hlist
    refine Triple.bind (htest before element rest hlist) fun kept ↦ Triple.assume fun hkept ↦ ?_
    have hrest := ih (before ++ [element]) (by rw [hlist, List.append_assoc]; rfl)
    refine Triple.bind hrest fun others ↦ Triple.pure fun state hstate ↦ ⟨?_, hstate.2⟩
    rw [List.filter_cons, hkept, hstate.1]

/-- A filter keeps an invariant, and selects the elements its test reports. -/
theorem filterEach {test : α → Program σ ε Bool} {holds : α → Bool}
    (htest : ∀ element ∈ list, Triple P (test element)
      (fun kept state ↦ kept = holds element ∧ P state) E) :
    Triple P (Program.filterEach test list)
      (fun kept state ↦ kept = list.filter holds ∧ P state) E :=
  Triple.filterEach_prefix (I := fun _ ↦ P) fun _ element _ hlist ↦
    htest element (by rw [hlist]; exact List.mem_append_right _ List.mem_cons_self)

/-- A filter selects elements of the list, whatever its test does. -/
theorem filterEach_sublist (test : α → Program σ ε Bool) (list : List α) :
    Triple (fun _ ↦ True) (Program.filterEach test list) (fun kept _ ↦ kept.Sublist list)
      fun _ _ ↦ True := by
  induction list with
  | nil => exact Triple.pure fun _ _ ↦ List.Sublist.refl _
  | cons element rest ih =>
    refine Triple.bind (M := fun _ _ ↦ True) (fun state _ ↦ by split <;> trivial) fun kept ↦ ?_
    refine Triple.bind ih fun others ↦ Triple.pure fun _ hsub ↦ ?_
    split_ifs
    · exact hsub.cons_cons element
    · exact hsub.cons element

/-- A loop that collects lists keeps an invariant, and a property of the elements it collects. -/
theorem flatMapEach {body : α → Program σ ε (List β)} {M : β → Prop}
    (hbody : ∀ element ∈ list, Triple P (body element)
      (fun found state ↦ (∀ other ∈ found, M other) ∧ P state) E) :
    Triple P (Program.flatMapEach body list)
      (fun found state ↦ (∀ other ∈ found, M other) ∧ P state) E := by
  induction list with
  | nil => exact Triple.pure fun state hstate ↦ ⟨by simp, hstate⟩
  | cons element rest ih =>
    refine Triple.bind (hbody element List.mem_cons_self) fun first ↦ ?_
    refine Triple.assume fun hfirst ↦ ?_
    refine Triple.bind (ih fun other hother ↦ hbody other (List.mem_cons_of_mem _ hother))
      fun others ↦ ?_
    refine Triple.pure fun state hstate ↦ ⟨fun other hother ↦ ?_, hstate.2⟩
    exact (List.mem_append.mp hother).elim (hfirst other) (hstate.1 other)

/-- Of every program that returns, a fact that holds anyway holds. -/
theorem of_fact {fact : Prop} (h : fact) : Triple P program (fun _ _ ↦ fact) fun _ _ ↦ True :=
  fun state _ ↦ by split <;> trivial

/-- A triple may be proved for each state separately. -/
theorem of_start (h : ∀ start, P start → Triple (fun state ↦ state = start) program Q E) :
    Triple P program Q E :=
  fun start hstart ↦ h start hstart start rfl

/-- A program whose result is known. -/
theorem of_exec_eq {value : σ → α} {next : σ → σ}
    (hexec : ∀ state, exec program state = (.ok (value state), next state))
    (h : ∀ state, P state → Q (value state) (next state)) : Triple P program Q E := by
  intro state hstate
  rw [hexec]
  exact h state hstate

/-- What a triple says of a run that returned a value. -/
theorem of_exec (h : Triple P program Q E) {state next : σ}
    {value : α} (hstate : P state) (hexec : exec program state = (.ok value, next)) :
    Q value next := by
  have hrun := h state hstate
  rw [hexec] at hrun
  exact hrun

end Triple

/-! ### Programs as steps -/

section Steps

variable {rel : σ → σ → Prop} {I : σ → Prop}

/-- Steps compose, and keep what has to hold before each of them. -/
structure Stepping (rel : σ → σ → Prop) (I : σ → Prop) : Prop where
  refl : ∀ state, rel state state
  trans : ∀ {first middle last}, rel first middle → rel middle last → rel first last
  keeps : ∀ {before after}, rel before after → I before → I after

/-- A statement about a step that still holds when steps come before and after. -/
def StableAlong (rel F : σ → σ → Prop) : Prop :=
  ∀ first before after last, rel first before → F before after → rel after last → F first last

/-- From a state in `I` the program makes a step, of which `F` holds, unless it fails. -/
def Steps (rel : σ → σ → Prop) (I : σ → Prop) (program : Program σ ε α) (F : σ → σ → Prop) : Prop :=
  ∀ start, I start → Triple (fun state ↦ state = start) program
    (fun _ state ↦ rel start state ∧ F start state) fun _ _ ↦ True

theorem Steps.weaken {F G : σ → σ → Prop} (h : Steps rel I program F)
    (hFG : ∀ before after, F before after → G before after) : Steps rel I program G :=
  fun start hstart ↦ (h start hstart).weaken (fun _ h ↦ h)
    (fun _ _ h ↦ ⟨h.1, hFG _ _ h.2⟩) (fun _ _ h ↦ h)

/-- One step after another. -/
theorem Steps.seq (hrel : Stepping rel I) {program rest : Program σ ε Unit} {F G : σ → σ → Prop}
    (hprogram : Steps rel I program F) (hrest : Steps rel I rest G) (hF : StableAlong rel F)
    (hG : StableAlong rel G) :
    Steps rel I (do program; rest) fun before after ↦ F before after ∧ G before after := by
  intro start hstart
  refine Triple.bind (hprogram start hstart) fun _ ↦ ?_
  refine Triple.of_start fun middle hmiddle ↦ ?_
  refine (hrest middle (hrel.keeps hmiddle.1 hstart)).weaken (fun _ h ↦ h) ?_ (fun _ _ h ↦ h)
  rintro _ state ⟨hstep, hstate⟩
  exact ⟨hrel.trans hmiddle.1 hstep,
    hF start start middle state (hrel.refl start) hmiddle.2 hstep,
    hG start middle state state hmiddle.1 hstate (hrel.refl state)⟩

/-- In a loop the statements of all iterations hold in the end. -/
theorem Steps.forEach (hrel : Stepping rel I) {body : α → Program σ ε Unit} {list : List α}
    {F : α → σ → σ → Prop} (hstable : ∀ element, StableAlong rel (F element))
    (hbody : ∀ element ∈ list, Steps rel I (body element) (F element)) :
    Steps rel I (Program.forEach body list) fun before after ↦
      ∀ element ∈ list, F element before after := by
  induction list with
  | nil => exact fun start _ ↦ Triple.pure fun state h ↦ ⟨h ▸ hrel.refl state, by simp⟩
  | cons element rest ih =>
    have hrest := ih fun other hother ↦ hbody other (List.mem_cons_of_mem _ hother)
    refine (Steps.seq hrel (hbody element List.mem_cons_self) hrest (hstable element)
      fun first before after last hfirst hF hlast other hother ↦
        hstable other first before after last hfirst (hF other hother) hlast).weaken ?_
    exact fun before after h ↦ List.forall_mem_cons.mpr h

end Steps

end Program

end Userland.Library
