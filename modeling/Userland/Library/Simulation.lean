import Userland.Library.Worklist

/-!
# Two programs side by side

`Simulates P first second Q E` relates two runs from states in `P`: both return values, in `Q`, or
both fail, in `E`. In the common case the two programs agree (`Agrees`): they return the same value
or fail with the same error, and the relation of the states is kept. Every construct of programs has
a rule for agreement, worklists included (`Agrees.drain`).

Two filters that run over different lists agree up to the elements that only the first one sees, if
the test of such an element succeeds without disturbing the relation
(`Simulates.filterEach_restrict`).
-/

set_option autoImplicit false
set_option relaxedAutoImplicit false

namespace Userland.Library

namespace Program

variable {σ τ ε δ α β γ : Type}

/-- From states in `P` both programs return values, with the final states in `Q`, or both fail, with
the final states in `E`. -/
def Simulates (P : σ → τ → Prop) (first : Program σ ε α) (second : Program τ δ β)
    (Q : α → β → σ → τ → Prop) (E : ε → δ → σ → τ → Prop) : Prop :=
  ∀ s t, P s t → match exec first s, exec second t with
    | (.ok a, s'), (.ok b, t') => Q a b s' t'
    | (.error e, s'), (.error d, t') => E e d s' t'
    | _, _ => False

namespace Simulates

variable {P : σ → τ → Prop} {first : Program σ ε α} {second : Program τ δ β}
  {Q : α → β → σ → τ → Prop} {E : ε → δ → σ → τ → Prop}

theorem pure {a : α} {b : β} (h : ∀ s t, P s t → Q a b s t) :
    Simulates P (pure a : Program σ ε α) (pure b : Program τ δ β) Q E := h

theorem throw {e : ε} {d : δ} (h : ∀ s t, P s t → E e d s t) :
    Simulates P (throw e : Program σ ε α) (throw d : Program τ δ β) Q E := h

theorem bind {α' β' : Type} {f : α → Program σ ε α'} {g : β → Program τ δ β'}
    {M : α → β → σ → τ → Prop} {Q : α' → β' → σ → τ → Prop}
    (hfirst : Simulates P first second M E) (hrest : ∀ a b, Simulates (M a b) (f a) (g b) Q E) :
    Simulates P (first >>= f) (second >>= g) Q E := by
  intro s t hP
  have hrun := hfirst s t hP
  rw [exec_bind, exec_bind]
  rcases hexec : exec first s with ⟨e | a, s'⟩ <;>
    rcases hexec' : exec second t with ⟨d | b, t'⟩ <;> simp only [hexec, hexec'] at hrun
  · exact hrun
  · exact hrest a b s' t' hrun

theorem handle {h : ε → Program σ ε α} {k : δ → Program τ δ β} {M : ε → δ → σ → τ → Prop}
    (hfirst : Simulates P first second Q M) (hhandler : ∀ e d, Simulates (M e d) (h e) (k d) Q E) :
    Simulates P (tryCatch first h) (tryCatch second k) Q E := by
  intro s t hP
  have hrun := hfirst s t hP
  rw [exec_tryCatch, exec_tryCatch]
  rcases hexec : exec first s with ⟨e | a, s'⟩ <;>
    rcases hexec' : exec second t with ⟨d | b, t'⟩ <;> simp only [hexec, hexec'] at hrun
  · exact hhandler e d s' t' hrun
  · exact hrun

theorem weaken {P' : σ → τ → Prop} {Q' : α → β → σ → τ → Prop} {E' : ε → δ → σ → τ → Prop}
    (h : Simulates P first second Q E) (hP : ∀ s t, P' s t → P s t)
    (hQ : ∀ a b s t, Q a b s t → Q' a b s t) (hE : ∀ e d s t, E e d s t → E' e d s t) :
    Simulates P' first second Q' E' := by
  intro s t hP'
  have hrun := h s t (hP s t hP')
  rcases hexec : exec first s with ⟨e | a, s'⟩ <;>
    rcases hexec' : exec second t with ⟨d | b, t'⟩ <;> simp only [hexec, hexec'] at hrun
  · exact hE e d s' t' hrun
  · exact hQ a b s' t' hrun

/-- A simulation may be proved for each pair of states separately. -/
theorem of_start (h : ∀ s t, P s t → Simulates (fun s' t' ↦ s' = s ∧ t' = t) first second Q E) :
    Simulates P first second Q E :=
  fun s t hP ↦ h s t hP s t ⟨rfl, rfl⟩

/-- A fact about no state may be assumed out of a precondition. -/
theorem assume {fact : Prop} (h : fact → Simulates P first second Q E) :
    Simulates (fun s t ↦ fact ∧ P s t) first second Q E :=
  fun s t hstate ↦ h hstate.1 s t hstate.2

/-- What a triple says about the first program holds beside a simulation. -/
theorem and_left {P' : σ → Prop} {Q' : α → σ → Prop} (h : Simulates P first second Q E)
    (htriple : Triple P' first Q' fun _ _ ↦ True) :
    Simulates (fun s t ↦ P s t ∧ P' s) first second (fun a b s t ↦ Q a b s t ∧ Q' a s) E := by
  intro s t hstate
  have hrun := h s t hstate.1
  have hrun' := htriple s hstate.2
  rcases hexec : exec first s with ⟨e | a, s'⟩ <;>
    rcases hexec' : exec second t with ⟨d | b, t'⟩ <;> simp only [hexec, hexec'] at hrun hrun'
  · exact hrun
  · exact ⟨hrun, hrun'⟩

/-- Two programs that are one program, run from one state. -/
theorem same {program : Program σ ε α} {P : σ → Prop} {Q : α → σ → Prop}
    (h : Triple P program Q fun _ _ ↦ True) :
    Simulates (fun s t ↦ s = t ∧ P s) program program (fun a b s t ↦ a = b ∧ s = t ∧ Q a s)
      fun e d s t ↦ e = d ∧ s = t := by
  rintro s t ⟨rfl, hP⟩
  have hrun := h s hP
  rcases hexec : exec program s with ⟨e | a, s'⟩ <;> rw [hexec] at hrun
  · exact ⟨rfl, rfl⟩
  · exact ⟨rfl, rfl, hrun⟩

/-- Loops that collect the same lists. -/
theorem flatMapEach {P : σ → τ → Prop} {N : γ → Prop} {E : ε → δ → σ → τ → Prop}
    {body : α → Program σ ε (List γ)} {body' : α → Program τ δ (List γ)} {list : List α}
    (hbody : ∀ element ∈ list, Simulates P (body element) (body' element)
      (fun a b s t ↦ (a = b ∧ ∀ other ∈ a, N other) ∧ P s t) E) :
    Simulates P (flatMapEach body list) (flatMapEach body' list)
      (fun a b s t ↦ (a = b ∧ ∀ other ∈ a, N other) ∧ P s t) E := by
  induction list with
  | nil => exact Simulates.pure fun _ _ hP ↦ ⟨⟨rfl, by simp⟩, hP⟩
  | cons element rest ih =>
    refine Simulates.bind (hbody element List.mem_cons_self) fun found found' ↦ ?_
    refine Simulates.assume ?_
    rintro ⟨rfl, hfound⟩
    refine Simulates.bind (ih fun other hother ↦ hbody other (List.mem_cons_of_mem _ hother))
      fun others others' ↦ Simulates.pure ?_
    rintro s t ⟨⟨rfl, hothers⟩, hP⟩
    refine ⟨⟨rfl, fun other hother ↦ ?_⟩, hP⟩
    exact (List.mem_append.mp hother).elim (hfound other) (hothers other)

/-- Worklists do the same if the processing of an element does. -/
theorem drain [DecidableEq α] {P : σ → τ → Prop} {N : α → Prop} {E : ε → δ → σ → τ → Prop}
    (pick : List α → ℕ)
    {step : β → α → Program σ ε (β × List α)} {step' : β → α → Program τ δ (β × List α)}
    (hstep : ∀ acc element, N element → Simulates P (step acc element) (step' acc element)
      (fun a b s t ↦ (a = b ∧ ∀ other ∈ a.2, N other) ∧ P s t) E)
    (fuel : ℕ) (acc : β) (needed taken : List α) (hneeded : ∀ element ∈ needed, N element)
    (htaken : ∀ element ∈ taken, N element) :
    Simulates P (drain pick step fuel acc needed taken) (drain pick step' fuel acc needed taken)
      (fun a b s t ↦ (a = b ∧ ∀ acc taken, a = some (acc, taken) → ∀ element ∈ taken, N element) ∧
        P s t) E := by
  induction fuel generalizing acc needed taken with
  | zero =>
    unfold Library.drain
    cases hpop : pop pick needed with
    | none =>
      refine Simulates.pure fun s t hP ↦ ⟨⟨rfl, fun acc' taken' hresult ↦ ?_⟩, hP⟩
      cases hresult
      exact htaken
    | some popped =>
      exact Simulates.pure fun s t hP ↦ ⟨⟨rfl, fun acc' taken' hresult ↦ by cases hresult⟩, hP⟩
  | succ fuel ih =>
    unfold Library.drain
    cases hpop : pop pick needed with
    | none =>
      refine Simulates.pure fun s t hP ↦ ⟨⟨rfl, fun acc' taken' hresult ↦ ?_⟩, hP⟩
      cases hresult
      exact htaken
    | some popped =>
      obtain ⟨element, rest⟩ := popped
      have hperm := perm_of_pop hpop
      have helement : N element := hneeded element (hperm.symm.subset List.mem_cons_self)
      refine Simulates.bind (hstep acc element helement) fun a b ↦ Simulates.assume ?_
      rintro ⟨rfl, hfound⟩
      refine ih a.1 _ _ (fun other hother ↦ ?_) (List.forall_mem_cons.mpr ⟨helement, htaken⟩)
      rcases mem_stillNeeded.mp hother with ⟨hmem, -⟩ | hrest
      · exact hfound other hmem
      · exact hneeded other (hperm.symm.subset (List.mem_cons_of_mem _ hrest))

/-- The fuel of the second worklist may be smaller if it suffices. -/
theorem drain_le [DecidableEq α] {P : σ → τ → Prop} {N : α → Prop} {E : ε → δ → σ → τ → Prop}
    {pick : List α → ℕ}
    {step : β → α → Program σ ε (β × List α)} {step' : β → α → Program τ δ (β × List α)}
    (hstep : ∀ acc element, N element → Simulates P (step acc element) (step' acc element)
      (fun a b s t ↦ (a = b ∧ ∀ other ∈ a.2, N other) ∧ P s t) E)
    {fuel fuel' : ℕ} (hfuel : fuel' ≤ fuel) (acc : β) (needed taken : List α)
    (hneeded : ∀ element ∈ needed, N element) (htaken : ∀ element ∈ taken, N element)
    (hsuffices : ∀ t, (exec (Library.drain pick step' fuel' acc needed taken) t).1 ≠ .ok none) :
    Simulates P (Library.drain pick step fuel acc needed taken)
      (Library.drain pick step' fuel' acc needed taken)
      (fun a b s t ↦ (a = b ∧ ∀ acc taken, a = some (acc, taken) → ∀ element ∈ taken, N element) ∧
        P s t) E := by
  intro s t hP
  obtain ⟨more, rfl⟩ := Nat.exists_eq_add_of_le hfuel
  have hrun := Simulates.drain pick hstep (fuel' + more) acc needed taken hneeded htaken s t hP
  rwa [exec_drain_add (hsuffices t)] at hrun

/-- The results of programs that return the same value or fail with the same error. -/
theorem result_eq {first : Program σ ε α} {second : Program τ ε α}
    (h : Simulates P first second (fun a b _ _ ↦ a = b) fun e d _ _ ↦ e = d) {s : σ} {t : τ}
    (hP : P s t) : (exec first s).1 = (exec second t).1 := by
  have hrun := h s t hP
  rcases hexec : exec first s with ⟨e | a, s'⟩ <;>
    rcases hexec' : exec second t with ⟨d | b, t'⟩ <;> simp only [hexec, hexec'] at hrun
  · rw [hrun]
  · rw [hrun]

/-- Programs whose results are known. -/
theorem of_exec_eq {a : σ → α} {b : τ → β} {next : σ → σ} {next' : τ → τ}
    (hfirst : ∀ s, exec first s = (.ok (a s), next s))
    (hsecond : ∀ t, exec second t = (.ok (b t), next' t))
    (h : ∀ s t, P s t → Q (a s) (b t) (next s) (next' t)) : Simulates P first second Q E := by
  intro s t hP
  rw [hfirst, hsecond]
  exact h s t hP

end Simulates

/-! ### Agreement -/

/-- The programs return the same value, in `M`, or fail with the same error, and keep the relation.
-/
def Agrees (P : σ → τ → Prop) (M : α → Prop) (first : Program σ ε α) (second : Program τ ε α) :
    Prop :=
  Simulates P first second (fun a b s t ↦ (a = b ∧ M a) ∧ P s t) fun e d s t ↦ e = d ∧ P s t

namespace Agrees

variable {P : σ → τ → Prop} {M : α → Prop} {first : Program σ ε α} {second : Program τ ε α}

theorem pure {a : α} (h : M a) :
    Agrees P M (pure a : Program σ ε α) (pure a : Program τ ε α) :=
  Simulates.pure fun _ _ hP ↦ ⟨⟨rfl, h⟩, hP⟩

theorem throw {e : ε} : Agrees P M (throw e : Program σ ε α) (throw e : Program τ ε α) :=
  Simulates.throw fun _ _ hP ↦ ⟨rfl, hP⟩

theorem modify {M : Unit → Prop} {u : σ → σ} {v : τ → τ} (hM : M ())
    (h : ∀ s t, P s t → P (u s) (v t)) :
    Agrees P M (modify u : Program σ ε Unit) (modify v : Program τ ε Unit) :=
  fun s t hP ↦ ⟨⟨rfl, hM⟩, h s t hP⟩

theorem lift {result : Except ε α} (h : ∀ a, result = .ok a → M a) :
    Agrees P M (lift result : Program σ ε α) (lift result : Program τ ε α) := by
  cases result with
  | ok a => exact Agrees.pure (h a rfl)
  | error e => exact Agrees.throw

theorem bind {N : β → Prop} {f : α → Program σ ε β} {g : α → Program τ ε β}
    (hfirst : Agrees P M first second) (hrest : ∀ a, M a → Agrees P N (f a) (g a)) :
    Agrees P N (first >>= f) (second >>= g) := by
  refine Simulates.bind hfirst fun a b ↦ Simulates.assume ?_
  rintro ⟨rfl, hM⟩
  exact hrest a hM

/-- Reading the states, which may differ. -/
theorem get_bind {N : β → Prop} {f : σ → Program σ ε β} {g : τ → Program τ ε β}
    (h : ∀ s t, P s t → Agrees P N (f s) (g t)) : Agrees P N (get >>= f) (get >>= g) := by
  intro s t hP
  rw [exec_bind, exec_bind, exec_get, exec_get]
  exact h s t hP s t hP

theorem handle {h : ε → Program σ ε α} {k : ε → Program τ ε α} (hfirst : Agrees P M first second)
    (hhandler : ∀ e, Agrees P M (h e) (k e)) :
    Agrees P M (tryCatch first h) (tryCatch second k) := by
  refine Simulates.handle hfirst fun e d ↦ Simulates.assume ?_
  rintro rfl
  exact hhandler e

theorem weaken {N : α → Prop} (h : Agrees P M first second) (hMN : ∀ a, M a → N a) :
    Agrees P N first second :=
  Simulates.weaken h (fun _ _ h ↦ h) (fun a _ _ _ h ↦ ⟨⟨h.1.1, hMN a h.1.2⟩, h.2⟩)
    fun _ _ _ _ h ↦ h

/-- Agreement, of which only the equality of the results is kept. -/
theorem simulates (h : Agrees P M first second) :
    Simulates P first second (fun a b s t ↦ (a = b ∧ M a) ∧ P s t) fun e d _ _ ↦ e = d :=
  Simulates.weaken h (fun _ _ h ↦ h) (fun _ _ _ _ h ↦ h) fun _ _ _ _ h ↦ h.1

theorem forEach {body : α → Program σ ε Unit} {body' : α → Program τ ε Unit} {list : List α}
    (hbody : ∀ element ∈ list, Agrees P (fun _ ↦ True) (body element) (body' element)) :
    Agrees P (fun _ ↦ True) (forEach body list) (forEach body' list) := by
  induction list with
  | nil => exact Agrees.pure trivial
  | cons element rest ih =>
    exact Agrees.bind (hbody element List.mem_cons_self) fun _ _ ↦
      ih fun other hother ↦ hbody other (List.mem_cons_of_mem _ hother)

theorem filterEach {test : α → Program σ ε Bool} {test' : α → Program τ ε Bool} {list : List α}
    (htest : ∀ element ∈ list, Agrees P (fun _ ↦ True) (test element) (test' element)) :
    Agrees P (· ⊆ list) (filterEach test list) (filterEach test' list) := by
  induction list with
  | nil => exact Agrees.pure (List.Subset.refl _)
  | cons element rest ih =>
    refine Agrees.bind (htest element List.mem_cons_self) fun kept _ ↦ ?_
    refine Agrees.bind (ih fun other hother ↦ htest other (List.mem_cons_of_mem _ hother))
      fun others hothers ↦ Agrees.pure ?_
    cases kept with
    | true => exact List.cons_subset_cons _ hothers
    | false => exact fun _ h ↦ List.mem_cons_of_mem _ (hothers h)

end Agrees

/-- A filter over a list and one over the elements that `keep` holds of. The test of another element
returns whether it is selected, and keeps the relation. -/
theorem Simulates.filterEach_restrict {P : σ → τ → Prop} {test : α → Program σ ε Bool}
    {test' : α → Program τ ε Bool} {list : List α} (keep selected : α → Bool)
    (hkept : ∀ element ∈ list, keep element = true →
      Agrees P (fun _ ↦ True) (test element) (test' element))
    (hdropped : ∀ element ∈ list, keep element = false → ∀ s t, P s t →
      ∃ next, exec (test element) s = (.ok (selected element), next) ∧ P next t) :
    Simulates P (filterEach test list) (filterEach test' (list.filter keep))
      (fun a b s t ↦ (a.filter keep = b ∧ ∀ element ∈ a, element ∈ list ∧
        (keep element = false → selected element = true)) ∧ P s t)
      fun e d s t ↦ e = d ∧ P s t := by
  induction list with
  | nil => exact Simulates.pure fun s t hP ↦ ⟨⟨rfl, by simp⟩, hP⟩
  | cons element rest ih =>
    have hrest := ih (fun other hother ↦ hkept other (List.mem_cons_of_mem _ hother))
      fun other hother ↦ hdropped other (List.mem_cons_of_mem _ hother)
    by_cases hkeep : keep element = true
    · rw [List.filter_cons_of_pos hkeep]
      refine Simulates.bind (hkept element List.mem_cons_self hkeep) fun kept kept' ↦ ?_
      refine Simulates.assume ?_
      rintro ⟨rfl, -⟩
      refine Simulates.bind hrest fun others others' ↦ Simulates.pure ?_
      rintro s t ⟨⟨rfl, hothers⟩, hP⟩
      refine ⟨⟨?_, fun other hother ↦ ?_⟩, hP⟩
      · cases kept with
        | true => exact List.filter_cons_of_pos hkeep
        | false => rfl
      · cases kept with
        | true =>
          rcases List.mem_cons.mp hother with rfl | hmem
          · exact ⟨List.mem_cons_self, fun hnot ↦ absurd (hkeep.symm.trans hnot) (by decide)⟩
          · exact ⟨List.mem_cons_of_mem _ (hothers other hmem).1, (hothers other hmem).2⟩
        | false => exact ⟨List.mem_cons_of_mem _ (hothers other hother).1, (hothers other hother).2⟩
    · rw [List.filter_cons_of_neg hkeep]
      intro s t hP
      obtain ⟨next, hexec, hnext⟩ :=
        hdropped element List.mem_cons_self (Bool.eq_false_iff.mpr hkeep) s t hP
      have hrun := hrest next t hnext
      have hfilter : exec (Program.filterEach test (element :: rest)) s =
          match exec (Program.filterEach test rest) next with
          | (.ok others, s') => (.ok (if selected element then element :: others else others), s')
          | (.error e, s') => (.error e, s') := by
        rw [Program.filterEach, exec_bind, hexec]
        dsimp only
        rw [exec_bind]
        rcases exec (Program.filterEach test rest) next with ⟨_ | _, _⟩ <;> rfl
      rw [hfilter]
      rcases hfirst : exec (Program.filterEach test rest) next with ⟨e | a, s'⟩ <;>
        rcases hsecond : exec (Program.filterEach test' (rest.filter keep)) t with ⟨d | b, t'⟩ <;>
        simp only [hfirst, hsecond] at hrun ⊢
      · exact hrun
      · obtain ⟨⟨rfl, hothers⟩, hP'⟩ := hrun
        refine ⟨⟨?_, fun other hother ↦ ?_⟩, hP'⟩
        · split_ifs
          · exact List.filter_cons_of_neg hkeep
          · rfl
        · split_ifs at hother with hselected
          · rcases List.mem_cons.mp hother with rfl | hmem
            · exact ⟨List.mem_cons_self, fun _ ↦ hselected⟩
            · exact ⟨List.mem_cons_of_mem _ (hothers other hmem).1, (hothers other hmem).2⟩
          · exact ⟨List.mem_cons_of_mem _ (hothers other hother).1, (hothers other hother).2⟩

end Program

end Userland.Library
