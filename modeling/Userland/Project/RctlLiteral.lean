import Userland.Project.Rctl

/-!
# Resource controls with texts that are looked up

The checks of `projent_validate_rctl` post nothing exactly if the texts of the values are found as
patterns (`checkValues_eq_nil_iff`), and a value is as the rules say if it passes and its texts are
listed themselves (`validTuple_iff`). `validatedLiterally_iff` says for which values the two are the
same, value by value.
-/

set_option autoImplicit false
set_option relaxedAutoImplicit false

namespace Userland.Project

open Userland.Library

/-! ### Listed texts are found -/

/-- A text without characters of patterns. -/
def IsPlain (text : Text) : Prop :=
  ∀ c ∈ text, c ≠ '+' ∧ c ≠ '.'

variable {text : Text}

theorem compile_of_isPlain (h : IsPlain text) :
    compile text = some (text.map fun c ↦ ⟨some c, .once⟩) := by
  have hfold : text.foldrM compileChar (0, []) = some (0, text.map fun c ↦ ⟨some c, .once⟩) := by
    induction text with
    | nil => rfl
    | cons c rest ih =>
      obtain ⟨hc, hrest⟩ := List.forall_mem_cons.mp h
      rw [List.foldrM_cons, ih hrest]
      show compileChar c (0, _) = _
      rw [compileChar, if_neg hc.1, if_neg hc.2]
      rfl
  rw [compile, hfold]
  rfl

theorem match_self (text : Text) :
    (text.map fun c ↦ (⟨some c, .once⟩ : Atom)).foldr matchAtom atEnd text = true := by
  induction text with
  | nil => rfl
  | cons c rest ih =>
    rw [List.map_cons, List.foldr_cons, matchAtom]
    exact Bool.and_eq_true_iff.mpr ⟨decide_eq_true rfl, ih⟩

theorem grepText_of_mem {list : List Text} (hplain : IsPlain text) (h : text ∈ list) :
    grepText text list = some true := by
  rw [grepText, if_neg fun hempty ↦ List.not_mem_nil (List.isEmpty_iff.mp hempty ▸ h),
    compile_of_isPlain hplain, Option.map_some, Option.some.injEq, List.any_eq_true]
  exact ⟨text, h, match_self text⟩

section Found

variable {machine : Machine} {rules : Rules} {text : Text}

theorem Listed.found {list : Rules → List Text}
    (hplain : ∀ text ∈ list (defaultRules machine), IsPlain text)
    (h : Listed machine rules list text) : Found machine rules list text :=
  ⟨grepText_of_mem (hplain text h.1) h.1, grepText_of_mem (hplain text h.1) h.2⟩

theorem isPlain_iff : IsPlain text ↔ '+' ∉ text ∧ '.' ∉ text :=
  ⟨fun h ↦ ⟨fun hc ↦ (h _ hc).1 rfl, fun hc ↦ (h _ hc).2 rfl⟩,
    fun h _ hc ↦ ⟨fun heq ↦ h.1 (heq ▸ hc), fun heq ↦ h.2 (heq ▸ hc)⟩⟩

theorem isPlain_privs : ∀ text ∈ (defaultRules machine).privs, IsPlain text := by
  simp only [isPlain_iff]
  show ∀ text ∈ ["basic".toList, "privileged".toList, "priv".toList], _
  decide

theorem isPlain_actions : ∀ text ∈ (defaultRules machine).actions, IsPlain text := by
  simp only [isPlain_iff]
  show ∀ text ∈ ["none".toList, "deny".toList, "sig".toList], _
  decide

/-- The signals of the default rules are letters and digits, and none has the letters in it that are
taken out. -/
theorem signals_spec (h : text ∈ (defaultRules machine).signals) :
    IsPlain text ∧ ¬ "SIG".toList <:+: text := by
  rcases List.mem_append.mp h with hname | hnumber
  · have hnames : ∀ text ∈ signalNames, ('+' ∉ text ∧ '.' ∉ text) ∧
      ¬ "SIG".toList <:+: text := by decide
    exact ⟨isPlain_iff.mpr (hnames text hname).1, (hnames text hname).2⟩
  · obtain ⟨name, -, rfl⟩ := List.mem_map.mp hnumber
    have hdigits : ∀ c ∈ signalText (machine.sigNo name), c.isDigit = true := by
      cases machine.sigNo name with
      | none => exact fun c hc ↦ absurd hc List.not_mem_nil
      | some number => exact fun c hc ↦ Nat.isDigit_of_mem_toDigits (by decide) (by decide) hc
    refine ⟨fun c hc ↦ ⟨?_, ?_⟩, fun hpart ↦ ?_⟩
    · rintro rfl
      exact absurd (hdigits _ hc) (by decide)
    · rintro rfl
      exact absurd (hdigits _ hc) (by decide)
    · exact absurd (hdigits 'S' (hpart.subset List.mem_cons_self)) (by decide)

theorem replaceFirst_of_not_infix {old new text : Text} (h : ¬ old <:+: text) :
    Substitution.replaceFirst old new text = text := by
  induction text with
  | nil =>
    rw [Substitution.replaceFirst, if_neg]
    intro hempty
    exact h (List.isEmpty_iff.mp hempty ▸ List.infix_rfl)
  | cons c rest ih =>
    rw [Substitution.replaceFirst, if_neg, ih fun hpart ↦ h (List.infix_cons hpart)]
    exact fun hbegins ↦ h (List.isPrefixOf_iff_prefix.mp hbegins).isInfix

theorem replaceFirst_of_prefix {old new rest : Text} (hne : old ≠ []) :
    Substitution.replaceFirst old new (old ++ rest) = new ++ rest := by
  obtain ⟨c, tail, rfl⟩ := List.exists_cons_of_ne_nil hne
  rw [List.cons_append, Substitution.replaceFirst, if_pos, ← List.cons_append, List.drop_left]
  exact List.isPrefixOf_iff_prefix.mpr (List.prefix_append _ _)

/-- The name of a listed signal is found with the letters before it taken out. -/
theorem signame_eq_bareName {string : Text} (h : bareName string ∈ (defaultRules machine).signals) :
    signame string = bareName string := by
  have hnot := (signals_spec h).2
  rw [bareName] at hnot ⊢
  split_ifs at hnot ⊢ with hbegins
  · obtain ⟨rest, rfl⟩ := List.isPrefixOf_iff_prefix.mp hbegins.1
    exact replaceFirst_of_prefix (List.cons_ne_nil _ _)
  · exact replaceFirst_of_not_infix hnot

theorem kindOf_eq_sig_of_isSignal (h : isSignal text = true) : kindOf (.scalar text) = .sig := by
  rw [kindOf, actionName, if_pos h]
  rfl

/-- A listed action passes, whatever the last signal was. -/
theorem LiteralAction.passes {action : Value} (h : LiteralAction machine rules action)
    (signal : Option Text) :
    PassesAction machine rules signal action := by
  obtain ⟨text, rfl, hlisted, hsignal⟩ := h
  refine ⟨text, rfl, hlisted.found isPlain_actions, fun hkind ↦ ?_⟩
  have hsig : isSignal text = true := by
    by_contra hnot
    have hmem : actionName text ∈ ["none".toList, "deny".toList, "sig".toList] := hlisted.1
    rw [kindOf] at hkind
    rw [actionName, if_neg hnot] at hmem hkind
    simp only [List.mem_cons, List.not_mem_nil, or_false] at hmem
    rcases hmem with rfl | rfl | rfl
    · cases hkind
    · cases hkind
    · exact hnot rfl
  obtain ⟨string, hstring, hbare⟩ := hsignal hsig
  refine ⟨text, string, if_pos hsig, hstring, ?_⟩
  rw [signame_eq_bareName hbare.1]
  exact hbare.found fun text htext ↦ (signals_spec htext).1

theorem passesActions_of_literal {actions : List Value}
    (h : ∀ action ∈ actions, LiteralAction machine rules action)
    (signal : Option Text) : PassesActions machine rules signal actions := by
  induction actions generalizing signal with
  | nil => trivial
  | cons action rest ih =>
    rw [List.forall_mem_cons] at h
    exact ⟨h.1.passes signal, ih h.2 _⟩

theorem exceeds_eq_false_of_le {val : Text} (h : numeric val ≤ numeric rules.max) :
    exceeds machine val rules.max = false := by
  rw [exceeds, if_pos (h.trans_lt rules.max_lt)]
  exact decide_eq_false (Nat.not_lt.mpr h)

/-- A valid value passes, and its texts are listed. -/
theorem validTuple_iff (signal : Option Text) (value : Value) : ValidTuple machine rules value ↔
    PassesTuple machine rules signal value ∧ LiteralTuple machine rules value := by
  constructor
  · rintro ⟨priv, val, actions, rfl, hne, hpriv, hval, hle, hactions, hcombined⟩
    refine ⟨⟨priv, val, actions, rfl, hne, hpriv.found isPlain_privs, hval,
      exceeds_eq_false_of_le hle,
      passesActions_of_literal hactions signal, hcombined⟩, fun priv' val' actions' heq ↦ ?_⟩
    obtain ⟨⟨⟩, ⟨⟩, rfl⟩ : Value.scalar priv = .scalar priv' ∧ Value.scalar val = .scalar val' ∧
        actions = actions' := by
      simpa using heq
    exact ⟨hpriv, hle, hactions⟩
  · rintro ⟨⟨priv, val, actions, rfl, hne, -, hval, -, -, hcombined⟩, hliteral⟩
    obtain ⟨hpriv, hle, hactions⟩ := hliteral priv val actions rfl
    exact ⟨priv, val, actions, rfl, hne, hpriv, hval, hle, hactions, hcombined⟩

end Found

/-! ### The checks post nothing exactly if the texts are found -/

section Checks

variable {machine : Machine} {rules : Rules} {name : Text}

theorem lookup_eq_nil_iff {list : Rules → List Text} {unknown notAllowed : List ProjError}
    (hunknown : unknown ≠ []) (hnotAllowed : notAllowed ≠ []) :
    lookup machine rules list unknown notAllowed text = some [] ↔
    Found machine rules list text := by
  rw [lookup, Found]
  cases grepText text (list (defaultRules machine)) with
  | none => simp
  | some first =>
    cases first with
    | false => simp [hunknown]
    | true =>
      cases grepText text (list rules) with
      | none => simp
      | some second => cases second <;> simp [hnotAllowed]

theorem rctlError_ne_nil (format : String) (args : List Text) : rctlError format args ≠ [] :=
  List.cons_ne_nil _ _

theorem checkPriv_eq_nil_iff {valuestring : Text} {priv : Option Value} :
    checkPriv machine rules name valuestring priv = some [] ↔
      ∃ text, priv = some (.scalar text) ∧ Found machine rules Rules.privs text := by
  cases priv with
  | none => exact iff_of_false (fun h ↦ rctlError_ne_nil _ _ (Option.some.inj h)) fun ⟨text, h, _⟩ ↦
    nomatch h
  | some value =>
    cases value with
    | list values => exact iff_of_false (fun h ↦ rctlError_ne_nil _ _ (Option.some.inj h)) fun ⟨text, h, _⟩ ↦ nomatch h
    | scalar text =>
      rw [checkPriv, lookup_eq_nil_iff (rctlError_ne_nil _ _) (rctlError_ne_nil _ _)]
      simp

theorem checkVal_eq_nil_iff {val : Option Value} : checkVal machine rules name val = [] ↔
    ∃ text, val = some (.scalar text) ∧ isInteger text = true ∧
    exceeds machine text rules.max = false := by
  cases val with
  | none => exact iff_of_false (rctlError_ne_nil _ _) fun ⟨text, h, _⟩ ↦ nomatch h
  | some value =>
    cases value with
    | list values => exact iff_of_false (rctlError_ne_nil _ _) fun ⟨text, h, _⟩ ↦ nomatch h
    | scalar text =>
      rw [checkVal]
      simp only [Option.some.injEq, Value.scalar.injEq, exists_eq_left']
      split_ifs with hinteger hexceeds
      · exact iff_of_false (rctlError_ne_nil _ _) fun h ↦
          Bool.false_ne_true (h.2.symm.trans hexceeds)
      · exact iff_of_true rfl ⟨hinteger, Bool.eq_false_iff.mpr hexceeds⟩
      · exact iff_of_false (rctlError_ne_nil _ _) fun h ↦ hinteger h.1

variable {signal : Option Text}

theorem checkSignal_eq_nil_iff : checkSignal machine rules name signal = some [] ↔
    ∃ own string, signal = some own ∧ sigstring machine.toLocale own = some string ∧
      Found machine rules Rules.signals (signame string) := by
  rw [checkSignal]
  cases signal with
  | none => exact iff_of_false (fun h ↦ rctlError_ne_nil _ _ (Option.some.inj h)) fun ⟨own, string,
    h, _⟩ ↦ nomatch h
  | some own =>
    rw [Option.bind_some]
    cases hstring : sigstring machine.toLocale own with
    | none =>
      refine iff_of_false (fun h ↦ rctlError_ne_nil _ _ (Option.some.inj h)) fun ⟨own', string,
        heq, h, _⟩ ↦ ?_
      rw [← Option.some.inj heq, hstring] at h
      cases h
    | some string =>
      dsimp only
      rw [lookup_eq_nil_iff (rctlError_ne_nil _ _) (rctlError_ne_nil _ _)]
      constructor
      · exact fun h ↦ ⟨own, string, rfl, hstring, h⟩
      · rintro ⟨own', string', heq, h, hfound⟩
        rw [← Option.some.inj heq, hstring] at h
        rw [Option.some.inj h]
        exact hfound

/-- How often a kind was counted. -/
def ActionState.seen (state : ActionState) : ActionKind → ℕ
  | .none => state.nonecount
  | .deny => state.denycount
  | .sig => state.sigcount

/-- An action is counted. -/
def ActionState.bump (state : ActionState) : ActionKind → ActionState
  | .none => { state with nonecount := state.nonecount + 1 }
  | .deny => { state with denycount := state.denycount + 1 }
  | .sig => { state with sigcount := state.sigcount + 1 }

/-- The state after an action without an error. -/
def ActionState.after (state : ActionState) (action : Value) : ActionState :=
  { state with signal := signalAfter state.signal action }.bump (kindOf action)

theorem ActionState.signal_after (state : ActionState) (action : Value) :
    (state.after action).signal = signalAfter state.signal action := by
  rw [ActionState.after]
  cases kindOf action <;> rfl

theorem ActionState.seen_after (state : ActionState) (action : Value) (kind : ActionKind) :
    (state.after action).seen kind = state.seen kind + if kindOf action = kind then 1 else 0 := by
  rw [ActionState.after]
  cases kindOf action <;> cases kind <;> rfl

theorem duplicateAction_eq_nil_iff {format : String} {count : ℕ} :
    duplicateAction name format count = [] ↔ count = 0 := by
  rw [duplicateAction]
  split_ifs with h
  · exact iff_of_false (rctlError_ne_nil _ _) (by omega)
  · exact iff_of_true rfl (by omega)

variable {state state' : ActionState}

theorem countAction_eq_nil_iff :
    countAction machine rules name (actionName text) state = some ([], state') ↔
      state.seen (kindOf (.scalar text)) = 0 ∧ (kindOf (.scalar text) = .sig →
        ∃ own string, state.signal = some own ∧ sigstring machine.toLocale own = some string ∧
          Found machine rules Rules.signals (signame string)) ∧
      state' = state.bump (kindOf (.scalar text)) := by
  rw [countAction, kindOf]
  split_ifs with hnone hdeny
  · rw [Option.some.injEq, Prod.mk.injEq, duplicateAction_eq_nil_iff]
    exact ⟨fun h ↦ ⟨h.1, fun hkind ↦ (nomatch hkind), h.2.symm⟩, fun h ↦ ⟨h.1, h.2.2.symm⟩⟩
  · rw [Option.some.injEq, Prod.mk.injEq, duplicateAction_eq_nil_iff]
    exact ⟨fun h ↦ ⟨h.1, fun hkind ↦ (nomatch hkind), h.2.symm⟩, fun h ↦ ⟨h.1, h.2.2.symm⟩⟩
  · rw [Option.map_eq_some_iff]
    constructor
    · rintro ⟨errors, herrors, heq⟩
      obtain ⟨hnil, rfl⟩ := Prod.mk.inj heq
      obtain ⟨hcount, rfl⟩ := List.append_eq_nil_iff.mp hnil
      exact ⟨duplicateAction_eq_nil_iff.mp hcount, fun _ ↦ checkSignal_eq_nil_iff.mp herrors, rfl⟩
    · rintro ⟨hcount, hsignal, rfl⟩
      refine ⟨[], checkSignal_eq_nil_iff.mpr (hsignal rfl), Prod.ext ?_ rfl⟩
      exact List.append_eq_nil_iff.mpr ⟨duplicateAction_eq_nil_iff.mpr hcount, rfl⟩

/-- An action posts no error if it is found and the first of its kind. -/
theorem checkAction_eq_nil_iff {action : Value} :
    checkAction machine rules name state action = some ([], state') ↔
      PassesAction machine rules state.signal action ∧ state.seen (kindOf action) = 0 ∧
      state' = state.after action := by
  cases action with
  | list values =>
    exact iff_of_false (fun h ↦ rctlError_ne_nil _ _ (Prod.mk.inj (Option.some.inj h)).1)
      fun ⟨⟨text, h, _⟩, _⟩ ↦ nomatch h
  | scalar text =>
    have hstate : (if isSignal text then { state with signal := some text } else state) =
        { state with signal := signalAfter state.signal (.scalar text) } := by
      rw [signalAfter]
      split_ifs <;> rfl
    have hseen : ∀ kind,
        ActionState.seen { state with signal := signalAfter state.signal (.scalar text) } kind =
        state.seen kind := fun kind ↦ by cases kind <;> rfl
    have hfound : Found machine rules Rules.actions (actionName text) ↔
        lookup machine rules Rules.actions (rctlError "rctl \"%s\" unknown action \"%s\"" [name,
          actionName text])
          (rctlError "rctl \"%s\" action not allowed \"%s\"" [name, actionName text])
              (actionName text) = some [] :=
      (lookup_eq_nil_iff (rctlError_ne_nil _ _) (rctlError_ne_nil _ _)).symm
    rw [checkAction, hstate]
    split
    · next hlookup =>
      refine iff_of_false (fun h ↦ nomatch h) fun ⟨⟨text', heq, hpass, _⟩, _⟩ ↦ ?_
      obtain rfl := Value.scalar.inj heq
      rw [hfound, hlookup] at hpass
      cases hpass
    · next hlookup =>
      rw [countAction_eq_nil_iff, hseen]
      constructor
      · rintro ⟨hcount, hsignal, rfl⟩
        exact ⟨⟨text, rfl, hfound.mpr hlookup, hsignal⟩, hcount, rfl⟩
      · rintro ⟨⟨text', heq, -, hsignal⟩, hcount, rfl⟩
        exact ⟨hcount, hsignal, rfl⟩
    · next errors hne hlookup =>
      refine iff_of_false (fun h ↦ ?_) fun ⟨⟨text', heq, hpass, _⟩, _⟩ ↦ ?_
      · exact hne (Prod.mk.inj (Option.some.inj h)).1
      · obtain rfl := Value.scalar.inj heq
        exact hne (Option.some.inj (hlookup.symm.trans (hfound.mp hpass)))

/-- Actions post no error if they are found and no kind was there before. -/
theorem checkActions_eq_nil_iff {actions : List Value} :
    checkActions machine rules name state actions = some ([], state') ↔
      PassesActions machine rules state.signal actions ∧
        ((actions.map kindOf).Nodup ∧ ∀ kind ∈ actions.map kindOf, state.seen kind = 0) ∧
        state' = actions.foldl ActionState.after state := by
  induction actions generalizing state with
  | nil =>
    rw [checkActions, Option.some.injEq, Prod.mk.injEq]
    exact ⟨fun h ↦ ⟨trivial, ⟨List.nodup_nil, fun kind h ↦ (nomatch h)⟩, h.2.symm⟩,
      fun h ↦ ⟨rfl, h.2.2.symm⟩⟩
  | cons action rest ih =>
    have hsplit : checkActions machine rules name state (action :: rest) = some ([], state') ↔
        ∃ middle, checkAction machine rules name state action = some ([], middle) ∧
          checkActions machine rules name middle rest = some ([], state') := by
      rw [checkActions]
      constructor
      · intro h
        obtain ⟨⟨errors, middle⟩, hfirst, h⟩ := Option.bind_eq_some_iff.mp h
        obtain ⟨⟨others, last⟩, hrest, h⟩ := Option.bind_eq_some_iff.mp h
        obtain ⟨hnil, rfl⟩ := Prod.mk.inj (Option.some.inj h)
        obtain ⟨rfl, rfl⟩ := List.append_eq_nil_iff.mp hnil
        exact ⟨middle, hfirst, hrest⟩
      · rintro ⟨middle, hfirst, hrest⟩
        rw [hfirst]
        show (checkActions machine rules name middle rest).bind _ = _
        rw [hrest]
        rfl
    have hseen : ∀ kind, (state.after action).seen kind = 0 ↔
        state.seen kind = 0 ∧ kindOf action ≠ kind := by
      intro kind
      rw [ActionState.seen_after, Nat.add_eq_zero_iff]
      split_ifs with h <;> simp [h]
    rw [hsplit, PassesActions, List.map_cons, List.nodup_cons, List.forall_mem_cons,
      List.foldl_cons]
    constructor
    · rintro ⟨middle, hfirst, hrest⟩
      obtain ⟨hpass, hcount, rfl⟩ := checkAction_eq_nil_iff.mp hfirst
      obtain ⟨hpasses, ⟨hnodup, hzero⟩, rfl⟩ := ih.mp hrest
      rw [ActionState.signal_after] at hpasses
      exact ⟨⟨hpass, hpasses⟩, ⟨⟨fun hmem ↦ ((hseen _).mp (hzero _ hmem)).2 rfl, hnodup⟩, hcount,
        fun kind hkind ↦ ((hseen kind).mp (hzero kind hkind)).1⟩, rfl⟩
    · rintro ⟨⟨hpass, hpasses⟩, ⟨⟨hnew, hnodup⟩, hcount, hzero⟩, rfl⟩
      refine ⟨state.after action, checkAction_eq_nil_iff.mpr ⟨hpass, hcount, rfl⟩,
        ih.mpr ⟨?_, ⟨hnodup, ?_⟩, rfl⟩⟩
      · rw [ActionState.signal_after]
        exact hpasses
      · exact fun kind hkind ↦ (hseen kind).mpr ⟨hzero kind hkind, fun heq ↦ hnew (heq ▸ hkind)⟩

theorem seen_foldl_after (state : ActionState) (actions : List Value) (kind : ActionKind) :
    (actions.foldl ActionState.after state).seen kind = state.seen kind +
    (actions.map kindOf).count kind := by
  induction actions generalizing state with
  | nil => rfl
  | cons action rest ih =>
    rw [List.foldl_cons, ih, ActionState.seen_after, List.map_cons, List.count_cons]
    by_cases h : kindOf action = kind
    · rw [if_pos h, if_pos (beq_iff_eq.mpr h)]
      omega
    · rw [if_neg h, if_neg (mt beq_iff_eq.mp h)]
      omega

theorem signal_foldl_after (state : ActionState) (actions : List Value) :
    (actions.foldl ActionState.after state).signal = actions.foldl signalAfter state.signal := by
  induction actions generalizing state with
  | nil => rfl
  | cons action rest ih => rw [List.foldl_cons, ih, ActionState.signal_after, List.foldl_cons]

/-- A value posts no error if it passes. -/
theorem checkValue_eq_nil_iff {signal signal' : Option Text} {value : Value} :
    checkValue machine rules name signal value = some ([], signal') ↔
      PassesTuple machine rules signal value ∧
      signal' = (actionsOf value).foldl signalAfter signal := by
  cases value with
  | scalar text =>
    exact iff_of_false (fun h ↦ rctlError_ne_nil _ _ (Prod.mk.inj (Option.some.inj h)).1)
      fun ⟨⟨priv, val, actions, h, _⟩, _⟩ ↦ nomatch h
  | list values =>
    have hseen : ∀ kind, ((values.drop 2).foldl ActionState.after ⟨signal, 0, 0, 0⟩).seen kind ≠ 0 ↔
        kind ∈ (values.drop 2).map kindOf := by
      intro kind
      rw [seen_foldl_after, show ActionState.seen ⟨signal, 0, 0, 0⟩ kind = 0 by
        cases kind <;> rfl, Nat.zero_add]
      exact Nat.pos_iff_ne_zero.symm.trans List.count_pos_iff
    have hstart : ∀ kind ∈ (values.drop 2).map kindOf,
        ActionState.seen ⟨signal, 0, 0, 0⟩ kind = 0 :=
      fun kind _ ↦ by cases kind <;> rfl
    rw [checkValue]
    dsimp only
    constructor
    · intro h
      obtain ⟨privErrors, hpriv, h⟩ := Option.bind_eq_some_iff.mp h
      obtain ⟨⟨actionErrors, state⟩, hactions, h⟩ := Option.bind_eq_some_iff.mp h
      obtain ⟨hnil, rfl⟩ := Prod.mk.inj (Option.some.inj h)
      simp only [List.append_eq_nil_iff] at hnil
      obtain ⟨⟨⟨⟨hmissing, rfl⟩, hval⟩, rfl⟩, hmixed⟩ := hnil
      obtain ⟨priv, hpriv, hfound⟩ := checkPriv_eq_nil_iff.mp hpriv
      obtain ⟨val, hval, hinteger, hexceeds⟩ := checkVal_eq_nil_iff.mp hval
      obtain ⟨hpasses, ⟨hnodup, -⟩, rfl⟩ := checkActions_eq_nil_iff.mp hactions
      refine ⟨⟨priv, val, values.drop 2, ?_, fun hnone ↦ ?_, hfound, hinteger, hexceeds, hpasses,
        hnodup, fun halone ↦ ?_⟩, signal_foldl_after _ _⟩
      · rcases values with - | ⟨first, - | ⟨second, rest⟩⟩
        · cases hpriv
        · cases hval
        · rw [Option.some.inj hpriv, Option.some.inj hval]
          rfl
      · rw [hnone] at hmissing
        exact rctlError_ne_nil _ _ hmissing
      · refine rctlError_ne_nil _ _ ((if_pos ⟨(hseen .none).mpr halone.1, ?_⟩).symm.trans hmixed)
        exact halone.2.imp (hseen .deny).mpr (hseen .sig).mpr
    · rintro ⟨⟨priv, val, actions, heq, hne, hfound, hinteger, hexceeds, hpasses, hcombined⟩, rfl⟩
      obtain rfl := Value.list.inj heq
      have hpriv : checkPriv machine rules name
          (projentValues2string [.list (.scalar priv :: .scalar val :: actions)])
          (some (.scalar priv)) = some [] := checkPriv_eq_nil_iff.mpr ⟨priv, rfl, hfound⟩
      have hval : checkVal machine rules name (some (.scalar val)) = [] :=
        checkVal_eq_nil_iff.mpr ⟨val, rfl, hinteger, hexceeds⟩
      simp only [List.drop_succ_cons, List.drop_zero] at hseen hstart
      have hactions : checkActions machine rules name ⟨signal, 0, 0, 0⟩ actions =
          some ([], actions.foldl ActionState.after ⟨signal, 0, 0, 0⟩) :=
        checkActions_eq_nil_iff.mpr ⟨hpasses, ⟨hcombined.nodup, hstart⟩, rfl⟩
      have halone := hcombined.alone
      rw [← hseen, ← hseen, ← hseen] at halone
      refine Option.bind_eq_some_iff.mpr ⟨[], hpriv,
        Option.bind_eq_some_iff.mpr ⟨_, hactions, congrArg some
        (Prod.ext ?_ (signal_foldl_after _ _))⟩⟩
      show (if actions.isEmpty then _ else []) ++ [] ++ checkVal machine rules name
        (some (.scalar val)) ++ [] ++
        (if _ then _ else []) = []
      rw [if_neg (mt List.isEmpty_iff.mp hne), hval]
      exact if_neg halone

/-- Values post no error if they pass. -/
theorem checkValues_eq_nil_iff {values : List Value} :
    checkValues machine rules name signal values = some [] ↔
    PassesTuples machine rules signal values := by
  induction values generalizing signal with
  | nil => exact iff_of_true rfl trivial
  | cons value rest ih =>
    rw [checkValues, PassesTuples]
    constructor
    · intro h
      obtain ⟨⟨errors, signal'⟩, hfirst, h⟩ := Option.bind_eq_some_iff.mp h
      obtain ⟨others, hrest, h⟩ := Option.bind_eq_some_iff.mp h
      obtain ⟨rfl, rfl⟩ := List.append_eq_nil_iff.mp (Option.some.inj h)
      obtain ⟨hpasses, rfl⟩ := checkValue_eq_nil_iff.mp hfirst
      exact ⟨hpasses, ih.mp hrest⟩
    · rintro ⟨hpasses, hrest⟩
      exact Option.bind_eq_some_iff.mpr ⟨([], _), checkValue_eq_nil_iff.mpr ⟨hpasses, rfl⟩,
        Option.bind_eq_some_iff.mpr ⟨[], ih.mpr hrest, rfl⟩⟩

theorem projentValidateRctl_eq_nil_iff {values : List Value} :
    projentValidateRctl machine rules name (some values) = some [] ↔
    PassesTuples machine rules none values :=
  checkValues_eq_nil_iff

theorem passesTuples_append {before after : List Value} :
    PassesTuples machine rules signal (before ++ after) ↔ PassesTuples machine rules signal before ∧
      PassesTuples machine rules (before.foldl (fun signal value ↦
        (actionsOf value).foldl signalAfter signal) signal) after := by
  induction before generalizing signal with
  | nil => exact (and_iff_right trivial).symm
  | cons value rest ih => rw [List.cons_append, PassesTuples, PassesTuples, ih, and_assoc,
    List.foldl_cons]

/-! ### Signals that are left over -/

theorem passesActions_congr {actions : List Value} (h : ∀ action ∈ actions, ¬ Borrows action)
    (signal signal' : Option Text) (hpasses : PassesActions machine rules signal actions) :
    PassesActions machine rules signal' actions := by
  induction actions generalizing signal signal' with
  | nil => trivial
  | cons action rest ih =>
    rw [List.forall_mem_cons] at h
    obtain ⟨⟨text, rfl, hfound, hsignal⟩, hrest⟩ := hpasses
    refine ⟨⟨text, rfl, hfound, fun hkind ↦ ?_⟩, ih h.2 _ _ hrest⟩
    have hown : isSignal text = true := by
      by_contra hnot
      exact h.1 ⟨text, rfl, Bool.eq_false_iff.mpr hnot, hkind⟩
    rw [signalAfter, if_pos hown] at hsignal ⊢
    exact hsignal hkind

/-- Without a signal before it no action of a value that passes is taken for one. -/
theorem not_borrows_of_passesActions {actions : List Value}
    (h : PassesActions machine rules none actions)
    (hnodup : (actions.map kindOf).Nodup) : ∀ action ∈ actions, ¬ Borrows action := by
  induction actions with
  | nil => exact fun action h ↦ absurd h List.not_mem_nil
  | cons action rest ih =>
    obtain ⟨⟨text, rfl, -, hsignal⟩, hrest⟩ := h
    rw [List.map_cons, List.nodup_cons] at hnodup
    rw [List.forall_mem_cons]
    by_cases hown : isSignal text = true
    · refine ⟨fun ⟨text', heq, hnot, _⟩ ↦ ?_, fun other hother ⟨text', heq, _, hkind⟩ ↦ hnodup.1 ?_⟩
      · rw [← Value.scalar.inj heq, hown] at hnot
        cases hnot
      · rw [kindOf_eq_sig_of_isSignal hown, ← hkind]
        exact List.mem_map_of_mem hother
    · rw [signalAfter, if_neg hown] at hsignal hrest
      refine ⟨fun ⟨text', heq, _, hkind⟩ ↦ ?_, ih hrest hnodup.2⟩
      obtain ⟨own, string, hnone, -⟩ := hsignal hkind
      cases hnone

theorem PassesTuple.not_borrows {value : Value} (h : PassesTuple machine rules none value) :
    ∀ action ∈ actionsOf value, ¬ Borrows action := by
  obtain ⟨priv, val, actions, rfl, -, -, -, -, hpasses, hcombined⟩ := h
  exact not_borrows_of_passesActions hpasses hcombined.nodup

theorem PassesTuple.congr {value : Value} (h : PassesTuple machine rules signal value)
    (hborrows : ∀ action ∈ actionsOf value, ¬ Borrows action) (signal' : Option Text) :
    PassesTuple machine rules signal' value := by
  obtain ⟨priv, val, actions, rfl, hne, hfound, hinteger, hexceeds, hpasses, hcombined⟩ := h
  exact ⟨priv, val, actions, rfl, hne, hfound, hinteger, hexceeds,
    passesActions_congr hborrows _ _ hpasses, hcombined⟩

end Checks

theorem passesTuples_of_valid {machine : Machine} {rules : Rules} {values : List Value}
    (h : ∀ value ∈ values, ValidTuple machine rules value) (signal : Option Text) :
    PassesTuples machine rules signal values := by
  induction values generalizing signal with
  | nil => trivial
  | cons value rest ih =>
    rw [List.forall_mem_cons] at h
    exact ⟨((validTuple_iff signal value).mp h.1).1, ih h.2 _⟩

theorem valid_of_passesTuples {machine : Machine} {rules : Rules} {values : List Value}
    {signal : Option Text}
    (h : PassesTuples machine rules signal values)
    (hliteral : ∀ value ∈ values, LiteralTuple machine rules value) :
    ∀ value ∈ values, ValidTuple machine rules value := by
  induction values generalizing signal with
  | nil => exact fun value h ↦ absurd h List.not_mem_nil
  | cons value rest ih =>
    rw [List.forall_mem_cons] at hliteral ⊢
    exact ⟨(validTuple_iff signal value).mpr ⟨h.1, hliteral.1⟩, ih h.2 hliteral.2⟩

/-- The values are checked literally, and each for itself, exactly if those that pass are literal,
and no value that passes after others takes an action for their signal. -/
theorem validatedLiterally_iff (machine : Machine) (rules : Rules) (name : Text)
    (values : List Value) :
    ValidatedLiterally machine rules name values ↔
      (PassesTuples machine rules none values → ∀ value ∈ values,
        LiteralTuple machine rules value) ∧
        ∀ before value after, values = before ++ value :: after →
        PassesTuples machine rules none (before ++ [value]) →
          ∀ action ∈ actionsOf value, ¬ Borrows action := by
  constructor
  · rintro ⟨haccepted, hindependent⟩
    refine ⟨fun hpasses value hvalue ↦ ?_, fun before value after heq hpasses ↦ ?_⟩
    · exact ((validTuple_iff none value).mp
        (haccepted.mp (projentValidateRctl_eq_nil_iff.mpr hpasses) value hvalue)).2
    · have hself :=
        ((hindependent before value after heq).mp (projentValidateRctl_eq_nil_iff.mpr hpasses)).2
      exact (projentValidateRctl_eq_nil_iff.mp hself).1.not_borrows
  · rintro ⟨hliteral, hborrows⟩
    refine ⟨?_, fun before value after heq ↦ ?_⟩
    · rw [projentValidateRctl_eq_nil_iff]
      exact ⟨fun h ↦ valid_of_passesTuples h (hliteral h), fun h ↦ passesTuples_of_valid h none⟩
    · rw [projentValidateRctl_eq_nil_iff, projentValidateRctl_eq_nil_iff,
        projentValidateRctl_eq_nil_iff]
      constructor
      · intro h
        obtain ⟨hbefore, hvalue, -⟩ := passesTuples_append.mp h
        exact ⟨hbefore, hvalue.congr (hborrows before value after heq h) none, trivial⟩
      · rintro ⟨hbefore, hvalue, -⟩
        exact passesTuples_append.mpr ⟨hbefore, hvalue.congr hvalue.not_borrows _, trivial⟩

/-- A machine with the usual numbers of signals left undefined. -/
def plainMachine : Machine where
  toLocale := posix.toLocale
  sigNo _ := none
  toDouble n := n

/-- The point in a privilege stands for any character. -/
theorem not_validatedLiterally_point : ∃ values,
    projentParseAttributeValues posix.toLocale "(b.sic,1,none)".toList = .ok values ∧
      ¬ ValidatedLiterally plainMachine (defaultRules plainMachine) "task.max-lwps".toList
      values := by
  refine ⟨[.list [.scalar "b.sic".toList, .scalar "1".toList, .scalar "none".toList]],
    rfl, fun h ↦ ?_⟩
  obtain ⟨priv, val, actions, heq, -, hpriv, -⟩ := h.accepted.mp rfl _ List.mem_cons_self
  rw [← Value.scalar.inj (List.cons.inj (Value.list.inj heq)).1] at hpriv
  exact absurd hpriv.1 (by decide)

end Userland.Project
