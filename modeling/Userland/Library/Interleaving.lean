import Mathlib.Logic.Function.Basic
import Mathlib.Logic.Relation

/-!
# Processes that share a state

A process is a tree of atomic operations on a shared state. `Fulfils` says of a process what its
steps do to the state and what it returns, while other processes make changes in between that a
relation `rely` allows; the rules for the parts of a process are `Ensures.bind`, `Ensures.handle`
and `Ensures.perform`. Where the steps of every process are changes on which all rely, all of them
are so in every interleaving (`System.Run.fulfils`), and a single process may rely on more in a part
of a run (`System.Window.fulfils`).
-/

set_option autoImplicit false
set_option relaxedAutoImplicit false

namespace Userland.Library

variable {Op σ ε α β : Type} {Response : Op → Type}

/-- A program whose operations are atomic steps on a shared state. -/
inductive Process (Op : Type) (Response : Op → Type) (ε α : Type)
  | done (value : α)
  | fail (error : ε)
  | act (op : Op) (next : Response op → Process Op Response ε α)

namespace Process

def bind : Process Op Response ε α → (α → Process Op Response ε β) → Process Op Response ε β
  | .done value, rest => rest value
  | .fail error, _ => .fail error
  | .act op next, rest => .act op fun response ↦ (next response).bind rest

/-- The handler takes the place of a failure. -/
def handle : Process Op Response ε α → (ε → Process Op Response ε α) → Process Op Response ε α
  | .done value, _ => .done value
  | .fail error, handler => handler error
  | .act op next, handler => .act op fun response ↦ (next response).handle handler

instance : Monad (Process Op Response ε) where
  pure := .done
  bind := bind

instance : MonadExcept ε (Process Op Response ε) where
  throw := .fail
  tryCatch := handle

/-- One operation. -/
def perform (op : Op) : Process Op Response ε (Response op) :=
  .act op .done

/-- One operation that may fail. -/
def attempt (result : Except ε α) : Process Op Response ε α :=
  match result with
  | .ok value => .done value
  | .error error => .fail error

/-- The process has come to its end. -/
def Finished : Process Op Response ε α → Prop
  | .act _ _ => False
  | _ => True

end Process

section Fulfils

variable (run : (op : Op) → σ → Response op × σ) (rely guarantee : σ → σ → Prop)

/-- While the others make changes in `rely`, the steps of the process are in `guarantee`, and at its
end `Q` holds of its value, or `E` of its error. -/
def Fulfils (Q : α → σ → Prop) (E : ε → σ → Prop) : Process Op Response ε α → σ → Prop
  | .done value, state => ∀ state', rely state state' → Q value state'
  | .fail error, state => ∀ state', rely state state' → E error state'
  | .act op next, state => ∀ state', rely state state' → guarantee state' (run op state').2 ∧
      Fulfils Q E (next (run op state').1) (run op state').2

/-- A process fulfils its part from every state in `P`. -/
def Ensures (P : σ → Prop) (process : Process Op Response ε α) (Q : α → σ → Prop)
    (E : ε → σ → Prop) : Prop :=
  ∀ state, P state → Fulfils run rely guarantee Q E process state

/-- Changes that may be none and that may be made one after the other. -/
structure Changes : Prop where
  refl : ∀ state, rely state state
  trans : ∀ {first middle last}, rely first middle → rely middle last → rely first last

/-- Changes of the others keep a fact. -/
def Stable (P : σ → Prop) : Prop :=
  ∀ state state', rely state state' → P state → P state'

end Fulfils

section Rules

variable {run : (op : Op) → σ → Response op × σ} {rely guarantee : σ → σ → Prop}
  {P : σ → Prop} {Q : α → σ → Prop} {E : ε → σ → Prop}

variable {process : Process Op Response ε α}

/-- What a process fulfils, it also fulfils after changes of the others. -/
theorem Fulfils.interfere (hrely : Changes rely) {state state' : σ}
    (h : Fulfils run rely guarantee Q E process state) (hchange : rely state state') :
    Fulfils run rely guarantee Q E process state' := by
  cases process with
  | done value => exact fun last hlast ↦ h last (hrely.trans hchange hlast)
  | fail error => exact fun last hlast ↦ h last (hrely.trans hchange hlast)
  | act op next => exact fun last hlast ↦ h last (hrely.trans hchange hlast)

theorem Fulfils.weaken {Q' : α → σ → Prop} {E' : ε → σ → Prop} {state : σ}
    (h : Fulfils run rely guarantee Q E process state)
    (hQ : ∀ value state, Q value state → Q' value state)
    (hE : ∀ error state, E error state → E' error state) :
    Fulfils run rely guarantee Q' E' process state := by
  induction process generalizing state with
  | done value => exact fun last hlast ↦ hQ _ _ (h last hlast)
  | fail error => exact fun last hlast ↦ hE _ _ (h last hlast)
  | act op next ih => exact fun last hlast ↦ ⟨(h last hlast).1, ih _ (h last hlast).2⟩

namespace Ensures

theorem done {value : α} (hstable : Stable rely P) (h : ∀ state, P state → Q value state) :
    Ensures run rely guarantee P (.done value : Process Op Response ε α) Q E :=
  fun state hstate last hlast ↦ h last (hstable state last hlast hstate)

theorem fail {error : ε} (hstable : Stable rely P) (h : ∀ state, P state → E error state) :
    Ensures run rely guarantee P (.fail error : Process Op Response ε α) Q E :=
  fun state hstate last hlast ↦ h last (hstable state last hlast hstate)

theorem bind {M : β → σ → Prop} {process : Process Op Response ε β}
    {rest : β → Process Op Response ε α} (hrely : Changes rely)
    (hprocess : Ensures run rely guarantee P process M E)
    (hrest : ∀ value, Ensures run rely guarantee (M value) (rest value) Q E) :
    Ensures run rely guarantee P (process >>= rest) Q E := by
  intro state hstate
  have h := hprocess state hstate
  clear hprocess hstate
  show Fulfils run rely guarantee Q E (process.bind rest) state
  induction process generalizing state with
  | done value => exact hrest value state (h state (hrely.refl state))
  | fail error => exact h
  | act op next ih => exact fun last hlast ↦ ⟨(h last hlast).1, ih _ _ (h last hlast).2⟩

theorem handle {M : ε → σ → Prop} {handler : ε → Process Op Response ε α} (hrely : Changes rely)
    (hprocess : Ensures run rely guarantee P process Q M)
    (hhandler : ∀ error, Ensures run rely guarantee (M error) (handler error) Q E) :
    Ensures run rely guarantee P (tryCatch process handler) Q E := by
  intro state hstate
  have h := hprocess state hstate
  clear hprocess hstate
  show Fulfils run rely guarantee Q E (process.handle handler) state
  induction process generalizing state with
  | done value => exact h
  | fail error => exact hhandler error state (h state (hrely.refl state))
  | act op next ih => exact fun last hlast ↦ ⟨(h last hlast).1, ih _ _ (h last hlast).2⟩

theorem weaken {P' : σ → Prop} {Q' : α → σ → Prop} {E' : ε → σ → Prop}
    (h : Ensures run rely guarantee P process Q E) (hP : ∀ state, P' state → P state)
    (hQ : ∀ value state, Q value state → Q' value state)
    (hE : ∀ error state, E error state → E' error state) :
    Ensures run rely guarantee P' process Q' E' :=
  fun state hstate ↦ (h state (hP state hstate)).weaken hQ hE

/-- One operation, whose result keeps its meaning while the others go on. -/
theorem perform {op : Op} {Q : Response op → σ → Prop} (hP : Stable rely P)
    (hQ : ∀ response, Stable rely (Q response))
    (h : ∀ state, P state → guarantee state (run op state).2 ∧
      Q (run op state).1 (run op state).2) :
    Ensures run rely guarantee P (Process.perform op :
      Process Op Response ε (Response op)) Q E := by
  intro state hstate last hlast
  obtain ⟨hguarantee, hresult⟩ := h last (hP state last hlast hstate)
  exact ⟨hguarantee, fun later hlater ↦ hQ _ _ _ hlater hresult⟩

theorem attempt {result : Except ε α} (hstable : Stable rely P)
    (hok : ∀ value state, result = .ok value → P state → Q value state)
    (herror : ∀ error state, result = .error error → P state → E error state) :
    Ensures run rely guarantee P (Process.attempt result : Process Op Response ε α) Q E := by
  cases result with
  | ok value => exact done hstable fun state ↦ hok value state rfl
  | error error => exact fail hstable fun state ↦ herror error state rfl

end Ensures

end Rules

/-! ### Interleavings -/

/-- A shared state, and the processes that act on it or have come to their end. -/
structure System (ι Op : Type) (Response : Op → Type) (σ ε α : Type) where
  state : σ
  processes : ι → Option (Process Op Response ε α)

namespace System

variable {ι : Type} [DecidableEq ι] (run : (op : Op) → σ → Response op × σ)

omit [DecidableEq ι] in
/-- The process may make a call. -/
def Idle (system : System ι Op Response σ ε α) (i : ι) : Prop :=
  ∀ process, system.processes i = some process → process.Finished

/-- The process makes a call. -/
def call (system : System ι Op Response σ ε α) (i : ι) (process : Process Op Response ε α) :
    System ι Op Response σ ε α :=
  { system with processes := Function.update system.processes i (some process) }

/-- The process makes the step of an operation. -/
def step (system : System ι Op Response σ ε α) (i : ι) (op : Op)
    (next : Response op → Process Op Response ε α) :
    System ι Op Response σ ε α :=
  { state := (run op system.state).2
    processes := Function.update system.processes i (some (next (run op system.state).1)) }

/-- An operation of process `i`. -/
inductive Acts (i : ι) : System ι Op Response σ ε α → System ι Op Response σ ε α → Prop
  | intro {system : System ι Op Response σ ε α} {op : Op} {next : Response op →
    Process Op Response ε α}
      (h : system.processes i = some (.act op next)) : Acts i system (system.step run i op next)

section Processes

variable {run} {system : System ι Op Response σ ε α} {i j : ι}

theorem processes_call_self {process : Process Op Response ε α} :
    (system.call i process).processes i = some process :=
  Function.update_self ..

theorem processes_call_of_ne (h : j ≠ i) {process : Process Op Response ε α} :
    (system.call i process).processes j = system.processes j :=
  Function.update_of_ne h ..

theorem processes_step_self {op : Op} {next : Response op → Process Op Response ε α} :
    (system.step run i op next).processes i = some (next (run op system.state).1) :=
  Function.update_self ..

theorem processes_step_of_ne (h : j ≠ i) {op : Op} {next : Response op → Process Op Response ε α} :
    (system.step run i op next).processes j = system.processes j :=
  Function.update_of_ne h ..

end Processes

variable (admissible : σ → Process Op Response ε α → Prop)

/-- A call or an operation of process `i`. -/
inductive Step (i : ι) : System ι Op Response σ ε α → System ι Op Response σ ε α → Prop
  | call {system : System ι Op Response σ ε α} {process : Process Op Response ε α}
  (hidle : system.Idle i)
      (hadmissible : admissible system.state process) : Step i system (system.call i process)
  | act {system system' : System ι Op Response σ ε α} (h : Acts run i system system') :
    Step i system system'

/-- Any interleaving of calls and operations. -/
def Run : System ι Op Response σ ε α → System ι Op Response σ ε α → Prop :=
  Relation.ReflTransGen fun system system' ↦ ∃ i, Step run admissible i system system'

/-- A part of a run in which process `i` goes on with its call, and the others make changes in
`quiet`. -/
def Window (quiet : σ → σ → Prop) (i : ι) :
    System ι Op Response σ ε α → System ι Op Response σ ε α → Prop :=
  Relation.ReflTransGen fun system system' ↦ Acts run i system system' ∨
    ∃ j, j ≠ i ∧ Step run admissible j system system' ∧ quiet system.state system'.state

/-- The processes of a list make a step each, as far as they have one. -/
def schedule : List ι → System ι Op Response σ ε α → System ι Op Response σ ε α
  | [], system => system
  | i :: rest, system =>
    match system.processes i with
    | some (.act op next) => schedule rest (system.step run i op next)
    | _ => schedule rest system

variable {run admissible}

theorem acts_schedule (list : List ι) (system : System ι Op Response σ ε α) :
    Relation.ReflTransGen (fun system system' ↦ ∃ i ∈ list, Acts run i system system') system
      (schedule run list system) := by
  induction list generalizing system with
  | nil => exact .refl
  | cons i rest ih =>
    have hrest : ∀ system : System ι Op Response σ ε α, Relation.ReflTransGen
        (fun system system' : System ι Op Response σ ε α ↦ ∃ j ∈ i :: rest,
          Acts run j system system')
        system (schedule run rest system) := by
      intro system
      refine Relation.ReflTransGen.mono (fun _ _ h ↦ ?_) _ _ (ih system)
      obtain ⟨j, hj, hacts⟩ := h
      exact ⟨j, List.mem_cons_of_mem _ hj, hacts⟩
    unfold schedule
    match hprocess : system.processes i with
    | some (.act op next) => exact (hrest _).head ⟨i, List.mem_cons_self, .intro hprocess⟩
    | some (.done value) => exact hrest system
    | some (.fail error) => exact hrest system
    | none => exact hrest system

section Rely

variable {rely : σ → σ → Prop} {I : σ → Prop}

/-- Every process fulfils its part, and the invariant holds. -/
structure Sound (run : (op : Op) → σ → Response op × σ) (rely : σ → σ → Prop) (I : σ → Prop)
    (system : System ι Op Response σ ε α) : Prop where
  invariant : I system.state
  fulfils : ∀ i process, system.processes i = some process →
    Fulfils run rely rely (fun _ _ ↦ True) (fun _ _ ↦ True) process system.state

variable {system system' : System ι Op Response σ ε α}

theorem Acts.sound (hrely : Changes rely) (hI : Stable rely I)
    {i : ι} (h : system.Sound run rely I)
    (hacts : Acts run i system system') :
    rely system.state system'.state ∧ system'.Sound run rely I := by
  cases hacts with
  | @intro op next hprocess =>
    obtain ⟨hchange, hnext⟩ := h.fulfils i _ hprocess system.state (hrely.refl _)
    refine ⟨hchange, hI _ _ hchange h.invariant, fun j process hj ↦ ?_⟩
    by_cases heq : j = i
    · subst heq
      rw [processes_step_self, Option.some.injEq] at hj
      exact hj ▸ hnext
    · rw [processes_step_of_ne heq] at hj
      exact (h.fulfils j process hj).interfere hrely hchange

theorem Step.sound (hrely : Changes rely) (hI : Stable rely I)
    (hadmissible : ∀ state process, I state → admissible state process →
      Fulfils run rely rely (fun _ _ ↦ True) (fun _ _ ↦ True) process state)
    {i : ι} (h : system.Sound run rely I)
    (hstep : Step run admissible i system system') :
    rely system.state system'.state ∧ system'.Sound run rely I := by
  cases hstep with
  | @call process hidle hcall =>
    refine ⟨hrely.refl _, h.invariant, fun j other hj ↦ ?_⟩
    by_cases heq : j = i
    · subst heq
      rw [processes_call_self, Option.some.injEq] at hj
      exact hj ▸ hadmissible _ _ h.invariant hcall
    · rw [processes_call_of_ne heq] at hj
      exact h.fulfils j other hj
  | act hacts => exact hacts.sound hrely hI h

/-- In every interleaving of processes that rely on each other, all of them fulfil their part. -/
theorem Run.sound (hrely : Changes rely) (hI : Stable rely I)
    (hadmissible : ∀ state process, I state → admissible state process →
      Fulfils run rely rely (fun _ _ ↦ True) (fun _ _ ↦ True) process state)
    (h : system.Sound run rely I)
    (hrun : Run run admissible system system') :
    rely system.state system'.state ∧ system'.Sound run rely I := by
  induction hrun with
  | refl => exact ⟨hrely.refl _, h⟩
  | tail _ hstep ih =>
    obtain ⟨i, hstep⟩ := hstep
    obtain ⟨hchange, hsound⟩ := hstep.sound hrely hI hadmissible ih.2
    exact ⟨hrely.trans ih.1 hchange, hsound⟩

/-- In a part of a run in which the others make no other changes, a process may rely on more. -/
theorem Window.fulfils (hrely : Changes rely) (hI : Stable rely I)
    (hadmissible : ∀ state process, I state → admissible state process →
      Fulfils run rely rely (fun _ _ ↦ True) (fun _ _ ↦ True) process state)
    {quiet strong guarantee : σ → σ → Prop} (hstrong : Changes strong)
    (hquiet : ∀ state state', rely state state' → quiet state state' → strong state state')
    {Q : α → σ → Prop} {E : ε → σ → Prop} {i : ι}
    (h : system.Sound run rely I) {process : Process Op Response ε α}
    (hprocess : system.processes i = some process)
    (hfulfils : Fulfils run strong guarantee Q E process system.state)
    (hwindow : Window run admissible quiet i system system') :
    system'.Sound run rely I ∧ ∃ process', system'.processes i = some process' ∧
      Fulfils run strong guarantee Q E process' system'.state := by
  induction hwindow with
  | refl => exact ⟨h, process, hprocess, hfulfils⟩
  | @tail middle last _ hstep ih =>
    obtain ⟨hsound, process', hprocess', hfulfils'⟩ := ih
    rcases hstep with hacts | ⟨j, hne, hstep, hquietStep⟩
    · refine ⟨(hacts.sound hrely hI hsound).2, ?_⟩
      cases hacts with
      | @intro op next hact =>
        cases hprocess'.symm.trans hact
        refine ⟨_, processes_step_self, ?_⟩
        exact (hfulfils' middle.state (hstrong.refl _)).2
    · obtain ⟨hchange, hsound'⟩ := hstep.sound hrely hI hadmissible hsound
      have hinterfere := hfulfils'.interfere hstrong (hquiet _ _ hchange hquietStep)
      refine ⟨hsound', process', ?_, hinterfere⟩
      cases hstep with
      | call hidle hcall => rwa [processes_call_of_ne (Ne.symm hne)]
      | act hacts =>
        cases hacts with
        | intro hact => rwa [processes_step_of_ne (Ne.symm hne)]

end Rely

end System

end Userland.Library
