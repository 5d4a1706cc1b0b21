import CounterMachine.Proofs.Semantics.Machine

/-!
# Computations that only add to the meter

What is evaluated in an environment reads the bindings only. It never looks at the meter or at the
recorded steps: it adds to the one and leaves the other alone. So it can be detached from its
environment: it may as well be evaluated in a fresh one, with the same bindings but nothing on the
meter, if what is on the meter then is added afterwards.

A call does not even touch the bindings. Of the function that is called, whatever it calls in turn,
only the result and the cycles reach the caller.

## Key results

- `Detached.bind`: one detached computation after another is detached
- `Instruction.execute_detached`: so is an instruction, if calls are
- `evaluateCall_apart`: calls are detached and keep the bindings
-/

namespace CounterMachine

namespace Evaluation

variable {σ τ α β : Type}

/-- Changes the state that is left behind. -/
def mapState (f : σ → τ) : Evaluation σ α → Evaluation τ α
  | finished value state => finished value (f state)
  | failed error state => failed error (f state)
  | unfinished => unfinished

/-- The value stays the same. -/
@[simp] theorem mapState_finished (f : σ → τ) (value : α) (state : σ) :
    (finished value state).mapState f = finished value (f state) := rfl

/-- So does the error. -/
@[simp] theorem mapState_failed (f : σ → τ) (error : ExecutionError) (state : σ) :
    (failed error state : Evaluation σ α).mapState f = failed error (f state) := rfl

/-- Where there is no end there is no state. -/
@[simp] theorem mapState_unfinished (f : σ → τ) :
    (unfinished : Evaluation σ α).mapState f = unfinished := rfl

/-- Two changes make up one. -/
theorem mapState_mapState {υ : Type} (f : σ → τ) (g : τ → υ) (e : Evaluation σ α) :
    (e.mapState f).mapState g = e.mapState fun state => g (f state) := by
  cases e <;> rfl

/-- Changes that do the same change the same. -/
theorem mapState_congr {f g : σ → τ} (h : ∀ state, f state = g state) (e : Evaluation σ α) :
    e.mapState f = e.mapState g := by
  rw [funext h]

/-- The value and the state are changed apart from each other. -/
theorem map_mapState (f : σ → σ) (g : α → β) (e : Evaluation σ α) :
    (e.mapState f).map g = (e.map g).mapState f := by
  cases e <;> rfl

/-- Two evaluations come to an end one after the other. -/
theorem bind_eq_finished {e : Evaluation σ α} {next : α → σ → Evaluation σ β} {value : β}
    {state : σ} : e.bind next = finished value state ↔
      ∃ a t, e = finished a t ∧ next a t = finished value state := by
  constructor
  · intro h
    cases e with
    | finished a t => exact ⟨a, t, rfl, h⟩
    | failed error t => cases h
    | unfinished => cases h
  · rintro ⟨a, t, rfl, h⟩
    exact h

/-- A value is changed if and only if there is one. -/
theorem map_eq_finished {e : Evaluation σ α} {f : α → β} {value : β} {state : σ} :
    e.map f = finished value state ↔ ∃ a, e = finished a state ∧ f a = value := by
  simp only [map, bind_eq_finished, finished.injEq]
  constructor
  · rintro ⟨a, t, rfl, rfl, rfl⟩
    exact ⟨a, rfl, rfl⟩
  · rintro ⟨a, rfl, rfl⟩
    exact ⟨a, state, rfl, rfl, rfl⟩

/-- Both the value and the failure leave a state with some property behind. -/
def Leaves (e : Evaluation σ α) (P : σ → Prop) : Prop :=
  match e with
  | finished _ state => P state
  | failed _ state => P state
  | unfinished => True

/-- What holds before one evaluation after another, and is kept by both, holds after them. -/
theorem Leaves.bind {P : σ → Prop} {e : Evaluation σ α} {next : α → σ → Evaluation σ β}
    (he : e.Leaves P) (hnext : ∀ a state, P state → (next a state).Leaves P) :
    (e.bind next).Leaves P := by
  cases e with
  | finished a state => exact hnext a state he
  | failed error state => exact he
  | unfinished => trivial

/-- Changing the value makes no difference to the state that is left. -/
theorem Leaves.map {P : σ → Prop} {e : Evaluation σ α} (he : e.Leaves P) (f : α → β) :
    (e.map f).Leaves P :=
  he.bind fun _ _ h => h

end Evaluation

namespace Environment

/-- The environment with given bindings in which nothing has happened yet. -/
def fresh (b : Bindings) : Environment := ⟨b, 0, #[]⟩

/-- The environment after something that was evaluated in a fresh one: the cycles are added and no
step is recorded. -/
def absorb (env s : Environment) : Environment :=
  ⟨s.bindings, Value.add env.cycles s.cycles, env.steps⟩

/-- A fresh environment has got the given bindings. -/
@[simp] theorem bindings_fresh (b : Bindings) : (fresh b).bindings = b := rfl

/-- The bindings are those that were left. -/
@[simp] theorem bindings_absorb (env s : Environment) : (env.absorb s).bindings = s.bindings := by
  cases s
  rfl

/-- The recorded steps are the old ones. -/
@[simp] theorem steps_absorb (env s : Environment) : (env.absorb s).steps = env.steps := by
  cases env
  rfl

/-- In a fresh environment the counters have the same contents. -/
theorem get_fresh (env : Environment) : (fresh env.bindings).get = env.get :=
  get_congr (bindings_fresh _)

/-- Cycles that are added one after the other are added all at once. -/
theorem absorb_absorb (env s t : Environment) :
    env.absorb (s.absorb t) = (env.absorb s).absorb t := by
  unfold absorb
  dsimp only
  rw [Value.add_assoc]

/-- What is taken over twice is taken over all at once, whatever the end. -/
theorem mapState_absorb {α : Type} (env s : Environment) (e : Evaluation Environment α) :
    (e.mapState s.absorb).mapState env.absorb = e.mapState (env.absorb s).absorb := by
  rw [Evaluation.mapState_mapState, Evaluation.mapState_congr fun t => absorb_absorb env s t]

/-- Charging cycles is absorbing them. -/
theorem absorb_charge (env : Environment) (cycles : Value) :
    env.absorb ((fresh env.bindings).charge cycles) = env.charge cycles := by
  unfold absorb charge fresh
  dsimp only
  rw [Value.zero_add]

/-- Nothing comes of a fresh environment. -/
theorem absorb_fresh (env : Environment) : env.absorb (fresh env.bindings) = env := by
  unfold absorb fresh
  dsimp only
  rw [Value.add_zero]

end Environment

open Environment (fresh)

/-- A computation reads the bindings only, and adds to the meter only. -/
def Detached {α : Type} (f : Environment → Evaluation Environment α) : Prop :=
  ∀ env, f env = (f (fresh env.bindings)).mapState env.absorb

namespace Detached

variable {α β : Type} {f : Environment → Evaluation Environment α}

/-- An answer that needs no computation, for which cycles are charged. -/
theorem answer (value : Bindings → α) (cycles : Value) :
    Detached fun env => .finished (value env.bindings) (env.charge cycles) := by
  intro env
  dsimp only
  rw [Evaluation.mapState_finished, Environment.absorb_charge, Environment.bindings_fresh]

/-- A value that is known does not look at the environment. -/
theorem pure (value : α) : Detached (Evaluation.finished value) := by
  intro env
  rw [Evaluation.mapState_finished, Environment.absorb_fresh]

/-- Neither does an error that is known. -/
theorem fail (error : ExecutionError) :
    Detached (Evaluation.failed error : Environment → Evaluation Environment α) := by
  intro env
  rw [Evaluation.mapState_failed, Environment.absorb_fresh]

/-- One detached computation after another is detached. -/
theorem bind {g : α → Environment → Evaluation Environment β} (hf : Detached f)
    (hg : ∀ a, Detached (g a)) : Detached fun env => (f env).bind g := by
  intro env
  dsimp only
  rw [hf env]
  cases f (fresh env.bindings) with
  | finished a s =>
    -- The second one runs on the bindings that the first one leaves, either way.
    rw [Evaluation.mapState_finished, Evaluation.bind_finished, Evaluation.bind_finished,
      hg a (env.absorb s), hg a s, Environment.mapState_absorb, Environment.bindings_absorb]
  | failed error s => rfl
  | unfinished => rfl

/-- Changing the value of a detached computation leaves it detached. -/
theorem map (hf : Detached f) (value : α → β) : Detached fun env => (f env).map value :=
  hf.bind fun a => pure (value a)

/-- Cycles are charged, and then the computation goes on. -/
theorem charge (hf : Detached f) (cycles : Value) : Detached fun env => f (env.charge cycles) := by
  intro env
  dsimp only
  rw [hf ((fresh env.bindings).charge cycles), Environment.mapState_absorb,
    Environment.absorb_charge, Environment.bindings_charge, Environment.bindings_fresh,
    hf (env.charge cycles), Environment.bindings_charge]

/-- The bindings are changed, and then the computation goes on. -/
theorem rebind (hf : Detached f) (change : Bindings → Bindings) :
    Detached fun env => f { env with bindings := change env.bindings } := by
  intro env
  exact hf { env with bindings := change env.bindings }

end Detached

/-- An evaluator of calls is detached from the environment and keeps its bindings. -/
structure CallEvaluator.Apart (evaluate : CallEvaluator) : Prop where
  detached : ∀ call, Detached (evaluate call)
  keeps : ∀ call env, (evaluate call env).Leaves fun env' => env'.bindings = env.bindings

section

variable {evaluate : CallEvaluator} (h : evaluate.Apart)
include h

/-- The values of arguments are found apart from the environment. -/
theorem Argument.values_detached (args : List Argument) :
    Detached (Argument.values evaluate args) := by
  -- Argument by argument: the value of a counter is read, and a call is one detached computation
  -- more.
  induction args with
  | nil => exact Detached.pure []
  | cons arg rest ih =>
    cases arg with
    | var v =>
      intro env
      -- The counter is read before the other arguments are evaluated, in both environments.
      rw [Argument.values, Argument.values, ih env, Environment.get_fresh,
        Evaluation.map_mapState]
    | nested function args =>
      exact (h.detached ⟨function, args⟩).bind fun value =>
        (ih.map (value :: ·)).charge Instruction.quoteCycles

/-- Arguments leave the bindings alone, if calls do. -/
theorem Argument.values_keeps (args : List Argument) (env : Environment) :
    (Argument.values evaluate args env).Leaves fun env' => env'.bindings = env.bindings := by
  -- The calls change the environment between the arguments, so its bindings get a name.
  suffices keeps : ∀ b env, env.bindings = b →
      (Argument.values evaluate args env).Leaves fun env' => env'.bindings = b from
    keeps _ env rfl
  intro b
  induction args with
  | nil => exact fun env hb => hb
  | cons arg rest ih =>
    intro env hb
    cases arg with
    | var v => exact (ih env hb).map _
    | nested function args =>
      have hcall := h.keeps ⟨function, args⟩ env
      rw [hb] at hcall
      exact hcall.bind fun value env' hb' =>
        (ih _ ((env'.bindings_charge _).trans hb')).map _

/-- An instruction is executed apart from the environment. -/
theorem Instruction.execute_detached (i : Instruction) : Detached (i.execute evaluate) := by
  -- Once its call is evaluated, every instruction changes the bindings, charges its cycles and
  -- says where control goes.
  have done (flow : Bindings → Flow) (change : Bindings → Bindings) :
      Detached fun env => .finished (flow (change env.bindings))
        (Environment.charge { env with bindings := change env.bindings } i.cycles) :=
    (Detached.answer flow i.cycles).rebind change
  cases i with
  | neutral v => exact done (fun _ => .fallThrough) id
  | increase v => exact done (fun _ => .fallThrough) fun b => b.bind v (Value.succ (b.read v))
  | decrease v => exact done (fun _ => .fallThrough) fun b => b.bind v (Value.pred (b.read v))
  | jumpNotZero v target => exact done (fun b => .jumpIf (b.read v != 0) target) id
  | zero v => exact done (fun _ => .fallThrough) fun b => b.bind v 0
  | assign dst src => exact done (fun _ => .fallThrough) fun b => b.bind dst (b.read src)
  | assignConstant v value => exact done (fun _ => .fallThrough) fun b => b.bind v value
  | goto target => exact done (fun _ => .jump target) id
  | jumpZero v target => exact done (fun b => .jumpIf (b.read v == 0) target) id
  | jumpEqual v rhs target =>
    cases rhs with
    | var w => exact done (fun b => .jumpIf (b.read v == b.read w) target) id
    | const value => exact done (fun b => .jumpIf (b.read v == value) target) id
  | quote dst call =>
    exact (h.detached call).bind fun value =>
      done (fun _ => .fallThrough) fun b => b.bind dst value
  | jumpEqualCall v call target =>
    exact (h.detached call).bind fun value => done (fun b => .jumpIf (b.read v == value) target) id

end

/-- Calls are evaluated apart from the environment of the caller. -/
theorem evaluateCall_apart (table : FunctionTable) (fuel : Nat) :
    (evaluateCall table fuel).Apart := by
  -- By induction on the fuel: the function makes its own calls with less of it.
  induction fuel with
  | zero => exact ⟨fun _ _ => rfl, fun _ _ => trivial⟩
  | succ fuel ih =>
    refine ⟨fun call => ?_, fun call env => ?_⟩
    · show Detached fun env => evaluateCall table (fuel + 1) call env
      simp only [evaluateCall]
      cases table.find? call.function with
      | none => exact Detached.fail _
      | some callee =>
        refine (Argument.values_detached ih call.args).bind fun values => ?_
        -- How the function runs has nothing to do with the environment of the caller.
        cases Machine.run (evaluateCall table fuel) callee.code fuel
          (.start callee values false) with
        | finished _ m => exact Detached.answer (fun _ => m.env.get .result) m.env.cycles
        | failed error m => exact Detached.fail error
        | unfinished => exact fun _ => rfl
    · rw [evaluateCall]
      cases table.find? call.function with
      | none => exact rfl
      | some callee =>
        refine (Argument.values_keeps ih call.args env).bind fun values env' hb => ?_
        cases Machine.run (evaluateCall table fuel) callee.code fuel
          (.start callee values false) with
        | finished _ m => exact (env'.bindings_charge _).trans hb
        | failed error m => exact hb
        | unfinished => exact trivial

end CounterMachine
