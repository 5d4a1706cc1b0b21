import CounterMachine.Execution.Fault

/-! # Evaluations

An evaluation changes a state and either yields a value or fails.  It is given some fuel, so it
may also be cut short.  A failure keeps the state it left behind, since the cycles that were
charged before it stay charged. -/

namespace CounterMachine

/-- How an evaluation ended. -/
inductive Evaluation (State Result : Type) where
  /-- It came to its end. -/
  | finished (value : Result) (state : State)
  /-- It met a fault. -/
  | failed (error : ExecutionError) (state : State)
  /-- It ran out of fuel. -/
  | unfinished
  deriving DecidableEq, Repr

namespace Evaluation

variable {σ α β : Type}

/-- Goes on with the value and the state of a finished evaluation. -/
def bind (e : Evaluation σ α) (next : α → σ → Evaluation σ β) : Evaluation σ β :=
  match e with
  | finished value state => next value state
  | failed error state => failed error state
  | unfinished => unfinished

/-- Changes the value of a finished evaluation. -/
def map (f : α → β) (e : Evaluation σ α) : Evaluation σ β :=
  e.bind fun value state => finished (f value) state

/-- What has finished goes on with its value and its state. -/
@[simp] theorem bind_finished (value : α) (state : σ) (next : α → σ → Evaluation σ β) :
    (finished value state).bind next = next value state := rfl

/-- A failure stays as it is. -/
@[simp] theorem bind_failed (error : ExecutionError) (state : σ)
    (next : α → σ → Evaluation σ β) : (failed error state).bind next = failed error state := rfl

/-- Nothing follows on what does not finish. -/
@[simp] theorem bind_unfinished (next : α → σ → Evaluation σ β) :
    unfinished.bind next = unfinished := rfl

end Evaluation

end CounterMachine
