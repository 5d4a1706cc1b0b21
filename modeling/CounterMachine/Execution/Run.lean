import CounterMachine.Execution.Machine
import CounterMachine.Program.FunctionTable

/-! # Runs

A run takes a program from its inputs to its result.  A call runs the function to its end in an
environment of its own, without recording; the caller gets the result and is charged the cycles.

* `evaluateCall`   the value of a call, with the functions of a table
* `Program.runIn`  runs a program with the functions of a table
* `Program.run`    runs a program with the functions that it may call

Functions may call themselves and programs need not end, so evaluations take fuel: it bounds how
deep calls nest and how many steps each run makes. -/

namespace CounterMachine

/-- Fuel that no run in practice uses up. -/
def ampleFuel : Nat := 1 <<< 60

/-- The value of a call.  A function that is not in the table is found missing before the
arguments are evaluated, and the cycles of a function count only where it comes to its end. -/
def evaluateCall (table : FunctionTable) : (fuel : Nat) → CallEvaluator
  | 0, _, _ => .unfinished
  | fuel + 1, call, env =>
    match table.find? call.function with
    | none => .failed (.unknownFunction call.function) env
    | some callee =>
      (Argument.values (evaluateCall table fuel) call.args env).bind fun values env =>
        -- Of the machine only its result and its meter reach the caller.
        match Machine.run (evaluateCall table fuel) callee.code fuel
          (.start callee values false) with
        | .finished _ m => .finished (m.env.get .result) (env.charge m.env.cycles)
        | .failed error _ => .failed error env
        | .unfinished => .unfinished

/-- The recorded steps of a run. -/
structure Trace where
  steps : List TraceStep
  deriving DecidableEq

namespace Trace

/-- The number of steps. -/
def size (t : Trace) : Nat := t.steps.length

/-- Whether there is no step. -/
def isEmpty (t : Trace) : Bool := t.steps.isEmpty

/-- The step at a place. -/
def step? (t : Trace) (index : Nat) : Option TraceStep := t.steps[index]?

/-- The last step. -/
def last? (t : Trace) : Option TraceStep := t.steps.getLast?

/-- The bindings after the last step. -/
def finalSnapshot? (t : Trace) : Option Bindings := t.last?.map (·.snapshot)

end Trace

/-- What a run leaves behind. -/
structure RunOutcome where
  trace : Trace
  result : Value
  cycles : Value
  bindings : Bindings
  deriving DecidableEq

/-- What a machine leaves behind. -/
def Machine.outcome (m : Machine) : RunOutcome :=
  { trace := ⟨m.env.steps.toList⟩, result := m.env.get .result, cycles := m.env.cycles,
    bindings := m.env.bindings }

namespace Program

/-- Runs a program with the functions of a table.  Nothing is answered where the fuel does not
suffice. -/
def runIn (table : FunctionTable) (fuel : Nat) (p : Program) (values : List Value) :
    Option (Except ExecutionError RunOutcome) :=
  match Machine.run (evaluateCall table fuel) p.code fuel (.start p values true) with
  | .finished _ m => some (.ok m.outcome)
  | .failed error _ => some (.error error)
  | .unfinished => none

/-- Runs a program with the functions that it may call. -/
def run (fuel : Nat) (p : Program) (values : List Value) :
    Option (Except ExecutionError RunOutcome) :=
  p.runIn p.callable fuel values

end Program

end CounterMachine
