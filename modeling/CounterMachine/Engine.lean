import CounterMachine.Execution.Run
import CounterMachine.Expansion.Collapse
import CounterMachine.Expansion.Expand

/-! # Expanding and running

A program can be expanded and then run, and either of the two can fail. -/

namespace CounterMachine

/-- Why expanding and running a program failed. -/
inductive EngineError where
  | execution (error : ExecutionError)
  | expansion (error : ExpansionError)
  deriving DecidableEq, Repr

/-- The report shown for a fault. -/
def EngineError.message : EngineError → String
  | execution error => "Execution failed: " ++ error.message
  | expansion error => "Expansion failed: " ++ error.message

/-- Expands a program by a number of levels and runs what comes out. -/
def Program.expandAndRun (fuel : Nat) (p : Program) (levels : Nat) (values : List Value) :
    Option (Except EngineError RunOutcome) :=
  match p.expand levels with
  | .error error => some (.error (.expansion error))
  | .ok expanded =>
    (expanded.run fuel values).map fun
      | .ok outcome => .ok outcome
      | .error error => .error (.execution error)

end CounterMachine
