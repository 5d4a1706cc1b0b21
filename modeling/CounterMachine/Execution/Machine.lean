import CounterMachine.Execution.Effect
import CounterMachine.Program.Basic
import Std.Data.TreeMap

/-! # The machine

The machine walks over the visible operations of a program.

* `Code`           the operations, and the positions of their labels
* `Machine`        an environment, a position and whether the machine runs
* `Machine.step`   executes the operation at the position, records it and moves on
* `Machine.run`    steps until the machine halts

The machine halts on a jump to `EXIT` and when it moves past the last operation.  A jump to a
label that no operation carries is a fault; it is found after the step has been recorded.  Where
a label is carried twice, the later operation has it. -/

namespace CounterMachine

/-- The visible operations of a program, ready to run. -/
structure Code where
  operations : Array Operation
  positions : Std.TreeMap Label Nat

/-- The positions of the labels of a list of operations, of which the first is at `start`. -/
def labelPositions (start : Nat) (ops : List Operation) : Std.TreeMap Label Nat :=
  (ops.foldl (fun (found : Nat × Std.TreeMap Label Nat) op =>
    (found.1 + 1, if op.label.isEmpty then found.2 else found.2.insert op.label found.1))
    (start, ∅)).2

/-- The code of a program. -/
def Program.code (p : Program) : Code :=
  { operations := p.operations.toArray, positions := labelPositions 0 p.operations }

/-- Whether a machine runs. -/
inductive Status where
  | running
  | halted
  deriving DecidableEq, Repr

/-- A machine between two steps. -/
structure Machine where
  env : Environment
  /-- The position of the next operation. -/
  position : Nat
  status : Status
  /-- Whether steps are recorded. -/
  recording : Bool

namespace Machine

/-- The machine before the first step of a program.  A program without operations has none. -/
def start (p : Program) (values : List Value) (recording : Bool) : Machine :=
  { env := .initial p.vars p.inputs values
    position := 0
    status := if p.isEmpty then .halted else .running
    recording }

/-- Moves the machine to a position, which halts it if no operation is there. -/
def moveTo (code : Code) (m : Machine) (position : Nat) : Evaluation Machine Status :=
  let status := if code.operations.size ≤ position then .halted else .running
  .finished status { m with position, status }

/-- Moves the machine on after an operation has been executed. -/
def follow (code : Code) (m : Machine) : Flow → Evaluation Machine Status
  | .fallThrough => m.moveTo code (m.position + 1)
  | .goto label =>
    match code.positions[label]? with
    | some position => m.moveTo code position
    | none => .failed (.unresolvedLabel label) m
  | .exit => .finished .halted { m with status := .halted }

/-- The machine with the step at its position recorded, if it records steps. -/
def withEnvironment (m : Machine) (env : Environment) : Machine :=
  { m with env := if m.recording then env.record m.position else env }

/-- One step.  A machine that has halted stays as it is. -/
def step (evaluate : CallEvaluator) (code : Code) (m : Machine) : Evaluation Machine Status :=
  match m.status with
  | .halted => .finished .halted m
  | .running =>
    match code.operations[m.position]? with
    | none => .finished .halted { m with status := .halted }
    | some op =>
      match op.instruction.execute evaluate m.env with
      -- The step is recorded before its jump is looked up.
      | .finished flow env => (m.withEnvironment env).follow code flow
      | .failed error env => .failed error { m with env }
      | .unfinished => .unfinished

/-- Steps until the machine halts, at most `fuel` times. -/
def run (evaluate : CallEvaluator) (code : Code) : (fuel : Nat) → Machine →
    Evaluation Machine Unit
  | 0, _ => .unfinished
  | fuel + 1, m =>
    match m.step evaluate code with
    | .finished .running m => run evaluate code fuel m
    | .finished .halted m => .finished () m
    | .failed error m => .failed error m
    | .unfinished => .unfinished

end Machine

end CounterMachine
