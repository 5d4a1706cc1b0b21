import CounterMachine.Execution.Bindings
import CounterMachine.Instruction.Basic

/-! # Environments

A run owns an environment: the contents of its counters, the meter of its cycles and the steps it
has recorded.  A function that is called gets an environment of its own. -/

namespace CounterMachine

/-- A recorded step: the position of the instruction and the bindings after it. -/
structure TraceStep where
  index : Nat
  snapshot : Bindings
  deriving DecidableEq

/-- The state that instructions work on. -/
structure Environment where
  bindings : Bindings
  cycles : Value
  steps : Array TraceStep

namespace Environment

/-- The environment at the start of a run. -/
def initial (declared inputs : List Variable) (values : List Value) : Environment :=
  { bindings := .initial declared inputs values, cycles := 0, steps := #[] }

/-- The content of a counter. -/
def get (env : Environment) (v : Variable) : Value := env.bindings.read v

/-- Writes a counter. -/
def set (env : Environment) (v : Variable) (value : Value) : Environment :=
  { env with bindings := env.bindings.bind v value }

/-- The value of an operand. -/
def operand (env : Environment) : Operand → Value
  | .var v => env.get v
  | .const value => value

/-- Adds cycles to the meter. -/
def charge (env : Environment) (cycles : Value) : Environment :=
  { env with cycles := Value.add env.cycles cycles }

/-- Records a step at a position. -/
def record (env : Environment) (index : Nat) : Environment :=
  { env with steps := env.steps.push ⟨index, env.bindings⟩ }

/-- The environment without any binding, cycle or step. -/
def reset (_ : Environment) : Environment := { bindings := ∅, cycles := 0, steps := #[] }

end Environment

end CounterMachine
