import CounterMachine.Identifier.Label

/-! # Faults of a run -/

namespace CounterMachine

/-- Why a run stops before its end. -/
inductive ExecutionError where
  /-- A jump names a label that no instruction carries. -/
  | unresolvedLabel (label : Label)
  /-- A call names a function that is not in the table. -/
  | unknownFunction (name : String)
  deriving DecidableEq, Repr

/-- The report shown for a fault. -/
def ExecutionError.message : ExecutionError → String
  | unresolvedLabel label =>
    s!"Unresolved label: '{label.text}' does not label any instruction of this program"
  | unknownFunction name => s!"Unknown function: '{name}'"

end CounterMachine
