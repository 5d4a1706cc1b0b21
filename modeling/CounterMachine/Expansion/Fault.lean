import CounterMachine.Value

/-! # Faults of an expansion -/

namespace CounterMachine

/-- Why a program cannot be expanded or collapsed as asked. -/
inductive ExpansionError where
  /-- More levels were asked for than there are, or the source was to be collapsed. -/
  | invalidDegree (requested : Int) (largest : Nat)
  /-- A call names a function that is not in the table. -/
  | unknownFunction (name : String)
  /-- The operation is not visible. -/
  | unknownOperation (id : Nat)
  /-- A constant stands for more instructions than may be written out. -/
  | constantTooLarge (value limit : Value)
  deriving DecidableEq, Repr

/-- The report shown for a fault. -/
def ExpansionError.message : ExpansionError → String
  | invalidDegree requested largest =>
    s!"Invalid degree: requested {requested}, valid range is 0..={largest}"
  | unknownFunction name => s!"Unknown function: '{name}'"
  | unknownOperation id =>
    s!"Operation #{id} is not part of the program's current instruction list"
  | constantTooLarge value limit =>
    s!"Constant {value.toNat} is too large to unroll (limit {limit.toNat})"

end CounterMachine
