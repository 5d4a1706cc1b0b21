import CounterMachine.Instruction.Basic

/-! # Renaming

A function's body is copied into its caller under new names: every counter and every label is
replaced, function names stay. -/

namespace CounterMachine

mutual

/-- An argument with its counters replaced. -/
def Argument.rename (vars : Variable → Variable) : Argument → Argument
  | .var v => .var (vars v)
  | .nested function args => .nested function (Argument.renameList vars args)

/-- A list of arguments with their counters replaced. -/
def Argument.renameList (vars : Variable → Variable) : List Argument → List Argument
  | [] => []
  | arg :: rest => arg.rename vars :: Argument.renameList vars rest

end

/-- A call with its counters replaced. -/
def Call.rename (vars : Variable → Variable) (call : Call) : Call :=
  { call with args := Argument.renameList vars call.args }

/-- An operand with its counter replaced. -/
def Operand.rename (vars : Variable → Variable) : Operand → Operand
  | var v => var (vars v)
  | const value => const value

/-- An instruction with its counters and its label replaced. -/
def Instruction.rename (vars : Variable → Variable) (labels : Label → Label) :
    Instruction → Instruction
  | neutral v => neutral (vars v)
  | increase v => increase (vars v)
  | decrease v => decrease (vars v)
  | jumpNotZero v target => jumpNotZero (vars v) (labels target)
  | zero v => zero (vars v)
  | assign dst src => assign (vars dst) (vars src)
  | assignConstant v value => assignConstant (vars v) value
  | goto target => goto (labels target)
  | jumpZero v target => jumpZero (vars v) (labels target)
  | jumpEqual v rhs target => jumpEqual (vars v) (rhs.rename vars) (labels target)
  | quote dst call => quote (vars dst) (call.rename vars)
  | jumpEqualCall v call target => jumpEqualCall (vars v) (call.rename vars) (labels target)

/-- A list of arguments is renamed argument by argument. -/
theorem Argument.renameList_eq_map (vars : Variable → Variable) (args : List Argument) :
    Argument.renameList vars args = args.map (Argument.rename vars) := by
  induction args with
  | nil => rfl
  | cons arg rest ih => simp [Argument.renameList, ih]

end CounterMachine
