import CounterMachine.Instruction.Basic

/-! # The text of an instruction

An instruction is shown as an assignment with `←` or as a jump with `GOTO`.  A call is shown as a
list in parentheses: the function's name, then each argument behind a comma. -/

namespace CounterMachine

mutual

/-- The text of an argument. -/
def Argument.text : Argument → String
  | .var v => v.text
  | .nested function args => "(" ++ function ++ Argument.listText args ++ ")"

/-- The texts of a list of arguments, each behind a comma. -/
def Argument.listText : List Argument → String
  | [] => ""
  | arg :: rest => "," ++ arg.text ++ Argument.listText rest

end

/-- The text of a call. -/
def Call.text (call : Call) : String :=
  "(" ++ call.function ++ Argument.listText call.args ++ ")"

/-- The text of an operand: the counter's name, or the value in decimal digits. -/
def Operand.text : Operand → String
  | var v => v.text
  | const value => value.toNat.repr

/-- The text of an instruction. -/
def Instruction.text : Instruction → String
  | neutral v => v.text ++ " ← " ++ v.text
  | increase v => v.text ++ " ← " ++ v.text ++ " + 1"
  | decrease v => v.text ++ " ← " ++ v.text ++ " - 1"
  | jumpNotZero v target => "IF " ++ v.text ++ " ≠ 0 GOTO " ++ target.text
  | zero v => v.text ++ " ← 0"
  | assign dst src => dst.text ++ " ← " ++ src.text
  | assignConstant v value => v.text ++ " ← " ++ value.toNat.repr
  | goto target => "GOTO " ++ target.text
  | jumpZero v target => "IF " ++ v.text ++ " = 0 GOTO " ++ target.text
  | jumpEqual v rhs target => "IF " ++ v.text ++ " = " ++ rhs.text ++ " GOTO " ++ target.text
  | quote dst call => dst.text ++ " ← " ++ call.text
  | jumpEqualCall v call target =>
    "IF " ++ v.text ++ " = " ++ call.text ++ " GOTO " ++ target.text

end CounterMachine
