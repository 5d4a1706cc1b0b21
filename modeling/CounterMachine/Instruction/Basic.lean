import CounterMachine.Identifier.Label
import CounterMachine.Identifier.Variable
import CounterMachine.Value

/-! # Instructions

The machine has twelve instructions.  Four are basic: do nothing, add one, take one away, and
jump where a counter is not zero.  The other eight are shorthands, and each of them stands for a
sequence of simpler instructions.  Two shorthands call a function, whose arguments are counters
or further calls.

* `Instruction`   the twelve forms
* `Call`, `Argument`   a call and what it passes
* `Instruction.vars`   every counter an instruction reads or writes
* `Instruction.cycles`   the declared cost of one execution
* `Flow`   where control goes after an execution -/

namespace CounterMachine

/-- What a jump compares a counter with. -/
inductive Operand where
  /-- The content of another counter. -/
  | var (v : Variable)
  /-- A fixed value. -/
  | const (value : Value)
  deriving DecidableEq, Repr

/-- What a call passes: the content of a counter, or the result of a further call. -/
inductive Argument where
  | var (v : Variable)
  | nested (function : String) (args : List Argument)
  deriving Repr, Inhabited

mutual

private def decEqArgument (a b : Argument) : Decidable (a = b) :=
  match a, b with
  | .var v, .var w => decidable_of_iff (v = w) (by simp)
  | .nested f as, .nested g bs =>
    haveI := decEqArguments as bs
    decidable_of_iff (f = g ∧ as = bs) (by simp)
  | .var _, .nested _ _ | .nested _ _, .var _ => isFalse nofun

private def decEqArguments (as bs : List Argument) : Decidable (as = bs) :=
  match as, bs with
  | [], [] => isTrue rfl
  | a :: as, b :: bs =>
    haveI := decEqArgument a b
    haveI := decEqArguments as bs
    decidable_of_iff (a = b ∧ as = bs) (by simp)
  | [], _ :: _ | _ :: _, [] => isFalse nofun

end

instance : DecidableEq Argument := decEqArgument

/-- A call of a named function with arguments by position. -/
structure Call where
  function : String
  args : List Argument
  deriving DecidableEq, Repr, Inhabited

/-- A call that passes counters only. -/
def Call.ofVariables (function : String) (vars : List Variable) : Call :=
  ⟨function, vars.map .var⟩

/-- One instruction of a program. -/
inductive Instruction where
  /-- Does nothing. -/
  | neutral (var : Variable)
  /-- Adds one to a counter. -/
  | increase (var : Variable)
  /-- Takes one from a counter. -/
  | decrease (var : Variable)
  /-- Jumps where a counter is not zero. -/
  | jumpNotZero (var : Variable) (target : Label)
  /-- Sets a counter to zero. -/
  | zero (var : Variable)
  /-- Copies a counter into another one. -/
  | assign (dst src : Variable)
  /-- Sets a counter to a fixed value. -/
  | assignConstant (var : Variable) (value : Value)
  /-- Jumps. -/
  | goto (target : Label)
  /-- Jumps where a counter is zero. -/
  | jumpZero (var : Variable) (target : Label)
  /-- Jumps where a counter equals a value. -/
  | jumpEqual (var : Variable) (rhs : Operand) (target : Label)
  /-- Sets a counter to the result of a call. -/
  | quote (dst : Variable) (call : Call)
  /-- Jumps where a counter equals the result of a call. -/
  | jumpEqualCall (var : Variable) (call : Call) (target : Label)
  deriving DecidableEq, Repr, Inhabited

/-- The two kinds of instructions. -/
inductive InstructionKind where
  /-- An instruction that stands for itself. -/
  | basic
  /-- An instruction that stands for a sequence of simpler ones. -/
  | synthetic
  deriving DecidableEq, Repr

/-- The letter that marks a kind in a listing. -/
def InstructionKind.letter : InstructionKind → String
  | basic => "B"
  | synthetic => "S"

/-- Where control goes after an instruction. -/
inductive Flow where
  /-- To the next instruction. -/
  | fallThrough
  /-- To the instruction with a label. -/
  | goto (label : Label)
  /-- Out of the program. -/
  | exit
  deriving DecidableEq, Repr

/-- A jump to a label; a jump to `EXIT` leaves the program. -/
def Flow.jump (label : Label) : Flow := if label.isExit then .exit else .goto label

/-- A jump that is taken under a condition. -/
def Flow.jumpIf (condition : Bool) (label : Label) : Flow :=
  if condition then .jump label else .fallThrough

mutual

/-- The counters that an argument reads, from left to right. -/
def Argument.vars : Argument → List Variable
  | .var v => [v]
  | .nested _ args => Argument.listVars args

/-- The counters that a list of arguments reads, from left to right. -/
def Argument.listVars : List Argument → List Variable
  | [] => []
  | arg :: rest => arg.vars ++ Argument.listVars rest

end

/-- The counters that a call reads, from left to right. -/
def Call.vars (call : Call) : List Variable := Argument.listVars call.args

/-- The counters that an operand reads. -/
def Operand.vars : Operand → List Variable
  | var v => [v]
  | const _ => []

namespace Instruction

/-- The kind of an instruction. -/
def kind : Instruction → InstructionKind
  | neutral _ | increase _ | decrease _ | jumpNotZero _ _ => .basic
  | _ => .synthetic

/-- Whether an instruction stands for itself. -/
def isBasic (i : Instruction) : Bool := i.kind = .basic

/-- The name of an instruction's form. -/
def name : Instruction → String
  | neutral _ => "NEUTRAL"
  | increase _ => "INCREASE"
  | decrease _ => "DECREASE"
  | jumpNotZero _ _ => "JUMP_NOT_ZERO"
  | zero _ => "ZERO_VARIABLE"
  | assign _ _ => "ASSIGNMENT"
  | assignConstant _ _ => "CONSTANT_ASSIGNMENT"
  | goto _ => "GOTO_LABEL"
  | jumpZero _ _ => "JUMP_ZERO"
  | jumpEqual _ (.const _) _ => "JUMP_EQUAL_CONSTANT"
  | jumpEqual _ (.var _) _ => "JUMP_EQUAL_VARIABLE"
  | quote _ _ => "QUOTE"
  | jumpEqualCall _ _ _ => "JUMP_EQUAL_FUNCTION"

/-- The cost of setting a counter to the result of a call, without the cost of the function
itself.  An argument that is a call costs the same. -/
def quoteCycles : Value := 5

/-- The declared cost of one execution, without the cost of a function that is called. -/
def cycles : Instruction → Value
  | neutral _ => 0
  | increase _ => 1
  | decrease _ => 1
  | jumpNotZero _ _ => 2
  | zero _ => 1
  | assign _ _ => 4
  | assignConstant _ _ => 2
  | goto _ => 1
  | jumpZero _ _ => 2
  | jumpEqual _ _ _ => 2
  | quote _ _ => quoteCycles
  | jumpEqualCall _ _ _ => 6

/-- The label that an instruction may jump to. -/
def target? : Instruction → Option Label
  | jumpNotZero _ target | goto target | jumpZero _ target | jumpEqual _ _ target
  | jumpEqualCall _ _ target => some target
  | _ => none

/-- The call that an instruction makes. -/
def call? : Instruction → Option Call
  | quote _ call | jumpEqualCall _ call _ => some call
  | _ => none

/-- Every counter that an instruction reads or writes, in the order of its text. -/
def vars : Instruction → List Variable
  | neutral v | increase v | decrease v | jumpNotZero v _ | zero v | assignConstant v _
  | jumpZero v _ => [v]
  | assign dst src => [dst, src]
  | goto _ => []
  | jumpEqual v rhs _ => v :: rhs.vars
  | quote v call | jumpEqualCall v call _ => v :: call.vars

/-- The counter that an instruction may change. -/
def written? : Instruction → Option Variable
  | increase v | decrease v | zero v | assignConstant v _ => some v
  | assign dst _ | quote dst _ => some dst
  | _ => none

/-- An instruction changes only a counter that it lists. -/
theorem mem_vars_of_written? {i : Instruction} {v : Variable} (h : i.written? = some v) :
    v ∈ i.vars := by
  cases i <;> simp_all [written?, vars]

end Instruction

end CounterMachine
