import CounterMachine.Execution.Environment
import CounterMachine.Execution.Evaluation

/-! # The effect of an instruction

An instruction writes at most one counter, charges its declared cost and says where control goes.
What a call is worth is left to an evaluator of calls, which works on the environment of the
caller, since the cost of the function is charged there. -/

namespace CounterMachine

/-- What evaluates calls. -/
abbrev CallEvaluator := Call → Environment → Evaluation Environment Value

/-- Executes an instruction.  Its own cost is charged at the end, so a call that fails leaves
only the cost of the calls before it. -/
def Instruction.execute (evaluate : CallEvaluator) (i : Instruction) (env : Environment) :
    Evaluation Environment Flow :=
  let done (flow : Flow) (env : Environment) : Evaluation Environment Flow :=
    .finished flow (env.charge i.cycles)
  match i with
  | neutral _ => done .fallThrough env
  | increase v => done .fallThrough (env.set v (Value.succ (env.get v)))
  | decrease v => done .fallThrough (env.set v (Value.pred (env.get v)))
  | jumpNotZero v target => done (.jumpIf (env.get v != 0) target) env
  | zero v => done .fallThrough (env.set v 0)
  | assign dst src => done .fallThrough (env.set dst (env.get src))
  | assignConstant v value => done .fallThrough (env.set v value)
  | goto target => done (.jump target) env
  | jumpZero v target => done (.jumpIf (env.get v == 0) target) env
  | jumpEqual v rhs target => done (.jumpIf (env.get v == env.operand rhs) target) env
  | quote dst call =>
    (evaluate call env).bind fun value env => done .fallThrough (env.set dst value)
  | jumpEqualCall v call target =>
    (evaluate call env).bind fun value env => done (.jumpIf (env.get v == value) target) env

/-- The values of arguments, from left to right.  An argument that is a call is charged like an
assignment of its result. -/
def Argument.values (evaluate : CallEvaluator) : List Argument → Environment →
    Evaluation Environment (List Value)
  | [], env => .finished [] env
  | .var v :: rest, env => (Argument.values evaluate rest env).map (env.get v :: ·)
  | .nested function args :: rest, env =>
    (evaluate ⟨function, args⟩ env).bind fun value env =>
      (Argument.values evaluate rest (env.charge Instruction.quoteCycles)).map (value :: ·)

end CounterMachine
