import CounterMachine.Instruction.Basic

/-! # The degree of an instruction

The degree of an instruction is how many times it can be replaced by simpler instructions until
only basic ones are left.  For a call it depends on the degree of the function, which a look-up
supplies.

* `Instruction.degree`    the degree, given the degrees of functions
* `Instruction.callees`   the functions whose degrees matter, in the order they are looked up

The degree depends on the look-up at the callees alone (`Instruction.degree_congr`). -/

namespace CounterMachine

mutual

/-- What an argument adds to the degree of the call around it: nothing for a counter, and the
degree of an assignment of its result for a further call. -/
def Argument.degree (degreeOf : String → Nat) : Argument → Nat
  | .var _ => 0
  | .nested function args =>
    1 + max (max (degreeOf function) (Argument.listDegree degreeOf args)) 2

/-- The largest degree of a list of arguments. -/
def Argument.listDegree (degreeOf : String → Nat) : List Argument → Nat
  | [] => 0
  | arg :: rest => max (arg.degree degreeOf) (Argument.listDegree degreeOf rest)

end

/-- The degree of the instructions that a call's function and its arguments bring. -/
def Call.bodyDegree (degreeOf : String → Nat) (call : Call) : Nat :=
  max (degreeOf call.function) (Argument.listDegree degreeOf call.args)

/-- The degree of an instruction.  A call ends in an assignment of its result, of degree two, or
in a jump on it, of degree three. -/
def Instruction.degree (degreeOf : String → Nat) : Instruction → Nat
  | neutral _ | increase _ | decrease _ | jumpNotZero _ _ => 0
  | zero _ | goto _ => 1
  | assign dst src => if dst = src then 1 else 2
  | assignConstant _ _ | jumpZero _ _ => 2
  | jumpEqual _ _ _ => 3
  | quote _ call => 1 + max (call.bodyDegree degreeOf) 2
  | jumpEqualCall _ call _ => 1 + max (call.bodyDegree degreeOf) 3

mutual

/-- The functions that an argument calls, each before the functions of its own arguments. -/
def Argument.callees : Argument → List String
  | .var _ => []
  | .nested function args => function :: Argument.listCallees args

/-- The functions that a list of arguments calls, from left to right. -/
def Argument.listCallees : List Argument → List String
  | [] => []
  | arg :: rest => arg.callees ++ Argument.listCallees rest

end

/-- The functions of a call: its own, then those of its arguments. -/
def Call.callees (call : Call) : List String := call.function :: Argument.listCallees call.args

/-- The functions that an instruction calls. -/
def Instruction.callees (i : Instruction) : List String :=
  match i.call? with
  | some call => call.callees
  | none => []

mutual

/-- The degree of an argument depends on the degrees of the functions that it calls. -/
theorem Argument.degree_congr {f g : String → Nat} :
    (arg : Argument) → (∀ name ∈ arg.callees, f name = g name) → arg.degree f = arg.degree g
  | .var _, _ => rfl
  | .nested function args, h => by
    have here := h function (by simp [Argument.callees])
    have inner := Argument.listDegree_congr args
      fun name mem => h name (by simp [Argument.callees, mem])
    simp [Argument.degree, here, inner]

/-- So does that of several arguments. -/
theorem Argument.listDegree_congr {f g : String → Nat} :
    (args : List Argument) → (∀ name ∈ Argument.listCallees args, f name = g name) →
      Argument.listDegree f args = Argument.listDegree g args
  | [], _ => rfl
  | arg :: rest, h => by
    have first := Argument.degree_congr arg
      fun name mem => h name (by simp [Argument.listCallees, mem])
    have others := Argument.listDegree_congr rest
      fun name mem => h name (by simp [Argument.listCallees, mem])
    simp [Argument.listDegree, first, others]

end

/-- So does what a call brings in. -/
theorem Call.bodyDegree_congr {f g : String → Nat} (call : Call)
    (h : ∀ name ∈ call.callees, f name = g name) : call.bodyDegree f = call.bodyDegree g := by
  have here := h call.function (by simp [Call.callees])
  have inner := Argument.listDegree_congr call.args
    fun name mem => h name (by simp [Call.callees, mem])
  simp [Call.bodyDegree, here, inner]

/-- Two look-ups that agree on the functions an instruction calls give it one degree. -/
theorem Instruction.degree_congr {f g : String → Nat} (i : Instruction)
    (h : ∀ name ∈ i.callees, f name = g name) : i.degree f = i.degree g := by
  cases i with
  | quote dst call => simp [degree, call.bodyDegree_congr h]
  | jumpEqualCall v call target => simp [degree, call.bodyDegree_congr h]
  | _ => rfl

/-- The basic instructions are the ones of degree zero. -/
theorem Instruction.isBasic_iff_degree_eq_zero (degreeOf : String → Nat) (i : Instruction) :
    i.isBasic = true ↔ i.degree degreeOf = 0 := by
  cases i <;> simp [isBasic, kind, degree]
  split <;> decide

end CounterMachine
