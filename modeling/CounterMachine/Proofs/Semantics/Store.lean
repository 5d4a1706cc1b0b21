import CounterMachine.Execution.Run
import CounterMachine.Proofs.Lowering.Uses
import Mathlib.Logic.Function.Iterate

/-!
# Runs over stores

What a run does to the counters depends on the lines of a program only: neither on the cycles, nor
on what is recorded, nor on the operations behind the lines. Here a program is its lines, the
contents of its counters are a function, and a call is answered by an oracle that is given from
outside.

## Key definitions

- `Instruction.effect`: what an instruction does to a store
- `RunState.next`: one step of a run
- `Call.answer`: the oracle that runs the functions of a table
-/

namespace CounterMachine

/-- The contents of all counters. -/
abbrev Store := Variable → Value

namespace Store

/-- Writes a counter. -/
def set (σ : Store) (v : Variable) (value : Value) : Store := Function.update σ v value

/-- The value of an operand. -/
def operand (σ : Store) : Operand → Value
  | .var v => σ v
  | .const value => value

/-- The inputs have the given values, every other counter is zero. -/
def initial (inputs : List Variable) (values : List Value) : Store :=
  (Bindings.inputPairs inputs values).foldl (fun σ pair => σ.set pair.1 pair.2) fun _ => 0

/-- What has been written to a counter is in it. -/
@[simp] theorem set_self (σ : Store) (v : Variable) (value : Value) : σ.set v value v = value :=
  Function.update_self ..

/-- The other counters keep their contents. -/
theorem set_of_ne (σ : Store) {v w : Variable} (value : Value) (h : w ≠ v) :
    σ.set v value w = σ w :=
  Function.update_of_ne h ..

/-- What is in a counter after one has been written. -/
theorem set_apply (σ : Store) (v w : Variable) (value : Value) :
    σ.set v value w = if w = v then value else σ w :=
  Function.update_apply ..

/-- Writing what is there already changes nothing. -/
@[simp] theorem set_eq_self (σ : Store) (v : Variable) : σ.set v (σ v) = σ :=
  Function.update_eq_self ..

end Store

/-- What comes of asking for something: an answer, a fault, or nothing ever. -/
inductive Reply (α : Type) where
  | value (a : α)
  | fault
  | never

namespace Reply

variable {α β : Type}

/-- Goes on with an answer. -/
def bind (r : Reply α) (next : α → Reply β) : Reply β :=
  match r with
  | value a => next a
  | fault => fault
  | never => never

/-- Changes an answer. -/
def map (f : α → β) (r : Reply α) : Reply β := r.bind fun a => value (f a)

/-- After an answer it goes on. -/
@[simp] theorem bind_value (a : α) (next : α → Reply β) : (value a).bind next = next a := rfl

/-- After a fault it does not. -/
@[simp] theorem bind_fault (next : α → Reply β) : (fault : Reply α).bind next = fault := rfl

/-- What never comes is never followed by anything. -/
@[simp] theorem bind_never (next : α → Reply β) : (never : Reply α).bind next = never := rfl

/-- An answer is changed. -/
@[simp] theorem map_value (a : α) (f : α → β) : (value a).map f = value (f a) := rfl

/-- A fault is not changed. -/
@[simp] theorem map_fault (f : α → β) : (fault : Reply α).map f = fault := rfl

/-- What never comes is not changed. -/
@[simp] theorem map_never (f : α → β) : (never : Reply α).map f = never := rfl

/-- An answer goes back to an answer. -/
theorem bind_eq_value {r : Reply α} {next : α → Reply β} {b : β} :
    r.bind next = value b ↔ ∃ a, r = value a ∧ next a = value b := by
  constructor
  · intro h
    cases r with
    | value a => exact ⟨a, rfl, h⟩
    | fault => cases h
    | never => cases h
  · rintro ⟨a, rfl, h⟩
    exact h

/-- A changed answer is one that was an answer before. -/
theorem map_eq_value {r : Reply α} {f : α → β} {b : β} :
    r.map f = value b ↔ ∃ a, r = value a ∧ f a = b := by
  simp only [map, bind_eq_value, value.injEq]

end Reply

/-- What answers calls. -/
abbrev Oracle := Call → Store → Reply Value

/-- The value of an argument. -/
def Argument.answer (ask : Oracle) : Argument → Store → Reply Value
  | .var v, σ => .value (σ v)
  | .nested function args, σ => ask ⟨function, args⟩ σ

/-- The values of arguments. -/
def Argument.answers (ask : Oracle) : List Argument → Store → Reply (List Value)
  | [], _ => .value []
  | arg :: rest, σ => (arg.answer ask σ).bind fun value =>
    (Argument.answers ask rest σ).map (value :: ·)

/-- What an instruction does to a store, and where control goes then. -/
def Instruction.effect (ask : Oracle) (i : Instruction) (σ : Store) : Reply (Flow × Store) :=
  match i with
  | neutral _ => .value (.fallThrough, σ)
  | increase v => .value (.fallThrough, σ.set v (Value.succ (σ v)))
  | decrease v => .value (.fallThrough, σ.set v (Value.pred (σ v)))
  | jumpNotZero v target => .value (.jumpIf (σ v != 0) target, σ)
  | zero v => .value (.fallThrough, σ.set v 0)
  | assign dst src => .value (.fallThrough, σ.set dst (σ src))
  | assignConstant v value => .value (.fallThrough, σ.set v value)
  | goto target => .value (.jump target, σ)
  | jumpZero v target => .value (.jumpIf (σ v == 0) target, σ)
  | jumpEqual v rhs target => .value (.jumpIf (σ v == σ.operand rhs) target, σ)
  | quote dst call => (ask call σ).map fun value => (.fallThrough, σ.set dst value)
  | jumpEqualCall v call target =>
    (ask call σ).map fun value => (.jumpIf (σ v == value) target, σ)

/-- The place of the last line that carries a label. -/
def labelPlace? (x : Label) : List Line → Option Nat
  | [] => none
  | line :: rest =>
    match labelPlace? x rest with
    | some i => some (i + 1)
    | none => if line.label = x ∧ x ≠ .empty then some 0 else none

/-- A run between two steps, or at its end. -/
inductive RunState where
  | running (position : Nat) (σ : Store)
  | halted (σ : Store)
  | faulted

namespace RunState

/-- Goes to a position, which ends the run if no line is there. -/
def goto (lines : List Line) (position : Nat) (σ : Store) : RunState :=
  if position < lines.length then running position σ else halted σ

/-- Goes on after the instruction at a position. -/
def follow (lines : List Line) (position : Nat) (σ : Store) : Flow → RunState
  | .fallThrough => goto lines (position + 1) σ
  | .goto label =>
    match labelPlace? label lines with
    | some target => running target σ
    | none => faulted
  | .exit => halted σ

/-- One step. A run that waits for an answer stays where it is. -/
def next (ask : Oracle) (lines : List Line) : RunState → RunState
  | running position σ =>
    match lines[position]? with
    | none => halted σ
    | some line =>
      match line.instruction.effect ask σ with
      | .value (flow, σ') => follow lines position σ' flow
      | .fault => faulted
      | .never => running position σ
  | c => c

/-- The run has come to its end. -/
def Ended : RunState → Prop
  | running _ _ => False
  | _ => True

/-- The result of a run, if it has come to its end. -/
def result : RunState → Reply Value
  | running _ _ => .never
  | halted σ => .value (σ .result)
  | faulted => .fault

end RunState

/-- The value of a call, with the functions of a table. The fuel bounds how deep calls nest and how
many steps each run makes. -/
def Call.answer (table : FunctionTable) : (fuel : Nat) → Oracle
  | 0, _, _ => .never
  | fuel + 1, call, σ =>
    match table.find? call.function with
    | none => .fault
    | some callee =>
      (Argument.answers (Call.answer table fuel) call.args σ).bind fun values =>
        ((RunState.next (Call.answer table fuel) callee.lines)^[fuel]
          (.running 0 (.initial callee.inputs values))).result

end CounterMachine
