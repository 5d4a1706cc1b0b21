import CounterMachine.Execution.Run

/-! # Run history

A history keeps one record per finished run: its number, the degree of the program that ran, the
inputs by name, the result and the cycles. -/

namespace CounterMachine

/-- What is kept of a run. -/
structure RunRecord where
  /-- The place in the history, counted from one. -/
  number : Nat
  degree : Nat
  inputs : List (Variable × Value)
  result : Value
  cycles : Value
  deriving DecidableEq, Repr

/-- The records of finished runs, the oldest first. -/
structure RunHistory where
  records : Array RunRecord

namespace RunHistory

/-- The history without records. -/
def empty : RunHistory := ⟨#[]⟩

/-- The record of a run, as the next one of a history. -/
def next (h : RunHistory) (p : Program) (values : List Value) (outcome : RunOutcome) : RunRecord :=
  { number := h.records.size + 1, degree := p.degree,
    inputs := Bindings.inputPairs p.inputs values
    result := outcome.result, cycles := outcome.cycles }

/-- The history with a run recorded. -/
def record (h : RunHistory) (p : Program) (values : List Value) (outcome : RunOutcome) :
    RunHistory :=
  ⟨h.records.push (h.next p values outcome)⟩

/-- The latest record. -/
def last? (h : RunHistory) : Option RunRecord := h.records.back?

end RunHistory

end CounterMachine
