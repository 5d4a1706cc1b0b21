import CounterMachine.Program.Basic

/-! # Listings

A listing shows the visible operations as rows of a table, numbered from one. -/

namespace CounterMachine

/-- One row of a listing. -/
structure ListingRow where
  number : Nat
  id : Nat
  kind : InstructionKind
  label : String
  text : String
  cycles : Value
  deriving DecidableEq, Repr

/-- The row of an operation that stands at a position. -/
def Operation.listingRow (position : Nat) (op : Operation) : ListingRow :=
  { number := position + 1, id := op.id, kind := op.kind, label := op.label.text,
    text := op.instruction.text, cycles := op.cycles }

/-- The listing of a program. -/
def Program.listing (p : Program) : List ListingRow :=
  p.operations.mapIdx Operation.listingRow

end CounterMachine
