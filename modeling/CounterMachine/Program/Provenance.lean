import CounterMachine.Program.Basic

/-! # Provenance

The parents of operations make the arena a forest whose roots are the source operations.

* `ancestors`   the parent of an operation, the parent's parent, and so on
* `Program.provenance`   an operation and its ancestors
* `Program.descends`     whether an operation is another one or has it as an ancestor
* `Program.children`     the visible operations below an operation

A parent stands before its children in the arena.  A link that does not go down is no parent
link and ends the walk, so that every walk ends. -/

namespace CounterMachine

/-- The ancestors of the entry at a place of an arena, the nearest first. -/
def ancestors (arena : Array Operation) (id : Nat) : List Nat :=
  match arena[id]?.bind Operation.parent with
  | none => []
  | some parent => if _down : parent < id then parent :: ancestors arena parent else []
termination_by id

/-- A place of an arena and the places of its ancestors, the nearest first. -/
def lineage (arena : Array Operation) (id : Nat) : List Nat := id :: ancestors arena id

namespace Program

/-- The operation at a place, followed by its ancestors up to a source operation. -/
def provenance (p : Program) (id : Nat) : List Operation :=
  match p.operation? id with
  | none => []
  | some _ => (lineage p.arena id).filterMap p.operation?

/-- Whether an operation is `ancestor` or was written, in one or more steps, for it. -/
def descends (p : Program) (ancestor id : Nat) : Bool := (lineage p.arena id).contains ancestor

/-- The visible operations that were written, in one or more steps, for an operation. -/
def children (p : Program) (id : Nat) : List Operation :=
  p.operations.filter fun op => op.id != id && p.descends id op.id

end Program

/-- An ancestor stands before its descendant. -/
theorem lt_of_mem_ancestors {arena : Array Operation} {id a : Nat} (h : a ∈ ancestors arena id) :
    a < id := by
  fun_induction ancestors arena id with
  | case1 => cases h
  | case2 id parent _ down ih =>
    rcases List.mem_cons.mp h with rfl | further
    · exact down
    · exact Nat.lt_trans (ih further) down
  | case3 => cases h

end CounterMachine
