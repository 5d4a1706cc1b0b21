import CounterMachine.Program.Provenance

/-! # Compaction

Operations that are neither visible nor an ancestor of a visible operation are dropped from the
arena.  The others move up, in their order, to places without gaps, and all places that are
written down in the program follow them.

* `marks`    the entries that stay
* `places`   where an entry goes: as many entries stay before it
* `Program.compact`   the program without the other entries -/

namespace CounterMachine

/-- Marks the entries of an arena that are listed or an ancestor of a listed one. -/
def marks (arena : Array Operation) (order : List Nat) : Array Bool :=
  order.foldl (fun marks id => (lineage arena id).foldl (·.setIfInBounds · true) marks)
    (Array.replicate arena.size false)

/-- For every entry, how many marked entries stand before it. -/
def places (marks : Array Bool) : Array Nat :=
  (marks.foldl (fun (before : Array Nat × Nat) marked =>
    (before.1.push before.2, if marked then before.2 + 1 else before.2)) (#[], 0)).1

/-- The program without the operations that are neither visible nor an ancestor of a visible
one. -/
def Program.compact (p : Program) : Program :=
  let marks := marks p.arena p.order
  let places := places marks
  -- A link to a place outside the arena stays as it is.
  let place := fun id : Nat => places[id]?.getD id
  { p with
    arena := p.arena.filterMap fun op =>
      if marks[op.id]?.getD false then
        some { op with id := place op.id, parent := op.parent.map place }
      else
        none
    order := p.order.map place }

end CounterMachine
