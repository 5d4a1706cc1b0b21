import CounterMachine.Expansion.Lowering

/-! # Expansion

To expand an operation, the lines it stands for are added to the arena, as its children, and take
its place among the visible operations.  With more than one level each of the children is
expanded in turn, from left to right and before the operation that follows.

* `Program.expand`           expands every operation, as far as the program's degree goes
* `Program.expandToDegree`   the same, but asking for more than the degree is a fault
* `Program.expandSingle`     expands one visible operation

A program that is expanded by no level stays as it is. -/

namespace CounterMachine

/-- An expansion under way. -/
structure Growth where
  arena : Array Operation
  supply : Supply
  /-- The places of the visible operations so far, in their order. -/
  order : Array Nat

namespace Growth

/-- Leaves an operation visible. -/
def keep (g : Growth) (id : Nat) : Growth := { g with order := g.order.push id }

/-- Adds a line to the arena as a child of an operation. -/
def addChild (parent : Operation) (arena : Array Operation) (line : Line) : Array Operation :=
  arena.push
    { id := arena.size, label := line.label, instruction := line.instruction,
      cycles := line.instruction.cycles, parent := some parent.id, layer := parent.layer + 1 }

/-- Expands the operation at a place of the arena by a number of levels. -/
def expand (table : FunctionTable) : (levels : Nat) → Growth → (id : Nat) →
    Except ExpansionError Growth
  | 0, g, id => .ok (g.keep id)
  | levels + 1, g, id =>
    match g.arena[id]? with
    | none => .ok (g.keep id)
    | some op =>
      if op.instruction.isBasic then
        .ok (g.keep id)
      else do
        let (lines, supply) ← Line.lower table ⟨op.label, op.instruction⟩ g.supply
        -- All children are in the arena before the first of them is expanded.
        let children := List.range' g.arena.size lines.length
        let arena := lines.foldl (addChild op) g.arena
        children.foldlM (expand table levels) { g with arena, supply }

end Growth

namespace Program

/-- The expansion of a program before any operation has been handled. -/
def seed (p : Program) : Growth :=
  { arena := p.arena, supply := Supply.ofProgram p, order := #[] }

/-- The program with its operations expanded by a number of levels, at most its degree. -/
def expand (p : Program) (levels : Nat) : Except ExpansionError Program := do
  let table := p.callable
  let levels := min levels (p.degreeIn table)
  let g ← p.order.foldlM (Growth.expand table levels) p.seed
  return { p with arena := g.arena, order := g.order.toList }

/-- The program with its operations expanded by a number of levels, which its degree must
allow. -/
def expandToDegree (p : Program) (levels : Nat) : Except ExpansionError Program :=
  if p.degree < levels then .error (.invalidDegree levels p.degree) else p.expand levels

/-- The program with one visible operation expanded by a number of levels, which the degree of
the operation must allow. -/
def expandSingle (p : Program) (id levels : Nat) : Except ExpansionError Program :=
  match p.positionOf? id with
  | none => .error (.unknownOperation id)
  | some position => do
    let table := p.callable
    let largest := match p.operation? id with
      | some op => op.instruction.degree table.degrees.of
      | none => 0
    if largest < levels then
      throw (.invalidDegree levels largest)
    let g ← Growth.expand table levels p.seed id
    return { p with
      arena := g.arena
      order := p.order.take position ++ g.order.toList ++ p.order.drop (position + 1) }

end Program

end CounterMachine
