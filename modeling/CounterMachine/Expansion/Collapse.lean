import CounterMachine.Expansion.Fault
import CounterMachine.Program.Compaction
import CounterMachine.Program.FunctionTable

/-! # Collapse

Collapsing takes expansions back: visible operations give way to an ancestor of theirs, and what
is then neither visible nor an ancestor is dropped from the arena.

* `Program.collapse`         every operation of the deepest visible layer gives way to its parent
* `Program.collapseSingle`   one ancestor of an operation takes the place of all that was written
  for it

Both list what stands for the visible operations where it is wanted first.  The passes that do so by
remembering only the parents that were restored, or only whether the ancestor was placed, come to
the same (`Program.Grown.collapse_eq`, `Program.Grown.collapseSingle_eq`). -/

namespace CounterMachine

/-- A list of places below `bound`, with each of them where it stands first. -/
def firstOccurrences (bound : Nat) (ids : List Nat) : List Nat :=
  (ids.foldl (fun (seen : Array Bool × Array Nat) id =>
    if seen.1[id]?.getD false then seen
    else (seen.1.setIfInBounds id true, seen.2.push id))
    (Array.replicate bound false, #[])).2.toList

namespace Program

/-- The program in which visible operations give way to others: each to what `stand` says, which
takes the first place where it is wanted. -/
def giveWay (p : Program) (stand : Nat → Nat) : Program :=
  { p with order := firstOccurrences p.arena.size (p.order.map stand) }.compact

/-- The parent of an operation on a layer; any other operation stands for itself. -/
def parentOnLayer (p : Program) (layer id : Nat) : Nat :=
  match p.operation? id with
  | some op => if op.layer = layer then op.parent.getD id else id
  | none => id

/-- The program with its deepest visible layer taken back. -/
def collapse (p : Program) : Except ExpansionError Program :=
  let level := p.level
  if level = 0 then
    .error (.invalidDegree (-1) p.degree)
  else
    .ok (p.giveWay (p.parentOnLayer level))

/-- The program in which the ancestor of a visible operation, a number of levels up, takes the
place of every visible operation that was written for it. -/
def collapseSingle (p : Program) (id levels : Nat) : Except ExpansionError Program :=
  match p.positionOf? id with
  | none => .error (.unknownOperation id)
  | some _ =>
    let chain := lineage p.arena id
    match chain[levels]? with
    | none => .error (.invalidDegree levels (chain.length - 1))
    | some ancestor =>
      .ok (p.giveWay fun candidate => if p.descends ancestor candidate then ancestor else candidate)

end Program

end CounterMachine
