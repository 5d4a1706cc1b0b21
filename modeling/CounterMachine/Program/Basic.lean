import CounterMachine.Instruction.Text
import CounterMachine.SortedSet

/-! # Programs

A program keeps every operation it has ever shown in an *arena* and shows some of them: its
*order* lists the places of the visible operations.  An operation that was written in place of
another one names that one as its parent, so that the replacement can be taken back.

* `Line`        a labelled instruction, as a program is written down
* `Operation`   a line at its place in the arena, with cost, parent and depth
* `Program`, `Program.ofLines`   a program, and the one that is written down as lines
* `Program.operations`   the visible operations
* `Program.vars`, `Program.labels`   the identifiers in use, as sorted sets

The identifiers in use are computed from the visible operations whenever they are asked for.  Sets
that are stored with a program, and made anew whenever its order changes, are the same at all times:
entries that are added to the arena are not visible before the order changes, and compaction changes
no identifier (`Program.WellPlaced.vars_compact`, `Program.WellPlaced.labels_compact`). -/

namespace CounterMachine

/-- What bounds all values bounds the largest one. -/
theorem foldl_max_le_iff {α : Type} (f : α → Nat) (xs : List α) (b n : Nat) :
    xs.foldl (fun largest x => max largest (f x)) b ≤ n ↔ b ≤ n ∧ ∀ x ∈ xs, f x ≤ n := by
  induction xs generalizing b with
  | nil => simp
  | cons x xs ih =>
    rw [List.foldl_cons, ih, Nat.max_le, and_assoc]
    simp

/-- A labelled instruction. -/
structure Line where
  label : Label := .empty
  instruction : Instruction
  deriving DecidableEq, Repr, Inhabited

/-- A line in the arena of a program. -/
structure Operation where
  /-- The place in the arena. -/
  id : Nat
  label : Label
  instruction : Instruction
  /-- The declared cost of one execution. -/
  cycles : Value
  /-- The operation that this one was written for; a source operation has none. -/
  parent : Option Nat
  /-- How many ancestors the operation has. -/
  layer : Nat
  deriving DecidableEq, Repr, Inhabited

/-- The kind of an operation's instruction. -/
def Operation.kind (op : Operation) : InstructionKind := op.instruction.kind

/-- The labels that an operation carries or jumps to.  The empty label is no label of an
operation, yet a jump may name it. -/
def Operation.labels (op : Operation) : List Label :=
  (if op.label.isEmpty then [] else [op.label]) ++ op.instruction.target?.toList

/-- A program, or a function that programs call. -/
structure Program where
  name : String
  /-- A name for readers. -/
  displayName : Option String
  /-- The counters that take the arguments, in the order of the arguments. -/
  inputs : List Variable
  /-- Every operation, at the place that is its `id`. -/
  arena : Array Operation
  /-- The places of the visible operations. -/
  order : List Nat
  /-- The functions that the program may call, if it brings any.  Of two functions with one name
  the later is meant. -/
  functions : Option (List Program)
  deriving Inhabited

namespace Program

/-- The name for readers; without one, the name. -/
def title (p : Program) : String := p.displayName.getD p.name

/-- The operation at a place of the arena. -/
def operation? (p : Program) (id : Nat) : Option Operation := p.arena[id]?

/-- The visible operations. -/
def operations (p : Program) : List Operation := p.order.filterMap p.operation?

/-- The visible operation at a position. -/
def operationAt? (p : Program) (position : Nat) : Option Operation :=
  p.order[position]?.bind p.operation?

/-- The position of a visible operation. -/
def positionOf? (p : Program) (id : Nat) : Option Nat := p.order.idxOf? id

/-- The number of visible operations. -/
def size (p : Program) : Nat := p.order.length

/-- Whether no operation is visible. -/
def isEmpty (p : Program) : Bool := p.order.isEmpty

/-- The sum of the declared costs of the visible operations. -/
def staticCycles (p : Program) : Nat :=
  p.operations.foldl (fun total op => total + op.cycles.toNat) 0

/-- The largest layer of a visible operation; a source program is at level zero. -/
def level (p : Program) : Nat := p.operations.foldl (fun level op => max level op.layer) 0

/-- The counters in use: the inputs, the result, and those of the visible operations. -/
def usedVars (p : Program) : List Variable :=
  p.inputs ++ .result :: p.operations.flatMap (·.instruction.vars)

/-- The labels in use: those that visible operations carry or jump to. -/
def usedLabels (p : Program) : List Label := p.operations.flatMap Operation.labels

/-- The counters in use, as a sorted set. -/
def vars (p : Program) : List Variable := sortedSet p.usedVars

/-- The labels in use, as a sorted set. -/
def labels (p : Program) : List Label := sortedSet p.usedLabels

/-- The input counters that lines mention, as a sorted set. -/
def mentionedInputs (lines : List Line) : List Variable :=
  sortedSet ((lines.flatMap (·.instruction.vars)).filter Variable.isInput)

/-- A line at a place of the arena, as part of the source. -/
def sourceOperation (id : Nat) (line : Line) : Operation :=
  { id, label := line.label, instruction := line.instruction,
    cycles := line.instruction.cycles, parent := none, layer := 0 }

/-- The program that is written down as lines.  Without a list of inputs it takes the input
counters that its lines mention. -/
def ofLines (name : String) (displayName : Option String) (inputs : Option (List Variable))
    (functions : Option (List Program)) (lines : List Line) : Program :=
  { name, displayName,
    inputs := inputs.getD (mentionedInputs lines)
    arena := (lines.mapIdx sourceOperation).toArray
    order := List.range lines.length
    functions }

/-- The level is bounded by what bounds all visible layers. -/
theorem level_le_iff {p : Program} {n : Nat} : p.level ≤ n ↔ ∀ op ∈ p.operations, op.layer ≤ n := by
  rw [level, foldl_max_le_iff]
  exact and_iff_right (Nat.zero_le n)

/-- The counters of a program are those in use, each listed once. -/
theorem mem_vars {p : Program} {v : Variable} : v ∈ p.vars ↔ v ∈ p.usedVars :=
  mem_sortedSet

/-- So are its labels. -/
theorem mem_labels {p : Program} {label : Label} : label ∈ p.labels ↔ label ∈ p.usedLabels :=
  mem_sortedSet

/-- Every program has the result among its counters. -/
theorem result_mem_vars (p : Program) : Variable.result ∈ p.vars := by
  simp [mem_vars, usedVars]

/-- And its inputs, used or not. -/
theorem mem_vars_of_mem_inputs {p : Program} {v : Variable} (h : v ∈ p.inputs) :
    v ∈ p.vars := by
  simp [mem_vars, usedVars, h]

end Program

end CounterMachine
