import CounterMachine.Expansion.Fault
import CounterMachine.Expansion.Supply
import CounterMachine.Instruction.Renaming
import CounterMachine.Program.FunctionTable

/-! # Lowering

Every synthetic instruction stands for a sequence of simpler lines, its *body*.  A body works on
fresh counters and labels, so that it changes nothing but what the instruction itself changes.

* `Instruction.body`   the lines that an instruction stands for, and the supply after them
* `inlineCall`         the lines of a call: arguments in, the function's own lines, result out
* `Line.lower`         the body of a line, whose label moves to the first line of the body

The label of a line moves only where the first line of the body has none of its own. -/

namespace CounterMachine

/-- The largest constant that is written out as one instruction per unit. -/
def maxUnrolled : Value := 65536

/-- How often a constant repeats what it is written out as. -/
def unrolled (value : Value) : Except ExpansionError Nat :=
  if maxUnrolled < value then .error (.constantTooLarge value maxUnrolled) else .ok value.toNat

/-- A line without a label. -/
def Line.plain (i : Instruction) : Line := ⟨.empty, i⟩

/-- Sets a counter to zero: take one away until nothing is left. -/
def zeroBody (head : Label) (v : Variable) : List Line :=
  [⟨head, .decrease v⟩, .plain (.jumpNotZero v head)]

/-- Jumps: a counter that is one is not zero. -/
def gotoBody (one : Variable) (target : Label) : List Line :=
  [.plain (.increase one), .plain (.jumpNotZero one target)]

/-- Copies a counter: move it to `spare`, then move `spare` back to both. -/
def assignBody (spare : Variable) (drain restore done : Label) (dst src : Variable) :
    List Line :=
  [.plain (.zero dst),
    .plain (.jumpNotZero src drain),
    .plain (.goto done),
    ⟨drain, .decrease src⟩,
    .plain (.increase spare),
    .plain (.jumpNotZero src drain),
    ⟨restore, .decrease spare⟩,
    .plain (.increase dst),
    .plain (.increase src),
    .plain (.jumpNotZero spare restore),
    ⟨done, .neutral dst⟩]

/-- Sets a counter to a constant: set it to zero, then count up. -/
def assignConstantBody (count : Nat) (v : Variable) : List Line :=
  .plain (.zero v) :: List.replicate count (.plain (.increase v))

/-- Jumps where a counter is zero: skip the jump where it is not. -/
def jumpZeroBody (skip : Label) (v : Variable) (target : Label) : List Line :=
  [.plain (.jumpNotZero v skip),
    .plain (.goto target),
    ⟨skip, .neutral .result⟩]

/-- Jumps where a counter equals a constant: count a copy down, which has to reach zero with the
last unit and not before. -/
def jumpEqualConstantBody (copy : Variable) (differ : Label) (count : Nat) (v : Variable)
    (target : Label) : List Line :=
  .plain (.assign copy v) ::
    (List.replicate count
      [Line.plain (.jumpZero copy differ), Line.plain (.decrease copy)]).flatten ++
    [.plain (.jumpNotZero copy differ),
      .plain (.goto target),
      ⟨differ, .neutral .result⟩]

/-- Jumps where two counters are equal: count copies of both down together. -/
def jumpEqualVariableBody (left right : Variable) (differ step leftDone : Label)
    (v w : Variable) (target : Label) : List Line :=
  [.plain (.assign left v),
    .plain (.assign right w),
    ⟨step, .jumpZero left leftDone⟩,
    .plain (.jumpZero right differ),
    .plain (.decrease left),
    .plain (.decrease right),
    .plain (.goto step),
    ⟨leftDone, .jumpZero right target⟩,
    ⟨differ, .neutral .result⟩]

/-- The fresh counter for a function's counter, which is one of a list. -/
def freshVariable (s : Supply) (vars : List Variable) (v : Variable) : Variable :=
  match vars.idxOf? v with
  | some i => s.workAt (i + 1)
  | none => v

/-- The label that the line after an inlined function carries. -/
def returnLabel (s : Supply) (labels : List Label) : Label := s.labelAt (labels.length + 1)

/-- The fresh label for a function's label, which is one of a list.  Leaving the function means
going to the line after it. -/
def freshLabel (s : Supply) (labels : List Label) : Label → Label
  | .exit => returnLabel s labels
  | label =>
    match labels.idxOf? label with
    | some i => s.labelAt (i + 1)
    | none => label

/-- The line that passes an argument. -/
def bindArgument (dst : Variable) : Argument → Line
  | .var src => .plain (.assign dst src)
  | .nested function args => .plain (.quote dst ⟨function, args⟩)

/-- The lines of a call of a function.  Arguments go into fresh counters for the inputs as far as
there are inputs, every other counter of the function is set to zero, the function's lines follow
under fresh names, and `final` uses the result. -/
def inlineCall (callee : Program) (args : List Argument) (final : Variable → Instruction)
    (s : Supply) : List Line × Supply :=
  let names := callee.vars
  let labels := callee.labels.filter (·.number?.isSome)
  let vars := freshVariable s names
  let relabel := freshLabel s labels
  -- An input that no argument reaches starts at zero, like every counter that is no input.
  let bound := callee.inputs.take args.length
  let arguments := List.zipWith (fun input arg => bindArgument (vars input) arg) callee.inputs args
  let others := (names.filter (!bound.contains ·)).map fun v => Line.plain (.zero (vars v))
  let lines := callee.operations.map fun op =>
    Line.mk (relabel op.label) (op.instruction.rename vars relabel)
  (arguments ++ others ++ lines ++ [⟨returnLabel s labels, final (vars .result)⟩],
    s.take (labels.length + 1) names.length)

/-- The lines of a call, found in a table. -/
def inlineNamed (table : FunctionTable) (call : Call) (final : Variable → Instruction)
    (s : Supply) : Except ExpansionError (List Line × Supply) :=
  match table.find? call.function with
  | none => .error (.unknownFunction call.function)
  | some callee => .ok (inlineCall callee call.args final s)

/-- The lines that an instruction stands for, and the supply after them.  A basic instruction
stands for itself.  `label` is the label of the instruction, which a counting loop can use as its
head. -/
def Instruction.body (table : FunctionTable) (label : Label) (i : Instruction) (s : Supply) :
    Except ExpansionError (List Line × Supply) :=
  match i with
  | neutral _ | increase _ | decrease _ | jumpNotZero _ _ => .ok ([.plain i], s)
  | zero v =>
    -- The loop goes back to the label of the line itself, where it has a number.
    if label.number?.isSome then
      .ok (zeroBody label v, s)
    else
      .ok (zeroBody (s.labelAt 1) v, s.take 1 0)
  | goto target => .ok (gotoBody (s.workAt 1) target, s.take 0 1)
  | assign dst src =>
    if dst = src then
      .ok ([.plain (.neutral dst)], s)
    else
      .ok (assignBody (s.workAt 1) (s.labelAt 1) (s.labelAt 2) (s.labelAt 3) dst src, s.take 3 1)
  | assignConstant v value => do
    let count ← unrolled value
    .ok (assignConstantBody count v, s)
  | jumpZero v target => .ok (jumpZeroBody (s.labelAt 1) v target, s.take 1 0)
  | jumpEqual v (.const value) target => do
    let count ← unrolled value
    .ok (jumpEqualConstantBody (s.workAt 1) (s.labelAt 1) count v target, s.take 1 1)
  | jumpEqual v (.var w) target =>
    .ok (jumpEqualVariableBody (s.workAt 1) (s.workAt 2) (s.labelAt 1) (s.labelAt 2) (s.labelAt 3)
      v w target, s.take 3 2)
  | quote dst call => inlineNamed table call (fun answer => .assign dst answer) s
  | jumpEqualCall v call target =>
    inlineNamed table call (fun answer => .jumpEqual v (.var answer) target) s

/-- Puts a label on the first line, unless that has one. -/
def attachLabel (label : Label) : List Line → List Line
  | [] => []
  | first :: rest => (if first.label.isEmpty then { first with label } else first) :: rest

/-- The lines that a line stands for, and the supply after them. -/
def Line.lower (table : FunctionTable) (line : Line) (s : Supply) :
    Except ExpansionError (List Line × Supply) :=
  (line.instruction.body table line.label s).map fun body =>
    (attachLabel line.label body.1, body.2)

end CounterMachine
