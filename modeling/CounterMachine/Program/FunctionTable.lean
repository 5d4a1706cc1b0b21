import CounterMachine.Instruction.Degree
import CounterMachine.Program.Basic

/-! # Function tables

A run or an expansion finds the functions that are called in a table.

* `FunctionTable.find?`    the function of a name; of two with one name the later is meant
* `FunctionTable.names`    the names, as a sorted set
* `FunctionTable.degrees`  the degree of every function
* `Program.degree`         the degree of a program, in its own table

The degree of a function is the largest degree of its operations, and these ask for the degrees
of the functions they call.  `settle` walks along the calls, depth first, and writes a degree
down once the body has been walked through.  A function that is met again while its own body is
still being walked through counts as degree zero at that call, and so does a function that is
not in the table. -/

namespace CounterMachine

/-- The functions that can be called. -/
structure FunctionTable where
  functions : List Program
  deriving Inhabited

/-- The degree of a program under given degrees of functions. -/
def Program.degreeUnder (degreeOf : String → Nat) (p : Program) : Nat :=
  p.operations.foldl (fun degree op => max degree (op.instruction.degree degreeOf)) 0

/-- The degree is bounded by what bounds the degrees of all operations. -/
theorem Program.degreeUnder_le_iff {degreeOf : String → Nat} {p : Program} {n : Nat} :
    p.degreeUnder degreeOf ≤ n ↔ ∀ op ∈ p.operations, op.instruction.degree degreeOf ≤ n := by
  rw [degreeUnder, foldl_max_le_iff]
  exact and_iff_right (Nat.zero_le n)

/-- The functions that a program calls, in the order of its visible operations. -/
def Program.callees (p : Program) : List String :=
  p.operations.flatMap (·.instruction.callees)

namespace FunctionTable

/-- The table without functions. -/
def empty : FunctionTable := ⟨[]⟩

/-- The function of a name. -/
def find? (table : FunctionTable) (name : String) : Option Program :=
  table.functions.reverse.find? (·.name == name)

/-- Whether a function of a name is in the table. -/
def contains (table : FunctionTable) (name : String) : Bool := (table.find? name).isSome

/-- The names of the functions, as a sorted set. -/
def names (table : FunctionTable) : List String := sortedSet (table.functions.map (·.name))

/-- The number of functions that can be found. -/
def size (table : FunctionTable) : Nat := table.names.length

/-- The table with one more function, which replaces one of the same name. -/
def insert (table : FunctionTable) (function : Program) : FunctionTable :=
  ⟨table.functions ++ [function]⟩

/-- Degrees of functions that are written down so far, the latest first. -/
abbrev Degrees := List (String × Nat)

/-- The degree that is written down for a function, or zero. -/
def Degrees.of (degrees : Degrees) (name : String) : Nat := (degrees.lookup name).getD 0

/-- Writes down the degree of a function, after the degrees of the functions it calls.  The
functions on `path` are the ones whose bodies are being walked through, and `depth` bounds how
many more can join them. -/
def settle (table : FunctionTable) :
    (depth : Nat) → (path : List String) → Degrees → (name : String) → Degrees
  | 0, _, degrees, _ => degrees
  | depth + 1, path, degrees, name =>
    if (degrees.lookup name).isSome || path.contains name then
      degrees
    else
      match table.find? name with
      | none => degrees
      | some function =>
        -- Callees are settled first; one that is still on the path is not written down yet and
        -- counts as zero.
        let degrees := function.callees.foldl (settle table depth (name :: path)) degrees
        (name, function.degreeUnder degrees.of) :: degrees

/-- The degrees of the functions of the table.  The functions are visited by name. -/
def degrees (table : FunctionTable) : Degrees :=
  table.names.foldl (settle table table.size []) []

/-- The degree of a function of the table. -/
def degree? (table : FunctionTable) (name : String) : Option Nat := table.degrees.lookup name

end FunctionTable

namespace Program

/-- The functions that the program may call. -/
def callable (p : Program) : FunctionTable := ⟨p.functions.getD []⟩

/-- The function of a name, in the program's own table. -/
def function? (p : Program) (name : String) : Option Program := p.callable.find? name

/-- The program with another table. -/
def withFunctions (p : Program) (table : FunctionTable) : Program :=
  { p with functions := some table.functions }

/-- The degree of a program, with the functions of a table. -/
def degreeIn (table : FunctionTable) (p : Program) : Nat := p.degreeUnder table.degrees.of

/-- The degree of a program, with the functions that it may call. -/
def degree (p : Program) : Nat := p.degreeIn p.callable

end Program

end CounterMachine
