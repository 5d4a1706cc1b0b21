import CounterMachine.Config.Basic
import CounterMachine.Config.Document
import CounterMachine.Config.Filter
import CounterMachine.Config.Pattern
import CounterMachine.Engine
import CounterMachine.Execution.Bindings
import CounterMachine.Execution.Effect
import CounterMachine.Execution.Environment
import CounterMachine.Execution.Evaluation
import CounterMachine.Execution.Fault
import CounterMachine.Execution.History
import CounterMachine.Execution.Machine
import CounterMachine.Execution.Run
import CounterMachine.Expansion.Collapse
import CounterMachine.Expansion.Expand
import CounterMachine.Expansion.Fault
import CounterMachine.Expansion.Lowering
import CounterMachine.Expansion.Supply
import CounterMachine.Identifier.Fault
import CounterMachine.Identifier.Label
import CounterMachine.Identifier.Variable
import CounterMachine.Instruction.Basic
import CounterMachine.Instruction.Degree
import CounterMachine.Instruction.Renaming
import CounterMachine.Instruction.Text
import CounterMachine.Json.Basic
import CounterMachine.Json.Codec
import CounterMachine.Json.InstructionCodec
import CounterMachine.Json.ProgramCodec
import CounterMachine.Json.Reader
import CounterMachine.Json.RunCodec
import CounterMachine.Json.Writer
import CounterMachine.Program.Basic
import CounterMachine.Program.Compaction
import CounterMachine.Program.FunctionTable
import CounterMachine.Program.Listing
import CounterMachine.Program.Provenance
import CounterMachine.SortedSet
import CounterMachine.Text.Blank
import CounterMachine.Text.Decimal
import CounterMachine.Text.Hexadecimal
import CounterMachine.Text.Letter
import CounterMachine.Value
import CounterMachine.Yaml.Basic
import CounterMachine.Yaml.Layout
import CounterMachine.Yaml.Reader
import CounterMachine.Yaml.Scalar.Block
import CounterMachine.Yaml.Scalar.Gap
import CounterMachine.Yaml.Scalar.Plain
import CounterMachine.Yaml.Scalar.Quoted
import CounterMachine.Yaml.Spot
import CounterMachine.Yaml.Token
import CounterMachine.Proofs.Forest.Basic
import CounterMachine.Proofs.Reachable.CollapseAll
import CounterMachine.Proofs.Reachable.Faults
import CounterMachine.Proofs.Reachable.FreshNames
import CounterMachine.Proofs.Reachable.Shape
import CounterMachine.Proofs.Semantics.Equivalence
import CounterMachine.Proofs.Semantics.Resolution
import CounterMachine.Proofs.Semantics.Surplus
import CounterMachine.Proofs.Degree.Levels
import CounterMachine.Proofs.Degree.Paths
import CounterMachine.Proofs.Degree.Walk
import CounterMachine.Proofs.Execution.Cost
import CounterMachine.Proofs.Execution.Keys
import CounterMachine.Proofs.Reachable.Alike
import CounterMachine.Proofs.Reachable.LevelLaws
import CounterMachine.Proofs.Lowering.Range
import CounterMachine.Proofs.Reachable.Range
import CounterMachine.Proofs.Reachable.OneByOne
import CounterMachine.Proofs.Reachable.Undo
import CounterMachine.Proofs.Execution.Sequence
import CounterMachine.Proofs.Reachable.CollapseSingle
import CounterMachine.Proofs.Reachable.Sweep
import CounterMachine.Proofs.Reachable.Loops
import CounterMachine.Proofs.Execution.Standstill
import CounterMachine.Proofs.Identifier.Grammar
import CounterMachine.Proofs.Instruction.Text
import CounterMachine.Proofs.Text.Words
import CounterMachine.Proofs.Json.Text
import CounterMachine.Proofs.Json.RoundTrip
