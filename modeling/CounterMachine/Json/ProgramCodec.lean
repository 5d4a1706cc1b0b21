import CounterMachine.Json.InstructionCodec
import CounterMachine.Program.FunctionTable
import CounterMachine.Program.Listing

/-! # Operations and programs as JSON

Operations and rows of a listing are records.  A program is decoded from what it is written down
as: its name, a name for readers, its inputs, its labelled instructions and its functions. -/

namespace CounterMachine

instance : JsonCodec Operation where
  encode op := .object [("id", .nat op.id), ("label", encode op.label),
    ("instruction", encode op.instruction), ("cycles", .word op.cycles),
    ("parent", (op.parent.map Json.nat).getD .null), ("layer", .nat op.layer)]
  decode j := do
    let fields ← j.fields ["id", "label", "instruction", "cycles", "parent", "layer"]
    return { id := ← fieldAt fields 0 Json.asIndex, label := ← fieldAt fields 1 decode,
             instruction := ← fieldAt fields 2 decode, cycles := ← fieldAt fields 3 Json.asWord,
             parent := ← fieldAtD fields 4 none (Json.asOption Json.asIndex),
             layer := ← fieldAt fields 5 Json.asIndex }

instance : JsonCodec ListingRow where
  encode row := .object [("number", .nat row.number), ("id", .nat row.id),
    ("kind", encode row.kind), ("label", .string row.label), ("text", .string row.text),
    ("cycles", .word row.cycles)]
  decode j := do
    let fields ← j.fields ["number", "id", "kind", "label", "text", "cycles"]
    return { number := ← fieldAt fields 0 Json.asSize, id := ← fieldAt fields 1 Json.asIndex,
             kind := ← fieldAt fields 2 decode, label := ← fieldAt fields 3 Json.asString,
             text := ← fieldAt fields 4 Json.asString, cycles := ← fieldAt fields 5 Json.asWord }

/-- Decodes a labelled instruction: an array of the two, the instruction with named fields. -/
def Line.decode : Json → Decoded Line
  | .array [label, instruction] => do
    return ⟨← JsonCodec.decode label, ← Instruction.decodeNamed instruction⟩
  | _ => .error .malformed

/-- Decodes a program whose nesting is below `depth`. -/
def Program.decodeWithin : (depth : Nat) → Json → Decoded Program
  | 0, _ => .error .malformed
  | depth + 1, j => do
    let name ← j.required "name" Json.asString
    let displayName ← j.optional "user_string" Json.asString
    let inputs ← j.optional "inputs" (Json.asList JsonCodec.decode)
    let lines ← j.required "ops" (Json.asList Line.decode)
    let functions ← j.optional "functions" (Json.asList (Program.decodeWithin depth))
    return Program.ofLines name displayName inputs functions lines

/-- Decodes a program. -/
def Program.decode (j : Json) : Decoded Program := Program.decodeWithin (j.depth + 1) j

/-- Decodes a table: an array of programs. -/
def FunctionTable.decode (j : Json) : Decoded FunctionTable :=
  (Json.asList Program.decode j).map FunctionTable.mk

end CounterMachine
