import CounterMachine.Instruction.Basic
import CounterMachine.Json.Codec

/-! # Instructions as JSON

An instruction is a form: its tag names the instruction and its content is a record of what the
instruction works on.  Operands and arguments are forms as well, and a call is a record. -/

namespace CounterMachine

instance : JsonCodec InstructionKind where
  encode
    | .basic => .string "Basic"
    | .synthetic => .string "Synthetic"
  decode j := do
    match ← j.asTag with
    | "Basic" => .ok .basic
    | "Synthetic" => .ok .synthetic
    | _ => .error .malformed

instance : JsonCodec Operand where
  encode
    | .var v => .tag "Variable" (encode v)
    | .const value => .tag "Constant" (.word value)
  decode j := do
    match ← j.tagged with
    | ("Variable", v) => return .var (← decode v)
    | ("Constant", value) => return .const (← value.asWord)
    | _ => .error .malformed

/-- The JSON form of a call with encoded arguments. -/
def Json.ofCall (function : String) (args : List Json) : Json :=
  .object [("function", .string function), ("args", .array args)]

/-- The fields of a call. -/
def callFields : List String := ["function", "args"]

mutual

/-- The JSON form of an argument. -/
def Argument.encode : Argument → Json
  | .var v => .tag "Variable" (.string v.text)
  | .nested function args => .tag "Call" (.ofCall function (Argument.encodeList args))

/-- The JSON forms of a list of arguments. -/
def Argument.encodeList : List Argument → List Json
  | [] => []
  | arg :: rest => arg.encode :: Argument.encodeList rest

end

/-- Decodes an argument whose nesting is below `depth`. -/
def Argument.decodeWithin : (depth : Nat) → Json → Decoded Argument
  | 0, _ => .error .malformed
  | depth + 1, j => do
    match ← j.tagged with
    | ("Variable", v) => return .var (← decode v)
    | ("Call", call) =>
      let fields ← call.fields callFields
      return .nested (← fieldAt fields 0 Json.asString)
        (← fieldAt fields 1 (Json.asList (Argument.decodeWithin depth)))
    | _ => .error .malformed

instance : JsonCodec Argument where
  encode := Argument.encode
  decode j := Argument.decodeWithin (j.depth + 1) j

instance : JsonCodec Call where
  encode call := .ofCall call.function (Argument.encodeList call.args)
  decode j := do
    let fields ← j.fields callFields
    return ⟨← fieldAt fields 0 Json.asString, ← fieldAt fields 1 (Json.asList decode)⟩

namespace Instruction

/-- The JSON form of an instruction on one counter. -/
def encodeVar (tag : String) (v : Variable) : Json :=
  .tag tag (.object [("var", JsonCodec.encode v)])

/-- The JSON form of a conditional jump on one counter. -/
def encodeJump (tag : String) (v : Variable) (target : Label) : Json :=
  .tag tag (.object [("var", JsonCodec.encode v), ("target", JsonCodec.encode target)])

/-- The JSON form of an instruction. -/
def encode : Instruction → Json
  | neutral v => encodeVar "Neutral" v
  | increase v => encodeVar "Increase" v
  | decrease v => encodeVar "Decrease" v
  | jumpNotZero v target => encodeJump "JumpNotZero" v target
  | zero v => encodeVar "ZeroVariable" v
  | assign dst src =>
    .tag "Assignment" (.object [("dst", JsonCodec.encode dst), ("src", JsonCodec.encode src)])
  | assignConstant v value =>
    .tag "ConstantAssignment" (.object [("var", JsonCodec.encode v), ("value", .word value)])
  | goto target => .tag "GotoLabel" (.object [("target", JsonCodec.encode target)])
  | jumpZero v target => encodeJump "JumpZero" v target
  | jumpEqual v rhs target =>
    .tag "JumpEqual" (.object [("var", JsonCodec.encode v), ("rhs", JsonCodec.encode rhs),
      ("target", JsonCodec.encode target)])
  | quote dst call =>
    .tag "Quote" (.object [("dst", JsonCodec.encode dst), ("call", JsonCodec.encode call)])
  | jumpEqualCall v call target =>
    .tag "JumpEqualFunction" (.object [("var", JsonCodec.encode v),
      ("call", JsonCodec.encode call), ("target", JsonCodec.encode target)])

/-- Decodes the record of an instruction on one counter. -/
def decodeVar (build : Variable → Instruction) (content : Json) : Decoded Instruction := do
  let fields ← content.fields ["var"]
  return build (← fieldAt fields 0 JsonCodec.decode)

/-- Decodes the record of a conditional jump on one counter. -/
def decodeJump (build : Variable → Label → Instruction) (content : Json) :
    Decoded Instruction := do
  let fields ← content.fields ["var", "target"]
  return build (← fieldAt fields 0 JsonCodec.decode) (← fieldAt fields 1 JsonCodec.decode)

/-- Decodes an instruction. -/
def decode (j : Json) : Decoded Instruction := do
  match ← j.tagged with
  | ("Neutral", content) => decodeVar neutral content
  | ("Increase", content) => decodeVar increase content
  | ("Decrease", content) => decodeVar decrease content
  | ("JumpNotZero", content) => decodeJump jumpNotZero content
  | ("ZeroVariable", content) => decodeVar zero content
  | ("Assignment", content) =>
    let fields ← content.fields ["dst", "src"]
    return assign (← fieldAt fields 0 JsonCodec.decode) (← fieldAt fields 1 JsonCodec.decode)
  | ("ConstantAssignment", content) =>
    let fields ← content.fields ["var", "value"]
    return assignConstant (← fieldAt fields 0 JsonCodec.decode) (← fieldAt fields 1 Json.asWord)
  | ("GotoLabel", content) =>
    let fields ← content.fields ["target"]
    return goto (← fieldAt fields 0 JsonCodec.decode)
  | ("JumpZero", content) => decodeJump jumpZero content
  | ("JumpEqual", content) =>
    let fields ← content.fields ["var", "rhs", "target"]
    return jumpEqual (← fieldAt fields 0 JsonCodec.decode) (← fieldAt fields 1 JsonCodec.decode)
      (← fieldAt fields 2 JsonCodec.decode)
  | ("Quote", content) =>
    let fields ← content.fields ["dst", "call"]
    return quote (← fieldAt fields 0 JsonCodec.decode) (← fieldAt fields 1 JsonCodec.decode)
  | ("JumpEqualFunction", content) =>
    let fields ← content.fields ["var", "call", "target"]
    return jumpEqualCall (← fieldAt fields 0 JsonCodec.decode)
      (← fieldAt fields 1 JsonCodec.decode) (← fieldAt fields 2 JsonCodec.decode)
  | _ => .error .malformed

/-- Decodes an instruction whose record is an object, so that its fields are named. -/
def decodeNamed (j : Json) : Decoded Instruction := do
  match ← j.tagged with
  | (_, .object _) => decode j
  | _ => .error .malformed

end Instruction

instance : JsonCodec Instruction where
  encode := Instruction.encode
  decode := Instruction.decode

end CounterMachine
