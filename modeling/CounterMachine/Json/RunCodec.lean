import CounterMachine.Execution.Run
import CounterMachine.Json.Codec

/-! # Traces and outcomes as JSON

Bindings are an object whose members are named by variables, in the order of the variables.  Of
two members that name one variable the later counts. -/

namespace CounterMachine

instance : JsonCodec Bindings where
  encode b := .object (b.toList.map fun pair => (pair.1.text, .word pair.2))
  decode
    | .object members => do
      let pairs ← members.mapM fun (name, value) =>
        return ((← decode (.string name) : Variable), (← value.asWord : Value))
      return .ofPairs pairs
    | _ => .error .malformed

instance : JsonCodec TraceStep where
  encode step := .object [("index", .nat step.index), ("snapshot", encode step.snapshot)]
  decode j := do
    let fields ← j.fields ["index", "snapshot"]
    return ⟨← fieldAt fields 0 Json.asSize, ← fieldAt fields 1 decode⟩

instance : JsonCodec Trace where
  encode trace := .object [("steps", .array (trace.steps.map encode))]
  decode j := do
    let fields ← j.fields ["steps"]
    return ⟨← fieldAt fields 0 (Json.asList decode)⟩

instance : JsonCodec RunOutcome where
  encode outcome := .object [("trace", encode outcome.trace), ("result", .word outcome.result),
    ("cycles", .word outcome.cycles), ("variables", encode outcome.bindings)]
  decode j := do
    let fields ← j.fields ["trace", "result", "cycles", "variables"]
    return { trace := ← fieldAt fields 0 decode, result := ← fieldAt fields 1 Json.asWord,
             cycles := ← fieldAt fields 2 Json.asWord, bindings := ← fieldAt fields 3 decode }

end CounterMachine
