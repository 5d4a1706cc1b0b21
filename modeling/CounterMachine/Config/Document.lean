import CounterMachine.Config.Basic
import CounterMachine.Yaml.Reader

/-! # Settings in documents

Settings are written down as a mapping with two keys.  A key that is left out leaves its setting
as it is, other keys mean nothing, and a key that is given twice makes the document invalid.  An
empty document describes the standard settings. -/

namespace CounterMachine

namespace Config

/-- The setting of a name, among entries with texts as keys. -/
def setting {α : Type} (entries : List (String × Yaml)) (name : String) (standard : α)
    (value : Yaml → Option α) : Option α :=
  match entries.filter (·.1 == name) with
  | [] => some standard
  | [entry] => value entry.2
  | _ => none

/-- The settings that a document describes. -/
def ofDocument (document : Yaml) : Option Config :=
  match document with
  | .mapping _ entries => do
    let entries ← entries.mapM fun (key, value) =>
      (document.content key).asString.map fun key => (key, document.content value)
    return { traceSteps := ← setting entries "trace_steps" standard.traceSteps Yaml.asBool,
             logFilter := ← setting entries "log_filter" standard.logFilter Yaml.asString }
  | .scalar _ _ .plain "" => some standard
  | _ => none

/-- The settings that a text describes. -/
def ofYaml (text : String) : Except ConfigError Config :=
  match (Yaml.parse? text).bind ofDocument with
  | some config => .ok config
  | none => .error .malformed

/-- The settings that a file describes, of which the content is given if it can be read. -/
def ofFile (file : String) (content : Option String) : Except ConfigError Config :=
  match content with
  | none => .error (.unreadable file)
  | some text =>
    match ofYaml text with
    | .ok config => .ok config
    | .error _ => .error (.malformedFile file)

end Config

end CounterMachine
