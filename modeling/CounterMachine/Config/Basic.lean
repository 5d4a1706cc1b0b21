import CounterMachine.Config.Filter
import CounterMachine.Json.Codec

/-! # Engine configuration

The engine has two settings: whether every executed step is reported, and which messages are
shown at all.

* `Config.ofEnvironment`   the settings that two environment variables make
* `Config.checkFilter`     whether the messages can be filtered as the settings say
* `ConfigError`            why settings cannot be had -/

namespace CounterMachine

/-- The settings of the engine. -/
structure Config where
  traceSteps : Bool := false
  logFilter : String := "info"
  deriving DecidableEq, Repr, Inhabited

/-- Why settings cannot be had. -/
inductive ConfigError where
  /-- A text is no description of settings. -/
  | malformed
  /-- A file cannot be read. -/
  | unreadable (file : String)
  /-- A file holds no description of settings. -/
  | malformedFile (file : String)
  /-- A text is no log filter. -/
  | invalidFilter (filter : String)
  deriving DecidableEq, Repr

/-- The report shown for a text that is no description of settings. -/
def malformedReport : String := "Failed to parse engine configuration"

/-- The report shown for a fault. -/
def ConfigError.message : ConfigError → String
  | malformed => malformedReport
  | unreadable file => s!"Failed to read {file}"
  | malformedFile file =>
    s!"Invalid configuration in {file}: {malformedReport}"
  | invalidFilter filter => s!"Invalid log filter '{filter}'"

/-- The settings that nobody has changed. -/
def Config.standard : Config := {}

/-- Whether the text of an environment variable switches something on: one of three words, in
any case.  No letter outside ASCII has one of their letters as its lower case. -/
def isSwitchedOn (text : String) : Bool :=
  ["true", "1", "yes"].any fun word => text.toList.map Char.toLower == word.toList

/-- The settings that two environment variables make; a variable that is not set leaves its
setting as it is. -/
def Config.ofEnvironment (traceSteps logFilter : Option String) : Config :=
  { traceSteps := (traceSteps.map isSwitchedOn).getD Config.standard.traceSteps
    logFilter := logFilter.getD Config.standard.logFilter }

instance : JsonCodec Config where
  encode config :=
    .object [("trace_steps", .bool config.traceSteps), ("log_filter", .string config.logFilter)]
  decode j := do
    let fields ← j.fields ["trace_steps", "log_filter"]
    return { traceSteps := ← fieldAtD fields 0 Config.standard.traceSteps Json.asBool,
             logFilter := ← fieldAtD fields 1 Config.standard.logFilter Json.asString }

/-- Takes the filter of the settings into use. -/
def Config.checkFilter (config : Config) : Except ConfigError Unit :=
  if Filter.isFilter config.logFilter then .ok () else .error (.invalidFilter config.logFilter)

end CounterMachine
