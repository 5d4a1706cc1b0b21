/-! # Faults in identifiers

A text that is no variable, or no label, is refused whole.  The fault keeps the text as it was
given, blanks included. -/

namespace CounterMachine

/-- Why a text is not an identifier. -/
inductive IdentifierError where
  /-- The text does not name a variable. -/
  | invalidVariable (text : String)
  /-- The text does not name a label. -/
  | invalidLabel (text : String)
  deriving DecidableEq, Repr

/-- The report shown for a fault. -/
def IdentifierError.message : IdentifierError → String
  | .invalidVariable text => s!"Invalid variable '{text}': expected y, x<n> or z<n>"
  | .invalidLabel text => s!"Invalid label '{text}': expected L<n>, EXIT or an empty string"

end CounterMachine
