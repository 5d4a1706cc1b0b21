import CounterMachine.Yaml.Spot

/-! # Gaps inside scalars

Between two words of a scalar stand blanks or line breaks.  Blanks within a line are kept.  Where
a line is broken, the blanks around the break are dropped, a single line feed becomes a space, and
of more breaks the first is dropped if it is a line feed. -/

namespace CounterMachine.Yaml

/-- What stands between two words of a scalar. -/
inductive Gap where
  /-- Blanks within a line, the latest first. -/
  | blanks (read : List Char)
  /-- The first line break, which is missing if it is escaped, and the further ones, the latest
  first. -/
  | breaks (first : Option Char) (further : List Char)
  deriving DecidableEq, Repr

namespace Gap

/-- No gap at all. -/
def empty : Gap := blanks []

def isEmpty : Gap → Bool
  | blanks read => read.isEmpty
  | breaks _ _ => false

/-- Whether a line is broken. -/
def isBroken : Gap → Bool
  | blanks _ => false
  | breaks _ _ => true

/-- A gap with one more blank or line break. -/
def push (c : Char) : Gap → Gap
  | blanks read => if isBreak c then breaks (some c) [] else blanks (c :: read)
  | breaks first further => breaks first (if isBreak c then c :: further else further)

/-- The characters that a gap stands for, the latest first. -/
def folded : Gap → List Char
  | blanks read => read
  | breaks none further => further
  | breaks (some '\n') [] => [' ']
  | breaks (some '\n') further => further
  | breaks (some first) further => further ++ [first]

end Gap

end CounterMachine.Yaml
