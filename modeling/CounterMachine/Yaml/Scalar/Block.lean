import CounterMachine.Yaml.Spot

/-! # Block scalars

A block scalar is a number of indented lines below a header.  In the literal form the lines stay
as they are, in the folded form a line feed between two lines that do not start with a blank
becomes a space.  The header can say how far the lines are indented and what becomes of the line
breaks at the end.

* `readHeader`   the header of a block scalar
* `readBlock`    the text below it -/

namespace CounterMachine.Yaml

/-- What becomes of the line breaks at the end of a block scalar. -/
inductive Chomping where
  /-- All are dropped. -/
  | strip
  /-- The first is kept. -/
  | clip
  /-- All are kept. -/
  | keep
  deriving DecidableEq, Repr

/-- The header of a block scalar: what becomes of its end, and how much farther than the block
around it its lines are indented, if that is given. -/
structure Header where
  chomping : Chomping
  indentation : Option Nat
  deriving DecidableEq, Repr

/-- The chomping that is given here, if there is one. -/
def readChomping : List Spot → Option Chomping × List Spot
  | [] => (none, [])
  | s :: rest =>
    if s.char = '+' then (some .keep, rest)
    else if s.char = '-' then (some .strip, rest)
    else (none, s :: rest)

/-- The indentation that is given here, if there is one; it is not zero. -/
def readIndentation : List Spot → Option (Option Nat × List Spot)
  | [] => some (none, [])
  | s :: rest =>
    if s.char = '0' then none
    else if s.char.isDigit then some (some (s.char.toNat - '0'.toNat), rest)
    else some (none, s :: rest)

/-- Reads a header behind its indicator: the chomping and the indentation in either order, and
nothing but a comment behind them. -/
def readHeader (text : List Spot) : Option (Header × List Spot) := do
  let (first, text) := readChomping text
  let (indentation, text) ← readIndentation text
  let (second, text) := if first.isNone && indentation.isSome then readChomping text
    else (none, text)
  return (⟨((first.or second).getD .clip), indentation⟩, ← nextLine text)

/-- The indentation of a block scalar that does not give it: that of the first line that is not
empty, or of an empty line before it that is longer, and at least `least`.  The last line of a
text counts even if it is empty.  There is none if a tab stands in the indentation. -/
def detectIndentation (least : Nat) : List Spot → Option Nat
  | [] => some least
  | s :: rest =>
    if s.char = ' ' then detectIndentation (max least (s.column + 1)) rest
    else if s.char = '\t' then none
    else if isBreak s.char then detectIndentation least rest
    else some least

/-- A block scalar as far as it has been read. -/
structure BlockScalar where
  /-- The characters of the lines, the latest first. -/
  read : List Char := []
  /-- Whether the latest line is still being read. -/
  inLine : Bool := false
  /-- Whether the latest line starts with a blank. -/
  startsBlank : Bool := false
  /-- The line break behind the latest line. -/
  lineBreak : Option Char := none
  /-- The line breaks of empty lines behind it, the latest first. -/
  emptyLines : List Char := []

namespace BlockScalar

/-- The characters of the line breaks before a further line, the latest first. -/
def folded (b : BlockScalar) (literal startsBlank : Bool) : List Char :=
  if !literal && b.lineBreak = some '\n' && !b.startsBlank && !startsBlank then
    if b.emptyLines.isEmpty then [' '] else b.emptyLines
  else
    b.emptyLines ++ b.lineBreak.toList

/-- The block scalar with the first character of a further line. -/
def startLine (b : BlockScalar) (literal : Bool) (c : Char) : BlockScalar :=
  { read := c :: (b.folded literal (isBlank c) ++ b.read), inLine := true
    startsBlank := isBlank c }

/-- The text of a block scalar that has been read to its end. -/
def text (b : BlockScalar) (chomping : Chomping) : String :=
  String.ofList <| List.reverse <| match chomping with
    | .strip => b.read
    | .clip => b.lineBreak.toList ++ b.read
    | .keep => b.emptyLines ++ (b.lineBreak.toList ++ b.read)

end BlockScalar

/-- Reads the lines of a block scalar that stand at column `indentation` or behind it. -/
def readLines (literal : Bool) (indentation : Nat) (b : BlockScalar) :
    List Spot → Option (BlockScalar × List Spot)
  | [] => some (b, [])
  | s :: rest =>
    let go (b : BlockScalar) := readLines literal indentation b rest
    if b.inLine then
      if isBreak s.char then go { b with inLine := false, lineBreak := some s.char }
      else go { b with read := s.char :: b.read }
    else if isBreak s.char then go { b with emptyLines := s.char :: b.emptyLines }
    else if s.column < indentation then
      if s.char = ' ' then go b
      else if s.char = '\t' then none
      else some (b, s :: rest)
    else go (b.startLine literal s.char)

/-- Reads a block scalar behind its indicator.  The block around it stands left of column
`least`. -/
def readBlock (literal : Bool) (least : Nat) (text : List Spot) : Option (String × List Spot) := do
  let (header, text) ← readHeader text
  let indentation ← match header.indentation with
    | some further => some (least - 1 + further)
    | none => detectIndentation (max least 1) text
  let (b, rest) ← readLines literal indentation {} text
  return (b.text header.chomping, rest)

end CounterMachine.Yaml
