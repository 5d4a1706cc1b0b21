import CounterMachine.Text.Hexadecimal
import CounterMachine.Yaml.Scalar.Gap

/-! # Quoted scalars

Between single quotes, a quote is written twice and nothing is escaped.  Between double quotes, a
backslash escapes a character, names one by its code, or joins two lines.  Either may be broken
into lines, but no line of it may look like a mark around documents.

* `readSingle`   the text of a scalar behind its opening single quote
* `readDouble`   the text of a scalar behind its opening double quote -/

namespace CounterMachine.Yaml

/-- Reads a scalar behind its opening single quote. -/
def readSingle (read : List Char) (gap : Gap) : List Spot → Option (String × List Spot)
  | [] => none
  | s :: rest =>
    if isGap s.char then readSingle read (gap.push s.char) rest
    else if startsAnyMark (s :: rest) then none
    else
      let read := gap.folded ++ read
      if s.char = '\x27' then
        match rest with
        | [] => some (String.ofList read.reverse, [])
        | t :: behind =>
          if t.char = '\x27' then readSingle ('\x27' :: read) .empty behind
          else some (String.ofList read.reverse, t :: behind)
      else readSingle (s.char :: read) .empty rest

/-- The character that an escape of one letter stands for. -/
def shortEscape? (c : Char) : Option Char :=
  [('0', '\x00'), ('a', '\x07'), ('b', '\x08'), ('t', '\t'), ('\t', '\t'), ('n', '\n'),
    ('v', '\x0b'), ('f', '\x0c'), ('r', '\r'), ('e', '\x1b'), (' ', ' '), ('"', '"'), ('/', '/'),
    ('\\', '\\'), ('N', '\u0085'), ('_', '\u00a0'), ('L', '\u2028'), ('P', '\u2029')].lookup c

/-- How many hexadecimal digits follow an escape. -/
def codeLength? (c : Char) : Option Nat := [('x', 2), ('u', 4), ('U', 8)].lookup c

/-- Where the reader of a scalar in double quotes stands. -/
inductive Escape where
  /-- Outside an escape. -/
  | outside
  /-- Behind a backslash. -/
  | opened
  /-- In a code, of which a number of digits are missing. -/
  | code (missing value : Nat)
  deriving DecidableEq, Repr

/-- Reads a scalar behind its opening double quote. -/
def readDouble (read : List Char) (gap : Gap) (escape : Escape) :
    List Spot → Option (String × List Spot)
  | [] => none
  | s :: rest =>
    match escape with
    | .outside =>
      if isGap s.char then readDouble read (gap.push s.char) .outside rest
      else if startsAnyMark (s :: rest) then none
      else
        let read := gap.folded ++ read
        if s.char = '"' then some (String.ofList read.reverse, rest)
        else if s.char = '\\' then readDouble read .empty .opened rest
        else readDouble (s.char :: read) .empty .outside rest
    | .opened =>
      if isBreak s.char then readDouble read (.breaks none []) .outside rest
      else
        match shortEscape? s.char, codeLength? s.char with
        | some c, _ => readDouble (c :: read) .empty .outside rest
        | none, some missing => readDouble read .empty (.code missing 0) rest
        | none, none => none
    | .code missing value =>
      match Text.hexValue? s.char with
      | none => none
      | some digit =>
        let value := 16 * value + digit
        if 1 < missing then readDouble read .empty (.code (missing - 1) value) rest
        else if value.isValidChar then
          readDouble (Char.ofNat value :: read) .empty .outside rest
        else none

end CounterMachine.Yaml
