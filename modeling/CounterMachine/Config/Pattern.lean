import CounterMachine.Text.Hexadecimal
import CounterMachine.Text.Letter

/-! # Patterns

A log filter can compare the text of a field with a pattern, which is a regular expression.
Whether a text is a pattern is decided here; patterns are not matched.

A pattern has groups, which may be named or set flags, alternatives, repetitions by `*`, `+` and
`?`, classes in brackets and escaped characters.  It knows no counted repetition, no back
reference and no look-around, no classes or boundaries of words by Unicode's properties, and no
flag that would change how characters are compared or spaced.

* `depth?`      how deep the parts of a pattern are nested
* `isPattern`   whether a text is a pattern, and not nested too deep -/

namespace CounterMachine.Pattern

/-- The letters that stand for a character behind a backslash. -/
def letterEscapes : List (Char × Char) :=
  [('a', '\x07'), ('f', '\x0c'), ('t', '\t'), ('n', '\n'), ('r', '\r'), ('v', '\x0b')]

/-- How many hexadecimal digits follow the letter of an escape. -/
def codeLength? (c : Char) : Option Nat := [('x', 2), ('u', 4), ('U', 8)].lookup c

/-- Whether a character stands for itself behind a backslash: all of ASCII but letters, digits
and angle brackets do. -/
def isEscapable (c : Char) : Bool := c.toNat < 0x80 && !c.isAlphanum && c != '<' && c != '>'

/-- Reads an escape behind its backslash, and yields the character that it stands for. -/
def readEscape : List Char → Option (Char × List Char)
  | [] => none
  | c :: rest =>
    match letterEscapes.lookup c, codeLength? c with
    | some meant, _ => some (meant, rest)
    | none, some length => do
      if rest.length < length then
        none
      let code ← Text.readHex (rest.take length)
      if code.isValidChar then some (Char.ofNat code, rest.drop length) else none
    | none, none => if isEscapable c then some (c, rest) else none

/-- Reads a character of a class. -/
def readClassChar : List Char → Option (Char × List Char)
  | [] => none
  | c :: rest => if c = '\\' then readEscape rest else some (c, rest)

/-- The names of the classes of ASCII characters. -/
def classNames : List String :=
  ["alnum", "alpha", "ascii", "blank", "cntrl", "digit", "graph", "lower", "print", "punct",
    "space", "upper", "word", "xdigit"]

/-- The text behind a named class, which stands between colons inside a class. -/
def skipNamedClass (text : List Char) : Option (List Char) :=
  match text with
  | ':' :: rest =>
    let rest := match rest with
      | '^' :: rest => rest
      | _ => rest
    match rest.span (· != ':') with
    | (name, ':' :: ']' :: rest) =>
      if classNames.contains (String.ofList name) then some rest else none
    | _ => none
  | _ => none

/-- How deep parts are nested that stand side by side, of which each is nested as deep as given.
Several parts are one level more than the deepest of them. -/
def joined : List Nat → Nat
  | [] => 0
  | [depth] => depth
  | depths => 1 + depths.foldl max 0

/-- A class that is being read. -/
structure OpenClass where
  /-- How deep the operands of set operations that have been read are nested. -/
  operands : Option Nat
  /-- How deep each item of the present operand is nested. -/
  items : List Nat

namespace OpenClass

/-- How deep the content of a class is nested; each set operation is a level more. -/
def depth (c : OpenClass) : Nat :=
  match c.operands with
  | none => joined c.items
  | some depth => 1 + max depth (joined c.items)

def push (c : OpenClass) (depth : Nat) : OpenClass := { c with items := depth :: c.items }

/-- The class behind the sign of a set operation. -/
def operate (c : OpenClass) : OpenClass := ⟨some c.depth, []⟩

end OpenClass

/-- The start of a class: a caret, and then dashes or a closing bracket, which have a meaning of
their own only there. -/
def startClass (text : List Char) : OpenClass × List Char :=
  let text := match text with
    | '^' :: rest => rest
    | _ => text
  match text with
  | '-' :: _ =>
    let (dashes, rest) := text.span (· = '-')
    (⟨none, dashes.map fun _ => 0⟩, rest)
  | ']' :: rest => (⟨none, [0]⟩, rest)
  | _ => (⟨none, []⟩, text)

/-- How deep a class is nested of which the start has been read, and the text behind it; further
classes are open around it. -/
def readClass : (fuel : Nat) → (c : OpenClass) → (around : List OpenClass) → List Char →
    Option (Nat × List Char)
  | 0, _, _, _ => none
  | fuel + 1, c, around, text =>
    match text with
    | '[' :: rest =>
      match skipNamedClass rest with
      | some rest => readClass fuel (c.push 0) around rest
      | none =>
        let (inner, rest) := startClass rest
        readClass fuel inner (c :: around) rest
    | ']' :: rest =>
      match around with
      | [] => some (1 + c.depth, rest)
      | outer :: around => readClass fuel (outer.push (1 + c.depth)) around rest
    | '&' :: '&' :: rest => readClass fuel c.operate around rest
    | '-' :: '-' :: rest => readClass fuel c.operate around rest
    | '~' :: '~' :: rest => readClass fuel c.operate around rest
    | _ => do
      let (low, rest) ← readClassChar text
      match rest with
      | '-' :: ']' :: _ => readClass fuel (c.push 0) around rest
      | '-' :: '-' :: _ => readClass fuel (c.push 0) around rest
      | '-' :: range => do
        let (high, rest) ← readClassChar range
        if high < low then none else readClass fuel (c.push 0) around rest
      | _ => readClass fuel (c.push 0) around rest

/-- Whether a character may stand in the name of a group. -/
def isNameChar (c : Char) : Bool :=
  Text.isAlphanumeric c || c = '_' || c = '.' || c = '[' || c = ']'

/-- Whether a text is the name of a group. -/
def isName : List Char → Bool
  | [] => false
  | c :: rest => (Text.isLetter c || c = '_') && rest.all isNameChar

/-- The flags that a group can set or, behind a dash, unset. -/
def flags : List Char := ['m', 's', 'U', 'R']

/-- Whether a text sets flags: none is named twice, and something is behind the dash. -/
def setsFlags (text : List Char) : Bool :=
  text.Nodup && text.all (fun c => c = '-' || flags.contains c) && text.getLast? != some '-'

/-- What stands behind an opening parenthesis. -/
inductive Opening where
  /-- A group, which may have a name. -/
  | group (name : Option (List Char))
  /-- Flags for what follows, and no group. -/
  | flags
  deriving DecidableEq, Repr

/-- Reads the name of a group up to its closing angle bracket. -/
def readGroupName (text : List Char) : Option (Opening × List Char) :=
  match text.span (· != '>') with
  | (name, _ :: rest) => if isName name then some (.group (some name), rest) else none
  | (_, []) => none

/-- Reads what stands behind an opening parenthesis. -/
def readOpening : List Char → Option (Opening × List Char)
  | '?' :: 'P' :: '<' :: rest => readGroupName rest
  | '?' :: '<' :: rest => readGroupName rest
  | '?' :: rest =>
    match rest.span fun c => c != ':' && c != ')' with
    | (set, c :: rest) =>
      if !setsFlags set then none
      else if c = ':' then some (.group none, rest)
      else if set.isEmpty then none
      else some (.flags, rest)
    | (_, []) => none
  | text => some (.group none, text)

/-- Reads an escape outside a class: that of a character, or of the start or end of the text. -/
def skipEscape (text : List Char) : Option (List Char) :=
  match text with
  | 'A' :: rest => some rest
  | 'z' :: rest => some rest
  | _ => (readEscape text).map (·.2)

/-- A group that is being read, or the whole pattern. -/
structure OpenGroup where
  /-- How deep each alternative that has been read is nested. -/
  alternatives : List Nat := []
  /-- How deep each item of the present alternative is nested, the latest first. -/
  items : List Nat := []

namespace OpenGroup

/-- How deep the content of a group is nested. -/
def depth (g : OpenGroup) : Nat := joined (joined g.items :: g.alternatives)

def push (g : OpenGroup) (depth : Nat) : OpenGroup := { g with items := depth :: g.items }

/-- The group behind the sign of an alternative. -/
def alternate (g : OpenGroup) : OpenGroup := ⟨joined g.items :: g.alternatives, []⟩

/-- The group with its latest item repeated. -/
def repeatLast (g : OpenGroup) : OpenGroup :=
  match g.items with
  | [] => g
  | depth :: items => { g with items := (1 + depth) :: items }

end OpenGroup

/-- How deep a pattern is nested of which the groups `g` and, around it, `around` are open.
`repeatable` tells whether a repetition can follow, and `names` holds the names of groups so far.
There is no depth if the text is not the rest of a pattern. -/
def readRest : (fuel : Nat) → (g : OpenGroup) → (around : List OpenGroup) → (repeatable : Bool) →
    (names : List (List Char)) → List Char → Option Nat
  | 0, _, _, _, _, _ => none
  | fuel + 1, g, around, repeatable, names, text =>
    match text with
    | [] => if around.isEmpty then some g.depth else none
    | c :: rest =>
      if c = '(' then
        match readOpening rest with
        | some (.group none, rest) => readRest fuel {} (g :: around) false names rest
        | some (.group (some name), rest) =>
          if names.contains name then none
          else readRest fuel {} (g :: around) false (name :: names) rest
        | some (.flags, rest) => readRest fuel (g.push 0) around false names rest
        | none => none
      else if c = ')' then
        match around with
        | [] => none
        | outer :: around => readRest fuel (outer.push (1 + g.depth)) around true names rest
      else if c = '|' then readRest fuel g.alternate around false names rest
      else if c = '[' then do
        let (inner, rest) := startClass rest
        let (depth, rest) ← readClass (rest.length + 1) inner [] rest
        readRest fuel (g.push depth) around true names rest
      else if c = '\\' then do
        let rest ← skipEscape rest
        readRest fuel (g.push 0) around true names rest
      else if c = '*' || c = '+' || c = '?' then
        -- A question mark behind a repetition belongs to it.
        let rest := match rest with
          | '?' :: rest => rest
          | _ => rest
        if repeatable then readRest fuel g.repeatLast around true names rest else none
      -- A brace would start a counted repetition.
      else if c = '\x7b' then none
      else readRest fuel (g.push 0) around true names rest

/-- How deep a pattern is nested: groups, repetitions, classes, set operations and whatever holds
several parts side by side are a level each.  There is no depth if the text is no pattern. -/
def depth? (text : List Char) : Option Nat := readRest (text.length + 1) {} [] false [] text

/-- How deep a pattern may be nested. -/
def maxDepth : Nat := 250

/-- Whether a text is a pattern. -/
def isPattern (text : List Char) : Bool := (depth? text).any (· ≤ maxDepth)

end CounterMachine.Pattern
