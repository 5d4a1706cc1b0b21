import CounterMachine.Config.Pattern
import CounterMachine.Text.Blank
import CounterMachine.Text.Decimal

/-! # Log filters

A filter is a list of directives between commas.  A directive names the source of messages, the
span in which they arise, fields of that span and the level from which on they are shown, each of
which may be left out: `source[span\x7bfield=value\x7d]=level`.

* `isDirective`   whether a text is a directive
* `isFilter`      whether a text is a filter

Blanks around a directive are passed over, but they shift what is taken from it: a name of a field,
a value or a level is cut from the text with the blanks, at the place where it stands without
them. -/

namespace CounterMachine.Filter

/-- The names of the levels of messages. -/
def levelNames : List String := ["trace", "debug", "info", "warn", "error", "off"]

/-- Whether a text is a word, in any case. -/
def isWord (word : String) (text : List Char) : Bool := text.map Char.toLower == word.toList

/-- Whether a text names a level: by its name in any case, or by a number up to five. -/
def isLevel (text : List Char) : Bool :=
  levelNames.any (isWord · text) || (Text.readIndex text).any (· ≤ 5)

/-- The parts of a text between the places of a character. -/
def splitAtEach (separator : Char) : List Char → List (List Char)
  | [] => [[]]
  | c :: rest =>
    match splitAtEach separator rest with
    | [] => [[]]
    | first :: others =>
      if c = separator then [] :: first :: others else (c :: first) :: others

/-- A text without the sign that it may start with. -/
def withoutSign : List Char → List Char
  | '+' :: rest => rest
  | '-' :: rest => rest
  | text => text

/-- Whether a text is an exponent, or nothing. -/
def isExponent : List Char → Bool
  | [] => true
  | c :: rest =>
    let digits := withoutSign rest
    (c = 'e' || c = 'E') && !digits.isEmpty && digits.all Char.isDigit

/-- Whether a text is a number: an infinity, no number at all, or a decimal with a fraction and an
exponent that may be missing. -/
def isNumeral (text : List Char) : Bool :=
  let text := withoutSign text
  let (whole, rest) := text.span Char.isDigit
  let (fraction, rest) := match rest with
    | '.' :: rest => rest.span Char.isDigit
    | _ => ([], rest)
  ["inf", "infinity", "nan"].any (isWord · text) ||
    (!(whole.isEmpty && fraction.isEmpty) && isExponent rest)

/-- Whether the value of a field can be compared with a text: a truth value, a number or a
pattern. -/
def isValue (text : List Char) : Bool :=
  -- A truth value is a pattern as well.
  isNumeral text || Pattern.isPattern text

/-- Whether a text names a field, and a value behind an equals sign if it has one. -/
def isField (text : List Char) : Bool :=
  match splitAtEach '=' text with
  | _ :: value :: _ => isValue value
  | _ => !text.isEmpty

/-- A text without its first octets. -/
def dropOctets : Nat → List Char → List Char
  | 0, text => text
  | _, [] => []
  | n + 1, c :: rest => dropOctets (n + 1 - c.utf8Size) rest

/-- The first octets of a text. -/
def takeOctets : Nat → List Char → List Char
  | 0, _ => []
  | _, [] => []
  | n + 1, c :: rest => c :: takeOctets (n + 1 - c.utf8Size) rest

/-- The part of a directive that is being read.  Where a part is checked, the place of its first
octet is kept. -/
inductive Part where
  | start
  /-- The source of messages or, if nothing follows, a level. -/
  | source
  | span
  | field (place : Nat)
  | fieldEnd
  | spanEnd
  | level (place : Nat)
  deriving DecidableEq, Repr

/-- The part that is being read behind a character at a place of a directive. -/
def Part.next (directive : List Char) (place : Nat) (c : Char) : Part → Option Part
  | start =>
    if c = '[' then some span
    else if c = '-' || c = ':' || c = '_' || Text.isAlphanumeric c then some source
    else none
  | source =>
    if c = '=' then some (level (place + 1)) else if c = '[' then some span else some source
  | span =>
    if c = ']' then some spanEnd else if c = '\x7b' then some (field (place + 1)) else some span
  | field first =>
    if c = '\x7d' then
      if isField (takeOctets (place - first) (dropOctets first directive)) then some fieldEnd
      else none
    else some (field first)
  | fieldEnd => if c = ']' then some spanEnd else none
  | spanEnd => if c = '=' then some (level (place + 1)) else none
  | level first => some (level first)

/-- The part in which a directive ends, of which the text from a place on is still to be read. -/
def lastPart (directive : List Char) (place : Nat) (part : Part) : List Char → Option Part
  | [] => some part
  | c :: rest => do
    lastPart directive (place + c.utf8Size) (← part.next directive place c) rest

/-- Whether a text is a directive. -/
def isDirective (directive : List Char) : Bool :=
  match lastPart directive 0 .start (Text.trim directive) with
  | some .source => true
  | some .spanEnd => true
  | some (.level place) =>
    let level := dropOctets place directive
    level.isEmpty || isLevel level
  | _ => false

/-- Whether a text is a filter: each of its parts that is not empty is a directive. -/
def isFilter (filter : String) : Bool :=
  (splitAtEach ',' filter.toList).all fun part => part.isEmpty || isDirective part

end CounterMachine.Filter
