import CounterMachine.Text.Hexadecimal
import CounterMachine.Yaml.Basic
import CounterMachine.Yaml.Spot

/-! # Tokens

A document is first divided into tokens: marks, brackets, scalars and names, and the starts and
ends of blocks that its indentation makes.

* `Token`           a token
* `readName`        the name of an anchor
* `readTag`         a tag, as a handle and a rest
* `readDirective`   a line that says how the tags of a document are to be understood -/

namespace CounterMachine.Yaml

/-- A part of a document. -/
inductive Token where
  /-- The version of the language that a document is written in. -/
  | version (major minor : Nat)
  /-- What a handle of tags stands for. -/
  | tagRule (handle stem : String)
  | documentStart
  | documentEnd
  | sequenceStart
  | mappingStart
  /-- The end of a sequence or a mapping in the block form. -/
  | blockEnd
  | flowSequenceStart
  | flowSequenceEnd
  | flowMappingStart
  | flowMappingEnd
  /-- The dash of an item in the block form. -/
  | dash
  /-- The comma of the flow form. -/
  | comma
  | key
  | value
  | anchor (name : String)
  | reference (name : String)
  | tag (handle suffix : String)
  | scalar (style : Style) (text : String)
  deriving DecidableEq, Repr, Inhabited

/-- Whether a character may stand in a name. -/
def isNameChar (c : Char) : Bool := c.isAlphanum || c = '_' || c = '-'

/-- The name that stands here, which may be empty, and what follows. -/
def spanName (text : List Spot) : List Char × List Spot :=
  let (name, rest) := text.span fun s => isNameChar s.char
  (chars name, rest)

/-- The characters that may follow the name of an anchor. -/
def nameEnds : List Char := ['?', ':', ',', ']', '\x7d', '%', '@', '\x60']

/-- Reads the name of an anchor behind its indicator. -/
def readName (text : List Spot) : Option (String × List Spot) :=
  let (name, rest) := spanName text
  if name.isEmpty then none
  else if startsGap rest || rest.head?.any (fun s => nameEnds.contains s.char) then
    some (String.ofList name, rest)
  else none

/-- Whether a character may stand in the identifier of a tag; some may only where it is written
out in full. -/
def isTagChar (full : Bool) (c : Char) : Bool :=
  isNameChar c ||
    [';', '/', '?', ':', '@', '&', '=', '+', '$', '.', '!', '~', '*', '\x27', '(', ')'].contains c
    || (full && [',', '[', ']'].contains c)

/-- How many octets follow an octet of a character, if `missing` of them were expected to. -/
def octetsBehind (missing octet : Nat) : Option Nat :=
  if 0 < missing then if 0x80 ≤ octet && octet < 0xC0 then some (missing - 1) else none
  else if octet < 0x80 then some 0
  else if 0xC0 ≤ octet && octet < 0xE0 then some 1
  else if 0xE0 ≤ octet && octet < 0xF0 then some 2
  else if 0xF0 ≤ octet && octet < 0xF8 then some 3
  else none

/-- Reads an identifier of a tag, which may be empty.  A percent sign and two hexadecimal digits
stand for an octet; `missing` further octets are expected. -/
def readTagChars (full : Bool) (read : List Char) (missing : Nat) :
    List Spot → Option (List Char × List Spot)
  | [] => if missing = 0 then some (read.reverse, []) else none
  | s :: rest =>
    if s.char = '%' then
      match rest with
      | a :: b :: rest => do
        let octet ← Text.readHex [a.char, b.char]
        readTagChars full (Char.ofNat octet :: read) (← octetsBehind missing octet) rest
      | _ => none
    else if 0 < missing then none
    else if isTagChar full s.char then readTagChars full (s.char :: read) 0 rest
    else some (read.reverse, s :: rest)

/-- What counts of an identifier of a tag: the octets before the first that is zero. -/
def beforeZero (identifier : List Char) : List Char := identifier.takeWhile (· != '\x00')

/-- Reads an identifier of a tag that is not empty. -/
def readTagText (full : Bool) (text : List Spot) : Option (String × List Spot) := do
  let (read, rest) ← readTagChars full [] 0 text
  if read.isEmpty then none else some (String.ofList (beforeZero read), rest)

/-- Reads a tag behind its exclamation mark, without what must follow it: an identifier between
angle brackets, or a handle and a rest.  A lone exclamation mark has no handle. -/
def readTagParts (text : List Spot) : Option (Token × List Spot) :=
  match text with
  | [] => some (.tag "" "!", [])
  | s :: behind =>
    if s.char = '<' then do
      let (name, rest) ← readTagText true behind
      match rest with
      | t :: rest => if t.char = '>' then some (.tag "" name, rest) else none
      | [] => none
    else
      let (name, rest) := spanName text
      if rest.head?.any (fun t => t.char = '!') then do
        let (suffix, rest) ← readTagText false (rest.drop 1)
        some (.tag (String.ofList ('!' :: name ++ ['!'])) suffix, rest)
      else do
        let (suffix, rest) ← readTagChars false [] 0 rest
        let suffix := beforeZero (name ++ suffix)
        if suffix.isEmpty then some (.tag "" "!", rest)
        else some (.tag "!" (String.ofList suffix), rest)

/-- Reads a tag behind its exclamation mark.  A gap follows it, or in the flow form a comma. -/
def readTag (flow : Bool) (text : List Spot) : Option (Token × List Spot) := do
  let (tag, rest) ← readTagParts text
  if startsGap rest || (flow && rest.head?.any (fun s => s.char = ',')) then some (tag, rest)
  else none

/-- Reads a number of one to nine digits. -/
def readVersionNumber (text : List Spot) : Option (Nat × List Spot) :=
  let (digits, rest) := text.span fun s => s.char.isDigit
  if digits.isEmpty || 9 < digits.length then none
  else some (Nat.ofDigitChars 10 (chars digits) 0, rest)

/-- Reads the handle that a rule on tags is about. -/
def readHandle (text : List Spot) : Option (String × List Spot) :=
  match text with
  | [] => none
  | s :: rest =>
    if s.char = '!' then
      let (name, rest) := spanName rest
      if rest.head?.any (fun t => t.char = '!') then
        some (String.ofList ('!' :: name ++ ['!']), rest.drop 1)
      else if name.isEmpty then some ("!", rest)
      else none
    else none

/-- Reads a directive behind its percent sign, up to the start of the next line. -/
def readDirective (text : List Spot) : Option (Token × List Spot) := do
  let (name, rest) := spanName text
  if !startsGap rest then
    none
  let rest := skipBlanks rest
  if name = ['Y', 'A', 'M', 'L'] then
    let (major, rest) ← readVersionNumber rest
    if !rest.head?.any (fun s => s.char = '.') then
      none
    let (minor, rest) ← readVersionNumber (rest.drop 1)
    return (.version major minor, ← nextLine rest)
  else if name = ['T', 'A', 'G'] then
    let (handle, rest) ← readHandle rest
    if !rest.head?.any (fun s => isBlank s.char) then
      none
    let (stem, rest) ← readTagText true (skipBlanks rest)
    if !startsGap rest then
      none
    return (.tagRule handle stem, ← nextLine rest)
  else none

end CounterMachine.Yaml
