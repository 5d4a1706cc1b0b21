import CounterMachine.Yaml.Scalar.Block
import CounterMachine.Yaml.Scalar.Plain
import CounterMachine.Yaml.Scalar.Quoted
import CounterMachine.Yaml.Token

/-! # The layout of a document

Indentation makes the blocks of a document, and a colon makes a key of what stands before it on
its line.  Both become tokens: a block has a start and an end, and a key a token in front of it.

* `Layout`    what has been read of a document
* `tokens?`   the tokens of a document

A key is noticed only at its colon.  Until then the place of what might be one is remembered, one
place for each of the brackets that are open and one outside them. -/

namespace CounterMachine.Yaml

/-- The place of what may turn out to be a key. -/
structure PossibleKey where
  /-- Whether it can be nothing else: it stands where the keys of its block stand. -/
  required : Bool
  /-- How many tokens stand before it. -/
  place : Nat
  line : Nat
  column : Nat
  octet : Nat
  deriving DecidableEq, Repr

/-- What has been read of a document. -/
structure Layout where
  tokens : Array Token := #[]
  /-- The columns of the open blocks, from the innermost on. -/
  blocks : List Nat := []
  /-- Whether a key may start here. -/
  keyAllowed : Bool := true
  /-- The latest possible key within the innermost open brackets. -/
  possible : Option PossibleKey := none
  /-- The latest possible keys around the open brackets, from the innermost on. -/
  around : List (Option PossibleKey) := []

namespace Layout

/-- Whether brackets are open. -/
def inFlow (l : Layout) : Bool := !l.around.isEmpty

/-- The column from which on content belongs to the innermost open block. -/
def least (l : Layout) : Nat :=
  match l.blocks with
  | column :: _ => column + 1
  | [] => 0

def push (l : Layout) (token : Token) : Layout := { l with tokens := l.tokens.push token }

/-- How many octets the next token may stand behind the start of a key. -/
def maxKeyLength : Nat := 1024

/-- Whether a possible key is none any more: it lies on another line, or too far back. -/
def PossibleKey.isOver (key : PossibleKey) (here : Spot) : Bool :=
  key.line < here.line || key.octet + maxKeyLength < here.octet

/-- A possible key, unless it is over; what must be a key cannot be over. -/
def PossibleKey.keep (here : Spot) : Option PossibleKey → Option (Option PossibleKey)
  | none => some none
  | some key =>
    if PossibleKey.isOver key here then if key.required then none else some none
    else some (some key)

/-- Forgets the possible keys that are over before a token. -/
def forgetOver (l : Layout) (here : Spot) : Option Layout := do
  return { l with possible := ← PossibleKey.keep here l.possible
                  around := ← l.around.mapM (PossibleKey.keep here) }

/-- Forgets the latest possible key, which must not have been required. -/
def forgetKey (l : Layout) : Option Layout :=
  if l.possible.any (·.required) then none else some { l with possible := none }

/-- Remembers a possible key that starts here. -/
def rememberKey (l : Layout) (here : Spot) : Option Layout :=
  if l.keyAllowed then do
    let l ← l.forgetKey
    let required := !l.inFlow && l.blocks.head? = some here.column
    return { l with possible := some ⟨required, l.tokens.size, here.line, here.column, here.octet⟩ }
  else some l

/-- Opens a block in a column, unless it is open already, with a token at a place. -/
def openBlock (l : Layout) (column place : Nat) (token : Token) : Layout :=
  if l.inFlow || column < l.least then l
  else { l with blocks := column :: l.blocks, tokens := l.tokens.insertIdxIfInBounds place token }

/-- Closes the open blocks for which a condition holds, from the innermost on. -/
def closeBlocks (l : Layout) (isOver : Nat → Bool) : Layout :=
  if l.inFlow then l
  else
    let count := (l.blocks.takeWhile isOver).length
    { l with blocks := l.blocks.drop count
             tokens := l.tokens ++ Array.replicate count Token.blockEnd }

/-- Ends the content of a document. -/
def endContent (l : Layout) : Option Layout := do
  let l ← (l.closeBlocks fun _ => true).forgetKey
  return { l with keyAllowed := false }

/-- Reads an opening bracket. -/
def openFlow (l : Layout) (here : Spot) (token : Token) : Option Layout := do
  let l ← l.rememberKey here
  return { l.push token with
           possible := none, around := l.possible :: l.around, keyAllowed := true }

/-- Reads a closing bracket. -/
def closeFlow (l : Layout) (token : Token) : Option Layout := do
  let l ← l.forgetKey
  let l := { l.push token with keyAllowed := false }
  match l.around with
  | [] => return l
  | possible :: around => return { l with possible, around }

/-- Reads a dash or a question mark that opens a block, which `token` starts. -/
def openEntry (l : Layout) (here : Spot) (start token : Token) : Option Layout :=
  if !l.inFlow && !l.keyAllowed then none
  else do
    let l ← (l.openBlock here.column l.tokens.size start).forgetKey
    return { l.push token with keyAllowed := true }

/-- Reads a colon: it belongs to the latest possible key, or to a key that is left out. -/
def readColon (l : Layout) (here : Spot) : Option Layout :=
  match l.possible with
  | some key =>
    let tokens := l.tokens.insertIdxIfInBounds key.place Token.key
    let l := { l with tokens }.openBlock key.column key.place .mappingStart
    some { l.push .value with possible := none, keyAllowed := false }
  | none =>
    if l.inFlow then some { l.push .value with keyAllowed := false }
    else if l.keyAllowed then
      some { (l.openBlock here.column l.tokens.size .mappingStart).push .value with
             keyAllowed := true }
    else none

/-- Adds a token that can be a key or stand before one. -/
def pushContent (l : Layout) (here : Spot) (token : Token) : Option Layout := do
  let l ← l.rememberKey here
  return { l.push token with keyAllowed := false }

/-- Reads the text of a scalar in quotes. -/
def readScalar (l : Layout) (here : Spot) (style : Style) (read : Option (String × List Spot)) :
    Option (Layout × List Spot) := do
  let (text, rest) ← read
  return (← l.pushContent here (.scalar style text), rest)

/-- Reads a scalar in the block form. -/
def readBlockScalar (l : Layout) (style : Style) (text : List Spot) :
    Option (Layout × List Spot) := do
  let l ← l.forgetKey
  let (read, rest) ← readBlock (style = .literal) l.least text
  return ({ l.push (.scalar style read) with keyAllowed := true }, rest)

/-- Reads the next token, which starts here. -/
def readToken (l : Layout) (here : Spot) (rest : List Spot) : Option (Layout × List Spot) :=
  let c := here.char
  if c = '%' && here.column = 0 then do
    let (token, rest) ← readDirective rest
    return ((← l.endContent).push token, rest)
  else if startsMark '-' (here :: rest) then do
    return ((← l.endContent).push .documentStart, rest.drop 2)
  else if startsMark '.' (here :: rest) then do
    return ((← l.endContent).push .documentEnd, rest.drop 2)
  else if c = '[' then do return (← l.openFlow here .flowSequenceStart, rest)
  else if c = '\x7b' then do return (← l.openFlow here .flowMappingStart, rest)
  else if c = ']' then do return (← l.closeFlow .flowSequenceEnd, rest)
  else if c = '\x7d' then do return (← l.closeFlow .flowMappingEnd, rest)
  else if c = ',' then do
    return ({ (← l.forgetKey).push .comma with keyAllowed := true }, rest)
  else if c = '-' && startsGap rest then do
    return (← l.openEntry here .sequenceStart .dash, rest)
  else if c = '?' && (l.inFlow || startsGap rest) then do
    let l ← l.openEntry here .mappingStart .key
    return ({ l with keyAllowed := !l.inFlow }, rest)
  else if c = ':' && (l.inFlow || startsGap rest) then do return (← l.readColon here, rest)
  else if c = '*' then do
    let (name, rest) ← readName rest
    return (← l.pushContent here (.reference name), rest)
  else if c = '&' then do
    let (name, rest) ← readName rest
    return (← l.pushContent here (.anchor name), rest)
  else if c = '!' then do
    let (token, rest) ← readTag l.inFlow rest
    return (← l.pushContent here token, rest)
  else if c = '|' && !l.inFlow then l.readBlockScalar .literal rest
  else if c = '>' && !l.inFlow then l.readBlockScalar .folded rest
  else if c = '\x27' then l.readScalar here .singleQuoted (readSingle [] .empty rest)
  else if c = '"' then l.readScalar here .doubleQuoted (readDouble [] .empty .outside rest)
  else if startsPlain l.inFlow (here :: rest) then do
    let (read, gap, rest) ← readPlain l.inFlow l.least [] .empty (here :: rest)
    let l ← l.pushContent here (.scalar .plain read)
    return ({ l with keyAllowed := gap.isBroken }, rest)
  else none

/-- The text from the next token on, and whether a key may start there.  A tab in the indentation
of a line is not passed over where a key may start. -/
def skipToToken (flow : Bool) (inComment keyAllowed : Bool) : List Spot → Bool × List Spot
  | [] => (keyAllowed, [])
  | s :: rest =>
    if isBreak s.char then skipToToken flow false (keyAllowed || !flow) rest
    else if inComment then skipToToken flow true keyAllowed rest
    else if s.char = '#' then skipToToken flow true keyAllowed rest
    else if s.char = ' ' || (s.char = '\t' && (flow || !keyAllowed)) ||
        (s.char = '\ufeff' && s.column = 0) then
      skipToToken flow false keyAllowed rest
    else (keyAllowed, s :: rest)

/-- Reads all tokens of a text.  Each of them has a character of its own, so that `fuel` need not
exceed the length of the text. -/
def readTokens : (fuel : Nat) → Layout → List Spot → Option (Array Token)
  | 0, _, _ => none
  | fuel + 1, l, text =>
    let (keyAllowed, text) := skipToToken l.inFlow false l.keyAllowed text
    let l := { l with keyAllowed }
    match text with
    | [] => l.endContent.map Layout.tokens
    | here :: rest => do
      let l ← l.forgetOver here
      let (l, rest) ← (l.closeBlocks fun column => here.column < column).readToken here rest
      readTokens fuel l rest

end Layout

/-- The tokens of a document. -/
def tokens? (text : List Spot) : Option (List Token) :=
  (Layout.readTokens (text.length + 1) {} text).map Array.toList

end CounterMachine.Yaml
