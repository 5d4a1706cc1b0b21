import CounterMachine.Json.Basic
import CounterMachine.Text.Hexadecimal

/-! # Reading JSON

The reader takes the grammar of JSON as it stands: no comments, no trailing commas, no control
characters in strings, no leading zeros.  A string with an escape of half a surrogate pair is
`unreadable`.  Negative zero is no integer.

* `Json.parse?`   reads a text that holds one value and blanks around it

Each reader yields what it read and the text that follows.  `fuel` bounds the nesting and the
number of items together; twice the length of the text is enough. -/

namespace CounterMachine.Json

/-- Whether a character may stand between the parts of a value. -/
def isSpace (c : Char) : Bool := c = ' ' || c = '\n' || c = '\t' || c = '\r'

/-- The text after the blanks at its start. -/
def skip (text : List Char) : List Char := text.dropWhile isSpace

/-- The character that a short escape stands for. -/
def shortEscape? (c : Char) : Option Char :=
  if c = '"' then some '"'
  else if c = '\\' then some '\\'
  else if c = '/' then some '/'
  else if c = 'b' then some '\x08'
  else if c = 'f' then some '\x0c'
  else if c = 'n' then some '\n'
  else if c = 'r' then some '\r'
  else if c = 't' then some '\t'
  else none

/-- Whether a number is the first half of a surrogate pair. -/
def isHighSurrogate (n : Nat) : Bool := 0xD800 ≤ n && n ≤ 0xDBFF

/-- Whether a number is the second half of a surrogate pair. -/
def isLowSurrogate (n : Nat) : Bool := 0xDC00 ≤ n && n ≤ 0xDFFF

/-- The character that a surrogate pair stands for. -/
def ofSurrogates (high low : Nat) : Char :=
  Char.ofNat (0x10000 + (high - 0xD800) * 0x400 + (low - 0xDC00))

/-- The text that codes spell, each of them the code of a character or half a surrogate pair.
There is none if a half stands alone. -/
def spell : List Nat → Option (List Char)
  | [] => some []
  | [n] => if isHighSurrogate n || isLowSurrogate n then none else some [Char.ofNat n]
  | n :: m :: rest =>
    if isHighSurrogate n && isLowSurrogate m then (spell rest).map (ofSurrogates n m :: ·)
    else if isHighSurrogate n || isLowSurrogate n then none
    else (spell (m :: rest)).map (Char.ofNat n :: ·)

/-- Reads the codes of a string after its opening quotation mark; `read` holds those read so far,
the latest first. -/
def readCodes (read : List Nat) : List Char → Option (List Nat × List Char)
  | '"' :: rest => some (read.reverse, rest)
  | '\\' :: 'u' :: a :: b :: c :: d :: rest =>
    match Text.readHex [a, b, c, d] with
    | none => none
    | some n => readCodes (n :: read) rest
  | '\\' :: c :: rest =>
    match shortEscape? c with
    | none => none
    | some c => readCodes (c.toNat :: read) rest
  | c :: rest => if c.toNat < 0x20 ∨ c = '\\' then none else readCodes (c.toNat :: read) rest
  | [] => none

/-- Reads a string after its opening quotation mark; what it spells may be no text. -/
def readQuoted (text : List Char) : Option (Option String × List Char) :=
  (readCodes [] text).map fun (codes, rest) => ((spell codes).map String.ofList, rest)

/-- Splits a text after its leading digits. -/
def readDigits (text : List Char) : List Char × List Char :=
  (text.takeWhile Char.isDigit, text.dropWhile Char.isDigit)

/-- Splits a text after a fraction: nothing, or a point and digits. -/
def readFraction (text : List Char) : Option (List Char × List Char) :=
  match text with
  | '.' :: rest =>
    let (digits, rest) := readDigits rest
    if digits.isEmpty then none else some ('.' :: digits, rest)
  | _ => some ([], text)

/-- Splits a text after a sign, if it has one. -/
def readSign (text : List Char) : List Char × List Char :=
  match text with
  | '+' :: rest => (['+'], rest)
  | '-' :: rest => (['-'], rest)
  | _ => ([], text)

/-- Splits a text after an exponent: nothing, or the letter, a sign that may be missing, and
digits. -/
def readExponent (text : List Char) : Option (List Char × List Char) :=
  match text with
  | c :: rest =>
    if c = 'e' ∨ c = 'E' then
      let (sign, rest) := readSign rest
      let (digits, rest) := readDigits rest
      if digits.isEmpty then none else some (c :: sign ++ digits, rest)
    else
      some ([], text)
  | [] => some ([], [])

/-- Whether digits are a whole part: there is one, and the first is a zero only if it is alone. -/
def isWhole : List Char → Bool
  | [] => false
  | ['0'] => true
  | c :: _ => c != '0'

/-- Reads a number. -/
def readNumber (text : List Char) : Option (Json × List Char) := do
  let (negative, rest) := match text with
    | '-' :: rest => (true, rest)
    | _ => (false, text)
  let (digits, rest) := readDigits rest
  if !isWhole digits then
    none
  let (fraction, rest) ← readFraction rest
  let (exponent, rest) ← readExponent rest
  let value := Nat.ofDigitChars 10 digits 0
  let sign := if negative then ['-'] else []
  -- Negative zero is no integer, so no counter accepts it.
  if fraction.isEmpty && exponent.isEmpty && !(negative && value = 0) then
    return (.integer (if negative then -(value : Int) else value), rest)
  else
    return (.decimal (String.ofList (sign ++ digits ++ fraction ++ exponent)), rest)

mutual

/-- Reads a value, and blanks before it. -/
def readValue : (fuel : Nat) → List Char → Option (Json × List Char)
  | 0, _ => none
  | fuel + 1, text =>
    match skip text with
    | '"' :: rest => (readQuoted rest).map fun found => (.ofText found.1, found.2)
    | '[' :: rest =>
      match skip rest with
      | ']' :: rest => some (.array [], rest)
      | rest => (readItems fuel rest).map fun found => (.array found.1, found.2)
    | '\x7b' :: rest =>
      match skip rest with
      | '\x7d' :: rest => some (.object [], rest)
      | rest => (readMembers fuel rest).map fun found => (.ofMembers found.1, found.2)
    | 'n' :: 'u' :: 'l' :: 'l' :: rest => some (.null, rest)
    | 't' :: 'r' :: 'u' :: 'e' :: rest => some (.bool true, rest)
    | 'f' :: 'a' :: 'l' :: 's' :: 'e' :: rest => some (.bool false, rest)
    | rest => readNumber rest

/-- Reads the items of an array up to its closing bracket. -/
def readItems : (fuel : Nat) → List Char → Option (List Json × List Char)
  | 0, _ => none
  | fuel + 1, text =>
    match readValue fuel text with
    | none => none
    | some (item, rest) =>
      match skip rest with
      | ',' :: rest => (readItems fuel rest).map fun found => (item :: found.1, found.2)
      | ']' :: rest => some ([item], rest)
      | _ => none

/-- Reads the members of an object up to its closing brace. -/
def readMembers : (fuel : Nat) → List Char → Option (List (Option String × Json) × List Char)
  | 0, _ => none
  | fuel + 1, text =>
    match skip text with
    | '"' :: rest =>
      match readQuoted rest with
      | none => none
      | some (name, rest) =>
        match skip rest with
        | ':' :: rest =>
          match readValue fuel rest with
          | none => none
          | some (value, rest) =>
            match skip rest with
            | ',' :: rest =>
              (readMembers fuel rest).map fun found => ((name, value) :: found.1, found.2)
            | '\x7d' :: rest => some ([(name, value)], rest)
            | _ => none
        | _ => none
    | _ => none

end

/-- Reads a text that holds one value. -/
def parse? (text : String) : Option Json :=
  let chars := text.toList
  match readValue (2 * chars.length + 2) chars with
  | some (value, rest) => if (skip rest).isEmpty then some value else none
  | none => none

end CounterMachine.Json
