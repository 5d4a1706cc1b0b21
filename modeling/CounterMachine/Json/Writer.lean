import CounterMachine.Json.Basic
import CounterMachine.Text.Hexadecimal

/-! # Writing JSON

Values are written in the compact form, without blanks.  In a string, the quotation mark, the
backslash and the control characters are escaped, with the short escape where there is one; all
other characters stand for themselves.  What has no content is written as the shortest string
that has none.

Each writer takes the text that follows, so that writing a list of values is linear. -/

namespace CounterMachine.Json

/-- A character as it stands in a string. -/
def escape (c : Char) : List Char :=
  if c = '"' then ['\\', '"']
  else if c = '\\' then ['\\', '\\']
  else if c = '\n' then ['\\', 'n']
  else if c = '\r' then ['\\', 'r']
  else if c = '\t' then ['\\', 't']
  else if c = '\x08' then ['\\', 'b']
  else if c = '\x0c' then ['\\', 'f']
  else if c.toNat < 0x20 then
    ['\\', 'u', '0', '0', Text.hexDigit (c.toNat / 16), Text.hexDigit (c.toNat % 16)]
  else [c]

/-- Writes a string. -/
def writeString (text : String) (rest : List Char) : List Char :=
  '"' :: (text.toList.flatMap escape ++ '"' :: rest)

/-- Writes an integer. -/
def writeInteger (n : Int) (rest : List Char) : List Char :=
  if n < 0 then '-' :: (n.natAbs.repr.toList ++ rest) else n.natAbs.repr.toList ++ rest

mutual

/-- Writes a value in front of a text. -/
def write : Json → List Char → List Char
  | null, rest => 'n' :: 'u' :: 'l' :: 'l' :: rest
  | bool true, rest => 't' :: 'r' :: 'u' :: 'e' :: rest
  | bool false, rest => 'f' :: 'a' :: 'l' :: 's' :: 'e' :: rest
  | integer n, rest => writeInteger n rest
  | decimal text, rest => text.toList ++ rest
  | string text, rest => writeString text rest
  | unreadable, rest => '"' :: '\\' :: 'u' :: 'd' :: '8' :: '0' :: '0' :: '"' :: rest
  | array [], rest => '[' :: ']' :: rest
  | array (item :: items), rest => '[' :: item.write (writeItems items (']' :: rest))
  | object [], rest => '\x7b' :: '\x7d' :: rest
  | object ((name, value) :: members), rest =>
    '\x7b' :: writeString name (':' :: value.write (writeMembers members ('\x7d' :: rest)))

/-- Writes further items of an array. -/
def writeItems : List Json → List Char → List Char
  | [], rest => rest
  | item :: items, rest => ',' :: item.write (writeItems items rest)

/-- Writes further members of an object. -/
def writeMembers : List (String × Json) → List Char → List Char
  | [], rest => rest
  | (name, value) :: members, rest =>
    ',' :: writeString name (':' :: value.write (writeMembers members rest))

end

/-- The compact text of a value. -/
def compact (j : Json) : String := String.ofList (j.write [])

end CounterMachine.Json
