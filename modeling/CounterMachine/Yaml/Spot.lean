/-! # Characters in their place

What a character of a YAML document means depends on the line and the column in which it stands.
A document is read as a list of characters that know their place.

* `Spot`    a character and its place: its line, its column and how many octets precede it
* `spots`   the characters of a text in their place, if all of them may stand in a document

Of the characters that break a line, two stay what they are; all others, and the pair of a
carriage return and a line feed, count as one line feed. -/

namespace CounterMachine.Yaml

/-- A character of a text and its place, counted from zero. -/
structure Spot where
  char : Char
  line : Nat
  /-- How many characters of the line precede it. -/
  column : Nat
  /-- How many octets of the line precede it. -/
  octet : Nat
  deriving DecidableEq, Repr, Inhabited

/-- Whether a character may stand in a document. -/
def isPrintable (c : Char) : Bool :=
  c = '\t' || c = '\n' || c = '\r' || (0x20 ≤ c.toNat && c.toNat ≤ 0x7E) || c = '\u0085' ||
    (0xA0 ≤ c.toNat && c.toNat ≤ 0xFFFD) || 0x10000 ≤ c.toNat

/-- A text in which a carriage return, a next line and a carriage return with its line feed are
line feeds. -/
def unifyBreaks : List Char → List Char
  | [] => []
  | '\r' :: '\n' :: rest => '\n' :: unifyBreaks rest
  | c :: rest => (if c = '\r' || c = '\u0085' then '\n' else c) :: unifyBreaks rest

/-- Whether a character breaks a line: a line feed, a line separator or a paragraph separator. -/
def isBreak (c : Char) : Bool := c = '\n' || c = '\u2028' || c = '\u2029'

/-- Whether a character is blank. -/
def isBlank (c : Char) : Bool := c = ' ' || c = '\t'

/-- Whether a character stands between words. -/
def isGap (c : Char) : Bool := isBlank c || isBreak c

/-- The characters of a text whose first character stands in a place. -/
def spotsFrom (line column octet : Nat) : List Char → List Spot
  | [] => []
  | c :: rest =>
    ⟨c, line, column, octet⟩ ::
      if isBreak c then spotsFrom (line + 1) 0 0 rest
      else spotsFrom line (column + 1) (octet + c.utf8Size) rest

/-- The characters of a document in their place. -/
def spots (text : String) : Option (List Spot) :=
  let chars := text.toList
  if chars.all isPrintable then some (spotsFrom 0 0 0 (unifyBreaks chars)) else none

/-- The characters without their places. -/
def chars (text : List Spot) : List Char := text.map Spot.char

/-- Whether no word goes on here. -/
def startsGap : List Spot → Bool
  | [] => true
  | s :: _ => isGap s.char

/-- Whether a line starts here with one of the two marks around documents. -/
def startsMark (mark : Char) : List Spot → Bool
  | a :: b :: c :: rest =>
    a.column = 0 && a.char = mark && b.char = mark && c.char = mark && startsGap rest
  | _ => false

/-- Whether a line starts here with a mark around documents. -/
def startsAnyMark (text : List Spot) : Bool := startsMark '-' text || startsMark '.' text

/-- The text behind the blanks here. -/
def skipBlanks (text : List Spot) : List Spot := text.dropWhile fun s => isBlank s.char

/-- The text behind the comment that may start here. -/
def skipComment : List Spot → List Spot
  | [] => []
  | s :: rest =>
    if s.char = '#' then rest.dropWhile fun s => !isBreak s.char else s :: rest

/-- The start of the next line, if only blanks and a comment stand before it. -/
def nextLine (text : List Spot) : Option (List Spot) :=
  match skipComment (skipBlanks text) with
  | [] => some []
  | s :: rest => if isBreak s.char then some rest else none

@[simp] theorem length_spotsFrom (line column octet : Nat) (text : List Char) :
    (spotsFrom line column octet text).length = text.length := by
  induction text generalizing line column octet with
  | nil => rfl
  | cons c rest ih => simp only [spotsFrom]; split <;> simp [ih]

/-- Every character has a place, and no character is lost. -/
@[simp] theorem chars_spotsFrom (line column octet : Nat) (text : List Char) :
    chars (spotsFrom line column octet text) = text := by
  induction text generalizing line column octet with
  | nil => rfl
  | cons c rest ih =>
    simp only [spotsFrom, chars, List.map_cons, List.cons.injEq, true_and]
    split <;> exact ih ..

end CounterMachine.Yaml
