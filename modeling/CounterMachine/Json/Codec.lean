import CounterMachine.Identifier.Label
import CounterMachine.Identifier.Variable
import CounterMachine.Json.Reader
import CounterMachine.Json.Writer

/-! # Encoding and decoding

A type of engine data has one JSON form.

* `JsonCodec`     encoding a value and decoding it back
* `decodeText`    decoding a text; `decodeBounded` does so for texts that come from outside
* `DecodeError`   why a value does not decode
* `Json.fields`   the fields of a record, which is an object or an array in field order
* `Json.tagged`   the tag and the content of a value of several forms
* `Json.required`, `Json.optional`   a member of an object

A record ignores members it does not know, refuses a field that is given twice, and is complete
only with every field that has no default. -/

namespace CounterMachine

/-- Why a JSON value does not decode. -/
inductive DecodeError where
  /-- The value has the wrong shape. -/
  | malformed
  /-- A string in place of an identifier is none. -/
  | identifier (error : IdentifierError)
  deriving DecidableEq, Repr

/-- The text before the first occurrence of a phrase. -/
def textBefore (phrase : List Char) : List Char → List Char
  | [] => []
  | c :: rest => if phrase.isPrefixOf (c :: rest) then [] else c :: textBefore phrase rest

/-- The phrase behind which a report names a place of the decoded text. -/
def placePhrase : String := " at line "

/-- The report shown for a value that does not decode, if there is more to say than that.  It
leaves out the place, and so all behind the phrase that introduces one. -/
def DecodeError.report? : DecodeError → Option String
  | malformed => none
  | identifier error =>
    some (String.ofList (textBefore placePhrase.toList error.message.toList))

/-- The result of decoding. -/
abbrev Decoded := Except DecodeError

/-- A type with a JSON form. -/
class JsonCodec (α : Type) where
  encode : α → Json
  decode : Json → Decoded α

export JsonCodec (encode decode)

/-- Decodes a text. -/
def decodeText (α : Type) [JsonCodec α] (text : String) : Decoded α :=
  match Json.parse? text with
  | some j => decode j
  | none => .error .malformed

/-- How many arrays and objects may be nested in the value that is decoded from outside. -/
def maxNesting : Nat := 127

/-- Decodes a text that comes from outside.  Only what the value is made of counts as nested: a
member that is ignored may hold anything. -/
def decodeBounded (α : Type) [JsonCodec α] (text : String) : Decoded α := do
  let a ← decodeText α text
  if (encode a).depth ≤ maxNesting then return a else .error .malformed

/-- Encodes a value as compact text. -/
def encodeText {α : Type} [JsonCodec α] (a : α) : String := (encode a).compact

namespace Json

/-- A natural number that is at most a bound. -/
def asNat (largest : Nat) : Json → Decoded Nat
  | integer n => if 0 ≤ n ∧ n ≤ largest then .ok n.toNat else .error .malformed
  | _ => .error .malformed

/-- A number of 32 bits. -/
def asIndex : Json → Decoded Nat := asNat (UInt32.size - 1)

/-- A number of 64 bits, as a place in a list. -/
def asSize : Json → Decoded Nat := asNat (UInt64.size - 1)

/-- A number of 64 bits, as a machine word. -/
def asWord (j : Json) : Decoded UInt64 := (j.asSize).map Nat.toUInt64

/-- A text. -/
def asString : Json → Decoded String
  | string text => .ok text
  | _ => .error .malformed

/-- A truth value. -/
def asBool : Json → Decoded Bool
  | bool value => .ok value
  | _ => .error .malformed

/-- A list, item by item. -/
def asList {α : Type} (item : Json → Decoded α) : Json → Decoded (List α)
  | array items => items.mapM item
  | _ => .error .malformed

/-- A value that may be null. -/
def asOption {α : Type} (value : Json → Decoded α) : Json → Decoded (Option α)
  | null => .ok none
  | j => (value j).map some

/-- The tag of a form without content. -/
def asTag : Json → Decoded String
  | string tag => .ok tag
  | object [(tag, null)] => .ok tag
  | _ => .error .malformed

/-- The tag and the content of a form. -/
def tagged : Json → Decoded (String × Json)
  | object [(tag, content)] => .ok (tag, content)
  | _ => .error .malformed

/-- A form as its tag and its content. -/
def tag (name : String) (content : Json) : Json := object [(name, content)]

/-- The fields of a record that are given, in the order of their names. -/
def fields (names : List String) : Json → Decoded (List (Option Json))
  | object members =>
    names.mapM fun name =>
      match members.filter (·.1 == name) with
      | [] => .ok none
      | [member] => .ok (some member.2)
      | _ => .error .malformed
  | array items =>
    if names.length < items.length then .error .malformed
    else .ok (names.mapIdx fun i _ => items[i]?)
  | _ => .error .malformed

/-- Decodes a member of an object, which may be left out or null. -/
def optional {α : Type} (j : Json) (name : String) (value : Json → Decoded α) :
    Decoded (Option α) :=
  match j.member? name with
  | some content => asOption value content
  | none => .ok none

/-- Decodes a member of an object. -/
def required {α : Type} (j : Json) (name : String) (value : Json → Decoded α) : Decoded α :=
  match j.member? name with
  | some content => value content
  | none => .error .malformed

end Json

/-- Decodes the field at a place of a record. -/
def fieldAt {α : Type} (fields : List (Option Json)) (place : Nat) (value : Json → Decoded α) :
    Decoded α :=
  match fields[place]? with
  | some (some j) => value j
  | _ => .error .malformed

/-- Decodes the field at a place of a record, which may be left out. -/
def fieldAtD {α : Type} (fields : List (Option Json)) (place : Nat) (default : α)
    (value : Json → Decoded α) : Decoded α :=
  match fields[place]? with
  | some (some j) => value j
  | _ => .ok default

instance : JsonCodec Variable where
  encode v := .string v.text
  decode j := do
    match Variable.parse (← j.asString) with
    | .ok v => .ok v
    | .error error => .error (.identifier error)

instance : JsonCodec Label where
  encode label := .string label.text
  decode j := do
    match Label.parse (← j.asString) with
    | .ok label => .ok label
    | .error error => .error (.identifier error)

instance : JsonCodec VariableKind where
  encode
    | .result => .string "Result"
    | .input => .string "Input"
    | .work => .string "Work"
  decode j := do
    match ← j.asTag with
    | "Result" => .ok .result
    | "Input" => .ok .input
    | "Work" => .ok .work
    | _ => .error .malformed

end CounterMachine
